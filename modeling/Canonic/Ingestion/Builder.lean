import Canonic.Slug
import Canonic.Ingestion.Candidates

set_option autoImplicit false

/-! # The context builder

`ingestion/builder.py`, with `draft_page` of `ingestion/page_drafts.py`: every evidence item becomes
the proposals it calls for, or is recorded as skipped. Nothing is read from a file.

What the builder calls outside of itself is a `BuilderLib`: the validation of payloads, the
definition index, the LLM drafter, the SQL reader and the digests. -/

namespace Canonic

/-! ## Slugs -/

/-- `_metric_slug`. -/
def metricSlug (py : PyLib) (title : String) : String :=
  match Slug.slug '_' (py.lower title).toList with
  | [] => "unknown"
  | cs => String.ofList (cs.take 64)

/-- The file of the binding a title or an outcome refers to, as the builder names it. -/
def metricTarget (py : PyLib) (metric : String) : String :=
  "contracts/metrics/" ++ metricSlug py metric ++ ".yaml"

/-- `_assertion_slug`. -/
def assertionSlug (py : PyLib) (source artifact : String) : String :=
  String.ofList ((Slug.slug '_' (py.lower (source ++ "_" ++ artifact)).toList).take 64)

/-- `_slug` of a page, with the digest that stands for a title without letters or digits. -/
def pageSlug (py : PyLib) (digest : String → String) (title : String) : String :=
  match Slug.slug '-' (py.lower title).toList with
  | [] => "doc-" ++ digest title
  | cs => String.ofList cs

/-! ## Key suffixes -/

/-- The characters that match a lower-case letter when the case is ignored. Three letters outside
of ASCII fold to `i` and `k`. -/
def matchesLetter (letter c : Char) : Bool :=
  c.toLower == letter || (letter == 'i' && (c == '\u0130' || c == '\u0131')) ||
    (letter == 'k' && c == '\u212a')

def matchesLetters (letters cs : List Char) : Bool :=
  letters.length == cs.length && (letters.zip cs).all fun p => matchesLetter p.1 p.2

/-- The text up to where `$` matches, and the newline that may follow. -/
def atEnd (cs : List Char) : List Char × List Char :=
  if cs.getLast? = some '\n' then (cs.dropLast, ['\n']) else (cs, [])

/-- The text before a suffix `_id`, `_fk` or `_key`, where it has one. -/
def beforeKeySuffix (cs : List Char) : Option (List Char) :=
  [['_', 'i', 'd'], ['_', 'f', 'k'], ['_', 'k', 'e', 'y']].findSome? fun suffix =>
    let stem := cs.take (cs.length - suffix.length)
    if matchesLetters suffix (cs.drop stem.length) then some stem else none

/-- `_ID_SUFFIX_RE.search(name)`. -/
def hasIdSuffix (name : String) : Bool := (beforeKeySuffix (atEnd name.toList).1).isSome

/-- `_SURROGATE_KEY_RE.search(name)`. -/
def isSurrogateKey (name : String) : Bool :=
  matchesLetters ['i', 'd'] (atEnd name.toList).1 || hasIdSuffix name

/-- `re.sub("_(id|fk|key)$", "", name)`. -/
def sansKeySuffix (name : String) : String :=
  match beforeKeySuffix (atEnd name.toList).1 with
  | some stem => String.ofList (stem ++ (atEnd name.toList).2)
  | none => name

/-! ## Relations and what is defined on them -/

/-- A column of a relation, its profile apart. -/
structure ColumnInfo where
  name : String
  type : String
  nullable : Bool := true
  position : Option Int := none
  deriving DecidableEq, Repr

structure ForeignKeyRef where
  relation : String
  columns : List String
  deriving DecidableEq, Repr

structure ForeignKey where
  columns : List String
  references : ForeignKeyRef
  deriving DecidableEq, Repr

inductive RelationKind where
  | table | view | materializedView
  deriving DecidableEq, Repr

/-- The schema of one relation, as introspection reports it. -/
structure RelationSchema where
  connection : String
  relation : String
  kind : RelationKind := .table
  columns : List ColumnInfo
  primaryKey : List String := []
  foreignKeys : List ForeignKey := []
  rowCountEstimate : Option Int := none
  acquisitionTier : AcquisitionTier
  sourceFingerprint : Option String := none
  deriving DecidableEq, Repr

/-- `ForeignKey.model_dump`. -/
def ForeignKey.dump (k : ForeignKey) : Json :=
  .obj [("columns", .texts k.columns), ("references", .obj [
    ("relation", .str k.references.relation), ("columns", .texts k.references.columns)])]

/-- `compute_fingerprint`, where `hash` is the digest of a payload's text. The relation and its
connection are no part of the payload. -/
def computeFingerprint (hash : Json → String) (columns : List ColumnInfo)
    (primaryKey : List String) (foreignKeys : List ForeignKey) : String :=
  "sha256:" ++ hash (.obj [
    ("columns", .arr (columns.map fun c => .obj [("name", .str c.name), ("type", .str c.type),
      ("nullable", .bool c.nullable), ("position", c.position.elim .null fun i => .num i)])),
    ("primary_key", .texts primaryKey), ("foreign_keys", .arr (foreignKeys.map (·.dump)))])

/-- `schema.relation.split(".")[-1]`. -/
def RelationSchema.name (schema : RelationSchema) : String := lastComponent schema.relation

/-- A measure of a draft. -/
structure MeasureDraft where
  name : String
  expr : String
  additivity : String
  deriving DecidableEq, Repr

def MeasureDraft.dump (m : MeasureDraft) : Json :=
  .obj [("name", .str m.name), ("expr", .str m.expr), ("additivity", .str m.additivity)]

/-- A dimension of a draft; `rest` are its fields after the column, in the order they were set. -/
structure DimensionDraft where
  name : String
  column : Option String := none
  rest : Content := []
  deriving DecidableEq

def DimensionDraft.dump (d : DimensionDraft) : Json :=
  .obj ([("name", .str d.name)] ++ optionalField "column" d.column ++ d.rest)

/-- `dim.setdefault(key, value)`, for a key other than the name and the column. -/
def DimensionDraft.setDefault (d : DimensionDraft) (key : String) (value : Json) :
    DimensionDraft :=
  if Dict.has d.rest key then d else { d with rest := Dict.set d.rest key value }

/-- A join of a draft. -/
structure JoinFragment where
  to_ : String
  on : String
  relationship : String
  name : Option String := none
  deriving DecidableEq, Repr

def JoinFragment.dump (j : JoinFragment) : Json :=
  .obj ([("to", .str j.to_), ("on", .str j.on), ("relationship", .str j.relationship)] ++
    optionalField "name" j.name)

/-- The fragments that modeling definitions contribute to the draft of one relation. -/
structure RelationDefinitions where
  measures : List MeasureDraft := []
  dimensions : List DimensionDraft := []
  joins : List JoinFragment := []
  grain : List String := []
  description : Option String := none
  reviewNotes : List String := []

/-- The value of an optional text that is not empty. -/
def stated (text : Option String) : Option String := text.filter (· ≠ "")

/-- `fingerprint`: nothing where no definition reached the relation. -/
def RelationDefinitions.fingerprint (digest : Content → String) (d : RelationDefinitions) :
    Option String :=
  let payload : Content :=
    [("measures", .arr (d.measures.map (·.dump))), ("dimensions", .arr (d.dimensions.map (·.dump))),
     ("joins", .arr (d.joins.map (·.dump))), ("grain", .texts d.grain),
     ("description", .text? d.description)]
  if payload.any (·.2.truthy) then some ("sha256:" ++ digest payload) else none

/-! ## The drafter -/

structure GrainDraft where
  grain : List String := []
  confidence : ℚ
  reasoning : String := ""

structure DimensionEnrichment where
  name : String
  label : Option String := none
  aliases : List String := []
  confidence : ℚ := 0

structure JoinDraft where
  column : String
  to_ : String
  toColumn : String
  confidence : ℚ := 0
  reasoning : String := ""

/-- The drafting of what the deterministic core cannot assert. -/
structure LLMDrafter where
  draftGrain : RelationSchema → Reads GrainDraft
  draftDimensionLabels : RelationSchema → List DimensionDraft → Reads (List DimensionEnrichment)
  draftSchemaJoins : RelationSchema → List String → Dict RelationSchema → Reads (List JoinDraft)

/-- `NullLLMDrafter`: proposes nothing. -/
def nullLLMDrafter : LLMDrafter where
  draftGrain _ := .ok { confidence := 3 / 10 }
  draftDimensionLabels _ _ := .ok []
  draftSchemaJoins _ _ _ := .ok []

/-! ## The other kinds of evidence -/

inductive UsageRole where
  | alternative | trustedExample
  deriving DecidableEq, Repr

/-- What a BI artifact computes. -/
structure UsageEvidence where
  source : String
  artifact : String
  title : String
  expr : String
  references : List String := []
  role : UsageRole
  nativeRef : String
  deriving DecidableEq, Repr

/-- Prose evidence, with its dump. -/
structure DocEvidence where
  title : String
  sourceFingerprint : Option String := none
  dump : Json
  deriving DecidableEq

/-- Evidence the builder did not turn into a proposal. -/
structure SkippedEvidence where
  source : String
  kind : String
  reason : String
  deriving DecidableEq, Repr

/-- The modeling definitions of a run, resolved against its relations: the fragments of each
relation, the candidates in the order they are proposed, and what could not be placed. -/
structure DefinitionIndex where
  forRelation : String → RelationDefinitions
  unplaced : List SkippedEvidence := []
  candidates : List Candidate := []
  unexpressible : List SkippedEvidence := []

/-- What the builder calls. -/
structure BuilderLib where
  py : PyLib
  /-- `RelationSchema.model_validate`. -/
  schema : Content → Reads RelationSchema
  /-- `UsageEvidence.model_validate`. -/
  usage : Content → Reads UsageEvidence
  /-- `DocEvidence.model_validate`, or the text of the error. -/
  doc : Content → Except String DocEvidence
  /-- The definition index over the evidence and the relations of the run. -/
  definitions : List EvidenceItem → Dict RelationSchema → Reads DefinitionIndex
  /-- The table and the name of every column of a join predicate. -/
  columnsOf : String → Reads (List (String × String))
  /-- The digest of what definitions contribute. -/
  definitionDigest : Content → String
  /-- The digest of a page title. -/
  titleDigest : String → String
  /-- `\w`. -/
  isWordChar : Char → Bool
  drafter : LLMDrafter

/-! ## Drafting a relation -/

/-- A confidence a proposal accepts. -/
def Confidence.check (q : ℚ) : Reads Confidence :=
  if h : 0 ≤ q ∧ q ≤ 1 then .ok ⟨q, h⟩
  else raise "ValidationError: confidence is not between 0 and 1"

/-- `MODELING_REVIEW_CONFIDENCE`: a draft that is flagged for review never passes as certain. -/
def modelingReviewConfidence : Confidence := ⟨1 / 2, by norm_num, by norm_num⟩

/-- `_infer_measures`. -/
def inferMeasures (columns : List ColumnInfo) : List MeasureDraft :=
  let summable := columns.filter fun c =>
    c.type ∈ ["int", "float", "decimal"] ∧ !isSurrogateKey c.name
  ⟨"row_count", "count(*)", "additive"⟩ ::
    summable.map fun c => ⟨"total_" ++ c.name, "sum(" ++ c.name ++ ")", "additive"⟩

/-- `_infer_dimensions`. -/
def inferDimensions (columns : List ColumnInfo) : List DimensionDraft :=
  let grouping := columns.filter fun c =>
    c.type ∈ ["date", "timestamp", "bool"] ∨ (c.type = "string" ∧ !hasIdSuffix c.name)
  grouping.map fun c => { name := c.name, column := some c.name }

/-- The label and the aliases a drafter is sure enough of; what is stated stays. -/
def enrichDimension (drafts : Dict DimensionEnrichment) (d : DimensionDraft) : DimensionDraft :=
  match drafts.get d.name with
  | none => d
  | some draft =>
      let labelled := match stated draft.label with
        | some label => if 1 / 2 ≤ draft.confidence then d.setDefault "label" (.str label) else d
        | none => d
      if !draft.aliases.isEmpty ∧ 3 / 4 ≤ draft.confidence then
        labelled.setDefault "aliases" (.texts draft.aliases)
      else labelled

/-- `_enrich_dimensions`. -/
def enrichDimensions (drafter : LLMDrafter) (schema : RelationSchema)
    (dimensions : List DimensionDraft) : Reads (List DimensionDraft) :=
  if dimensions.isEmpty then return []
  else do
    let enrichments ← drafter.draftDimensionLabels schema dimensions
    let drafts := enrichments.foldl (fun d e => Dict.set d e.name e) []
    return dimensions.map (enrichDimension drafts)

/-- `_join_candidate_columns`. -/
def joinCandidateColumns (schema : RelationSchema) : List String :=
  let declared := schema.foreignKeys.flatMap (·.columns)
  (schema.columns.map (·.name)).filter fun c => hasIdSuffix c ∧ c ∉ declared

/-- A drafted join that is sure enough and names columns that exist, capped. -/
def acceptJoin (candidates : List String) (others : Dict RelationSchema) (draft : JoinDraft) :
    Option JoinDraft :=
  match others.get draft.to_ with
  | none => none
  | some target =>
      if 1 / 2 ≤ draft.confidence ∧ draft.column ∈ candidates ∧
          draft.toColumn ∈ target.columns.map (·.name) then
        some { draft with confidence := min draft.confidence (85 / 100) }
      else none

/-- `_draft_schema_joins`. -/
def draftSchemaJoins (drafter : LLMDrafter) (schema : RelationSchema) (candidates : List String)
    (others : Dict RelationSchema) : Reads (List JoinDraft) :=
  if candidates.isEmpty || others.isEmpty then return []
  else do
    let drafts ← drafter.draftSchemaJoins schema candidates others
    return drafts.filterMap (acceptJoin candidates others)

/-- `_fk_on`. -/
def fkOn (name : String) (fk : ForeignKey) : String :=
  let target := lastComponent fk.references.relation
  " AND ".intercalate ((fk.columns.zip fk.references.columns).map fun c =>
    name ++ "." ++ c.1 ++ " = " ++ target ++ "." ++ c.2)

/-- `_fk_to_join`. -/
def fkToJoin (name : String) (fk : ForeignKey) (needsAlias : Bool) : JoinFragment :=
  let target := lastComponent fk.references.relation
  { to_ := target, on := fkOn name fk, relationship := "many_to_one",
    name := if needsAlias then some (sansKeySuffix (fk.columns.head?.getD target)) else none }

/-- `_draft_to_join`. -/
def draftToJoin (name : String) (draft : JoinDraft) (needsAlias : Bool) : JoinFragment where
  to_ := draft.to_
  on := name ++ "." ++ draft.column ++ " = " ++ draft.to_ ++ "." ++ draft.toColumn
  relationship := "many_to_one"
  name := if needsAlias then some (sansKeySuffix draft.column) else none

/-- The local column a predicate starts with, `re.match` on the name, a dot and a word. -/
def localColumn (isWordChar : Char → Bool) (name on : String) : Option String :=
  let start := name.toList ++ ['.']
  if start.isPrefixOf on.toList then
    match (on.toList.drop start.length).takeWhile isWordChar with
    | [] => none
    | cs => some (String.ofList cs)
  else none

/-- A modeled join, named where another one has its target. -/
def modeledToJoin (isWordChar : Char → Bool) (name : String) (join : JoinFragment)
    (needsAlias : Bool) : JoinFragment :=
  if needsAlias then
    { join with
      name := some (sansKeySuffix ((localColumn isWordChar name join.on).getD join.to_)) }
  else join

/-- `_build_joins`: a modeled join replaces the foreign key with its target and predicate. -/
def buildJoins (isWordChar : Char → Bool) (name : String) (foreignKeys : List ForeignKey)
    (drafted : List JoinDraft) (modeled : List JoinFragment) : List JoinFragment :=
  let fks := foreignKeys.filter fun fk =>
    (lastComponent fk.references.relation, fkOn name fk) ∉ modeled.map fun j => (j.to_, j.on)
  let targets := fks.map (fun fk => lastComponent fk.references.relation) ++
    drafted.map (·.to_) ++ modeled.map (·.to_)
  let shared (target : String) : Bool := 1 < targets.count target
  fks.map (fun fk => fkToJoin name fk (shared (lastComponent fk.references.relation))) ++
    drafted.map (fun d => draftToJoin name d (shared d.to_)) ++
    modeled.map fun j => modeledToJoin isWordChar name j (shared j.to_)

/-- The grain of a draft, what is noted about it, who drafted it, and how sure it is. -/
def grainOf (drafter : LLMDrafter) (schema : RelationSchema) (definitions : RelationDefinitions) :
    Reads (List String × Content × DraftedBy × ℚ) :=
  if !schema.primaryKey.isEmpty then return (schema.primaryKey, [], .deterministic, 1)
  else if !definitions.grain.isEmpty then return (definitions.grain, [], .deterministic, 1)
  else do
    let draft ← drafter.draftGrain schema
    let reasoning := optionalField "grain_reasoning" (stated (some draft.reasoning))
    return (draft.grain, ("grain_draft", .bool true) :: reasoning, .llm, draft.confidence)

/-- The columns that a modeled join covers. -/
def joinColumns (lib : BuilderLib) (joins : List JoinFragment) : Reads (List String) := do
  let covered ← joins.mapM fun j => do
    return ((← lib.columnsOf j.on).filter fun c => c.1 ≠ j.to_).map (·.2)
  return covered.flatten

/-- What a draft notes about the joins it guessed. -/
def joinNotes (drafts : List JoinDraft) : Content :=
  if drafts.isEmpty then []
  else [("join_draft", .bool true), ("join_reasoning", .arr (drafts.map fun d => .obj
    [("column", .str d.column), ("to", .str d.to_), ("confidence", .num d.confidence),
     ("reasoning", .str d.reasoning)]))]

/-- The relations of the same connection that a join may be guessed to. -/
def otherRelations (relations : Dict RelationSchema) (schema : RelationSchema) :
    Dict RelationSchema :=
  relations.filter fun r => r.1 ≠ schema.name ∧ r.2.connection = schema.connection

/-- The lowest of a confidence, those of the guessed joins, and the cap of a flagged draft. -/
def draftConfidence (confidence : ℚ) (drafts : List JoinDraft) (flagged : Bool) : ℚ :=
  let joined := (drafts.map (·.confidence)).foldl min confidence
  if flagged then min joined (1 / 2) else joined

/-- `_build_relation_schema`. -/
def buildRelationSchema (lib : BuilderLib) (relations : Dict RelationSchema)
    (schema : RelationSchema) (definitions : RelationDefinitions) : Reads Proposal := do
  let name := schema.name
  let (grain, grainNotes, draftedBy, confidence) ← grainOf lib.drafter schema definitions
  let measures :=
    if definitions.measures.isEmpty then inferMeasures schema.columns else definitions.measures
  let inferred := (inferDimensions schema.columns).filter fun d =>
    d.name ∉ definitions.dimensions.map (·.name) ∧
      ∀ c ∈ d.column, some c ∉ definitions.dimensions.map (·.column)
  let dimensions ← enrichDimensions lib.drafter schema (inferred ++ definitions.dimensions)
  let covered ← joinColumns lib definitions.joins
  let candidates := (joinCandidateColumns schema).filter fun c => c ∉ covered
  let drafts ← draftSchemaJoins lib.drafter schema candidates (otherRelations relations schema)
  let flags := if definitions.reviewNotes.isEmpty then []
    else [("review_flags", Json.texts (sortedSet definitions.reviewNotes))]
  let notes := ("source_fingerprint", Json.text? schema.sourceFingerprint) ::
    (optionalField "definition_fingerprint" (definitions.fingerprint lib.definitionDigest) ++
      grainNotes ++ joinNotes drafts ++ flags)
  let joins := buildJoins lib.isWordChar name schema.foreignKeys drafts definitions.joins
  return {
    target := "semantics/" ++ schema.connection ++ "/" ++ name ++ ".yaml"
    op := .add
    content := [("name", .str name), ("connection", .str schema.connection),
      ("table", .str schema.relation), ("grain", .texts grain),
      ("columns", .arr (schema.columns.map fun c => .obj [("name", .str c.name),
        ("type", .str c.type), ("nullable", .bool c.nullable)])),
      ("measures", .arr (measures.map (·.dump))),
      ("dimensions", .arr (dimensions.map (·.dump))),
      ("joins", .arr (joins.map (·.dump))), ("meta", .obj notes)] ++
      optionalField "description" (stated definitions.description)
    confidence := ← Confidence.check
      (draftConfidence confidence drafts (!definitions.reviewNotes.isEmpty))
    anchoredTo := (stated schema.sourceFingerprint).toList
    draftedBy := if drafts.isEmpty then draftedBy else .llm
    acquisitionTier := schema.acquisitionTier }

/-! ## Drafting the other kinds -/

/-- A proposal anchored to its evidence item, as certain as the evidence. -/
def anchored (item : EvidenceItem) (target : String) (op : ProposalOp) (content : Content) :
    Proposal where
  target := target
  op := op
  content := content
  confidence := .one
  anchoredTo := (stated (some item.sourceFingerprint)).toList
  acquisitionTier := item.acquisitionTier

/-- `_build_usage_evidence`. -/
def buildUsageEvidence (lib : BuilderLib) (item : EvidenceItem) (usage : UsageEvidence) :
    Proposal :=
  match usage.role with
  | .alternative =>
      anchored item (metricTarget lib.py usage.title) .edit
        [(daSentinel, .obj [("source", .str usage.source), ("ref", .str usage.artifact),
          ("reason", .str usage.title)])]
  | .trustedExample =>
      let id := "usage-" ++ assertionSlug lib.py usage.source usage.artifact
      anchored item ("contracts/assertions/" ++ id ++ ".yaml") .add
        [("id", .str id),
         ("query", .obj [("native", .str usage.expr), ("references", .texts usage.references)]),
         ("expect", .obj []), ("source_of_truth", .str usage.nativeRef)]

/-- `_build_answer_outcome`: outcome evidence carries no definition, only what speaks against the
one there is. -/
def buildAnswerOutcome (lib : BuilderLib) (item : EvidenceItem) : Reads Proposal := do
  let metric := lib.py.str (← Dict.item item.payload "metric")
  let refs ← (Dict.getD item.payload "refs" (.arr [])).loop
  return { anchored item (metricTarget lib.py metric) .edit
    [(answerOutcomeSentinel, .obj item.payload)] with
    anchoredTo := refs.map lib.py.str }

/-- `draft_page`. -/
def draftPage (lib : BuilderLib) (item : EvidenceItem) (doc : DocEvidence) : Proposal where
  target := "knowledge/global/" ++ pageSlug lib.py lib.titleDigest doc.title ++ ".md"
  op := .add
  content := [(pageDraftSentinel, doc.dump)]
  confidence := modelingReviewConfidence
  anchoredTo := (stated doc.sourceFingerprint).toList
  acquisitionTier := item.acquisitionTier

/-! ## A run of the builder -/

/-- `KNOWN_EVIDENCE_KINDS`. -/
def knownEvidenceKinds : List String :=
  ["relation_schema", "observed_query", "definition", "doc_evidence", "usage_evidence",
   "answer_outcome"]

def EvidenceItem.isKnown (item : EvidenceItem) : Bool := item.kind ∈ knownEvidenceKinds

/-- What becomes of one item: a proposal, or the reason it is skipped; a definition is neither,
it is part of the drafts of its relations. -/
inductive Built where
  | proposal (p : Proposal)
  | skipped (reason : String)
  | folded

/-- One evidence item of `build`. -/
def buildItem (lib : BuilderLib) (relations : Dict RelationSchema) (index : DefinitionIndex)
    (item : EvidenceItem) : Reads Built := do
  if !item.isKnown then return .skipped "unknown evidence kind"
  else if item.kind = "relation_schema" then
    let schema ← lib.schema item.payload
    return .proposal (← buildRelationSchema lib relations schema (index.forRelation schema.name))
  else if item.kind = "usage_evidence" then
    return .proposal (buildUsageEvidence lib item (← lib.usage item.payload))
  else if item.kind = "answer_outcome" then return .proposal (← buildAnswerOutcome lib item)
  else if item.kind = "doc_evidence" then
    match lib.doc item.payload with
    | .ok doc => return .proposal (draftPage lib item doc)
    | .error problem => return .skipped ("invalid doc evidence payload: " ++ problem)
  else if item.kind = "definition" then return .folded
  else return .skipped "no handler yet (deferred to a later E4 stage)"

/-- The relations of a run by their short names: the last of a name stays. -/
def runRelations (schemas : List RelationSchema) : Dict RelationSchema :=
  Dict.indexBy (·.name) schemas

/-- The relations that the evidence describes. -/
def relationsOf (lib : BuilderLib) (evidence : List EvidenceItem) :
    Reads (Dict RelationSchema) := do
  let schemas ← (evidence.filter fun item => item.kind = "relation_schema").mapM fun item =>
    lib.schema item.payload
  return runRelations schemas

/-- The candidates `build_candidate_proposals` keeps: the first at each target. -/
def firstAtTarget (py : PyLib) : List Candidate → List Candidate
  | [] => []
  | c :: cs => c :: (firstAtTarget py cs).filter fun d => d.target py ≠ c.target py

/-- The output of one builder run. -/
structure BuildResult where
  proposals : List Proposal
  skipped : List SkippedEvidence

/-- The proposal of an item, if it became one. -/
def Built.toProposal : Built → Option Proposal
  | proposal p => some p
  | _ => none

/-- The record of an item that was skipped. -/
def Built.toSkipped (item : EvidenceItem) : Built → Option SkippedEvidence
  | skipped reason => some ⟨item.source, item.kind, reason⟩
  | _ => none

/-- `ContextBuilder.build`. -/
def build (lib : BuilderLib) (evidence : List EvidenceItem) : Reads BuildResult := do
  let relations ← relationsOf lib evidence
  let index ← lib.definitions evidence relations
  let built ← evidence.mapM (buildItem lib relations index)
  let candidates := (firstAtTarget lib.py index.candidates).map (·.proposal lib.py)
  return {
    proposals := built.filterMap (·.toProposal) ++ candidates
    skipped := index.unplaced ++ (evidence.zip built).filterMap (fun b => b.2.toSkipped b.1) ++
      index.unexpressible }

/-! ## What is drafted -/

/-- The fields of the draft of a relation. -/
def sourceKeys : List String :=
  ["name", "connection", "table", "grain", "columns", "measures", "dimensions", "joins", "meta",
   "description"]

theorem keys_optionalField {name : String} {value : Option String} {k : String}
    (h : k ∈ (optionalField name value).map (·.1)) : k = name := by
  cases value with
  | none => simp [optionalField] at h
  | some v => simpa [optionalField] using h

theorem buildRelationSchema_keys {lib : BuilderLib} {relations : Dict RelationSchema}
    {schema : RelationSchema} {definitions : RelationDefinitions} {p : Proposal}
    (h : buildRelationSchema lib relations schema definitions = .ok p) :
    ∀ k ∈ p.content.map (·.1), k ∈ sourceKeys := by
  obtain ⟨grain, -, h⟩ := bind_eq_ok.mp h
  obtain ⟨dimensions, -, h⟩ := bind_eq_ok.mp h
  obtain ⟨covered, -, h⟩ := bind_eq_ok.mp h
  obtain ⟨drafts, -, h⟩ := bind_eq_ok.mp h
  obtain ⟨confidence, -, h⟩ := bind_eq_ok.mp h
  obtain rfl := pure_eq_ok.mp h
  intro k hk
  rw [List.map_append, List.mem_append] at hk
  rcases hk with hk | hk
  · simp only [List.map_cons, List.map_nil] at hk
    simp only [sourceKeys]
    exact List.mem_append_left ["description"] hk
  · rw [keys_optionalField hk]
    decide

/-- What the builder turned into a proposal. -/
inductive Drafted (lib : BuilderLib) (evidence : List EvidenceItem) (p : Proposal) : Prop where
  | source (keys : ∀ k ∈ p.content.map (·.1), k ∈ sourceKeys)
  | usage (item : EvidenceItem) (mem : item ∈ evidence) (kind : item.kind = "usage_evidence")
      (u : UsageEvidence) (valid : lib.usage item.payload = .ok u)
      (eq : p = buildUsageEvidence lib item u)
  | outcome (item : EvidenceItem) (mem : item ∈ evidence) (kind : item.kind = "answer_outcome")
      (eq : buildAnswerOutcome lib item = .ok p)
  | page (item : EvidenceItem) (doc : DocEvidence) (eq : p = draftPage lib item doc)

theorem buildItem_drafted {lib : BuilderLib} {evidence : List EvidenceItem}
    {relations : Dict RelationSchema} {index : DefinitionIndex} {item : EvidenceItem}
    {p : Proposal} (hmem : item ∈ evidence)
    (h : buildItem lib relations index item = .ok (.proposal p)) : Drafted lib evidence p := by
  unfold buildItem at h
  split at h
  · simp at h
  · split at h
    · obtain ⟨schema, -, h⟩ := bind_eq_ok.mp h
      obtain ⟨q, hq, h⟩ := bind_eq_ok.mp h
      obtain rfl := Built.proposal.inj (pure_eq_ok.mp h)
      exact .source (buildRelationSchema_keys hq)
    · split at h
      · rename_i hkind
        obtain ⟨u, hu, h⟩ := bind_eq_ok.mp h
        obtain rfl := Built.proposal.inj (pure_eq_ok.mp h)
        exact .usage item hmem hkind u hu rfl
      · split at h
        · rename_i hkind
          obtain ⟨q, hq, h⟩ := bind_eq_ok.mp h
          obtain rfl := Built.proposal.inj (pure_eq_ok.mp h)
          exact .outcome item hmem hkind hq
        · split at h
          · split at h
            · rename_i doc _
              obtain rfl := Built.proposal.inj (pure_eq_ok.mp h)
              exact .page item doc rfl
            · simp at h
          · split at h
            · simp at h
            · simp at h

/-- The proposals of a run of the builder: what the items of the evidence were turned into, and
then the candidates. -/
theorem build_eq_ok {lib : BuilderLib} {evidence : List EvidenceItem} {r : BuildResult}
    (h : build lib evidence = .ok r) :
    ∃ ps cs, r.proposals = ps ++ (firstAtTarget lib.py cs).map (·.proposal lib.py) ∧
      (∀ p ∈ ps, Drafted lib evidence p) ∧
      (∀ item ∈ evidence, ∀ u, item.kind = "usage_evidence" → lib.usage item.payload = .ok u →
        buildUsageEvidence lib item u ∈ ps) ∧
      ∀ item ∈ evidence, item.kind = "answer_outcome" →
        ∃ p ∈ ps, buildAnswerOutcome lib item = .ok p := by
  obtain ⟨relations, -, h⟩ := bind_eq_ok.mp h
  obtain ⟨index, -, h⟩ := bind_eq_ok.mp h
  obtain ⟨built, hbuilt, h⟩ := bind_eq_ok.mp h
  obtain rfl := pure_eq_ok.mp h
  have hall := mapM_eq_ok.mp hbuilt
  refine ⟨built.filterMap (·.toProposal), index.candidates, rfl, ?_, ?_, ?_⟩
  · intro p hp
    obtain ⟨b, hb, hbp⟩ := List.mem_filterMap.mp hp
    obtain ⟨item, hitem, hone⟩ := forall₂_mem_right hall hb
    cases b with
    | proposal q =>
        obtain rfl := Option.some.inj hbp
        exact buildItem_drafted hitem hone
    | skipped _ => simp [Built.toProposal] at hbp
    | folded => simp [Built.toProposal] at hbp
  · intro item hitem u hkind hu
    obtain ⟨b, hb, hone⟩ := forall₂_mem_left hall hitem
    have hb' : buildItem lib relations index item =
        .ok (.proposal (buildUsageEvidence lib item u)) := by
      simp [buildItem, EvidenceItem.isKnown, knownEvidenceKinds, hkind, hu]
    obtain rfl := Except.ok.inj (hb'.symm.trans hone)
    exact List.mem_filterMap.mpr ⟨_, hb, rfl⟩
  · intro item hitem hkind
    obtain ⟨b, hb, hone⟩ := forall₂_mem_left hall hitem
    have hb' : buildItem lib relations index item =
        (buildAnswerOutcome lib item >>= fun p => .ok (.proposal p)) := by
      simp [buildItem, EvidenceItem.isKnown, knownEvidenceKinds, hkind]
      rfl
    rw [hb'] at hone
    obtain ⟨p, hp, hbp⟩ := bind_eq_ok.mp hone
    obtain rfl := Except.ok.inj hbp
    exact ⟨p, List.mem_filterMap.mpr ⟨_, hb, rfl⟩, hp⟩

end Canonic
