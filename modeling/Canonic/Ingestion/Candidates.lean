import Canonic.Ingestion.Models

set_option autoImplicit false

/-! # Contract candidates

`ingestion/candidates.py`: proposed metric bindings that a definition connector states. They are
decided after every other proposal, against the sources and bindings the run leaves in place.

A candidate's content is an open dictionary, so reading it can raise: a key that is missing, a
value of another shape, a list where a set needs something hashable. `Reads` is the outcome of
such a reading. -/

namespace Canonic

/-! ## Reading open dictionaries -/

/-- The outcome of a computation that may raise. -/
abbrev Reads := Except Err

def raise {α : Type} (message : String) : Reads α := .error (.internal message)

/-- `content[key]`. -/
def Dict.item (content : Content) (key : String) : Reads Json :=
  match content.get key with
  | some value => .ok value
  | none => raise s!"KeyError: {pyRepr key}"

/-- `value[key]` of a value that should be a dictionary. -/
def Json.item (value : Json) (key : String) : Reads Json :=
  match value with
  | .obj fields => Dict.item fields key
  | _ => raise "TypeError: indices must be integers"

/-- `value.get(key)`, `None` where the key is absent. -/
def Json.field (value : Json) (key : String) : Reads Json :=
  match value with
  | .obj fields => .ok (Dict.getD fields key .null)
  | _ => raise "AttributeError: object has no attribute 'get'"

/-- `for x in value`. -/
def Json.loop (value : Json) : Reads (List Json) :=
  match value.iter with
  | some xs => .ok xs
  | none => raise "TypeError: object is not iterable"

/-- A value that is put into a set, or looked up in one. -/
def Json.hashed (value : Json) : Reads Json :=
  match value with
  | .arr _ | .obj _ => raise "TypeError: unhashable type"
  | v => .ok v

/-- `value in names`, for a set of texts. -/
def inTexts (names : List String) : Json → Bool
  | .str s => decide (s ∈ names)
  | _ => false

/-- `value in values`, for a set of values. -/
def inValues (values : List Json) (value : Json) : Bool := values.any (Json.pyEq value)

/-- `text.startswith(start)`. -/
def startsWith (text start : String) : Bool := start.toList.isPrefixOf text.toList

/-- `f"{value!r}"`. -/
def PyLib.repr (py : PyLib) : Json → String
  | .str s => pyRepr s
  | v => py.str v

/-! ## The sentinels -/

/-- `_DA_SENTINEL`. -/
def daSentinel : String := "_deprecated_alternative"

/-- `_ANSWER_OUTCOME_SENTINEL`. -/
def answerOutcomeSentinel : String := "_answer_outcome_evidence"

/-- `CANDIDATE_SENTINEL`: stripped before anything is written. -/
def candidateSentinel : String := "_contract_candidate"

/-- `PAGE_DRAFT_SENTINEL`. -/
def pageDraftSentinel : String := "_page_draft"

def isCandidate (p : Proposal) : Bool := Dict.has p.content candidateSentinel

/-- `_strip`. -/
def Proposal.strip (p : Proposal) : Proposal :=
  { p with content := p.content.filter fun f => f.1 ≠ candidateSentinel }

/-- `p == q` of two proposals. A list test `p in ps` also holds where they are one object. -/
def Proposal.pyEq (p q : Proposal) : Bool :=
  p.target == q.target && p.op == q.op && Json.pyEq (.obj p.content) (.obj q.content) &&
    p.provenance == q.provenance && p.confidence == q.confidence &&
    p.anchoredTo == q.anchoredTo && p.draftedBy == q.draftedBy &&
    p.acquisitionTier == q.acquisitionTier

/-- `p in ps`. -/
def Proposal.isIn (p : Proposal) (ps : List Proposal) : Bool :=
  ps.any fun q => decide (p = q) || p.pyEq q

/-! ## The state a run leaves behind -/

/-- `sources[str(content.get("name"))] = content`. -/
def setSource (py : PyLib) (sources : Dict Content) (content : Content) : Dict Content :=
  sources.set (py.str (Dict.getD content "name" .null)) content

/-- `final_sources`: the proposed content of a source where it lands, else the accepted one. -/
def finalSources (py : PyLib) (accepted : AcceptedStore) (entries : List Entry) : Dict Content :=
  let kept := (accepted.facts.filter fun f => startsWith f.target "semantics/").map (·.content)
  let landed := (entries.filter fun e =>
    startsWith e.target "semantics/" && e.decision.isAdding).map (·.proposal.content)
  (kept ++ landed).foldl (setSource py) []

/-- The metrics of the accepted bindings. -/
def acceptedBound (py : PyLib) (accepted : AcceptedStore) : List String :=
  (accepted.facts.filter fun f => startsWith f.target "contracts/metrics/").map fun f =>
    py.str (Dict.getD f.content "metric" .null)

/-! ## The references of a candidate -/

/-- `_metric_references`: the metrics a proposed binding is computed from. -/
def metricReferences (canonical : Json) : Reads (List Json) := do
  let kind ← canonical.item "kind"
  if kind = .str "ratio" then
    let numerator ← (← canonical.item "numerator").hashed
    let denominator ← (← canonical.item "denominator").hashed
    return [numerator, denominator]
  else if kind = .str "offset" then
    return [← (← canonical.item "base").hashed]
  else if kind = .str "derived" then
    let inputs ← (← canonical.item "inputs").loop
    inputs.mapM fun i => do (← i.item "metric").hashed
  else if kind = .str "conversion" then
    let base ← (← canonical.item "base_metric").hashed
    let conversion ← (← canonical.item "conversion_metric").hashed
    return [base, conversion]
  else return []

/-- `{x.get("name") for x in source.get(field, [])}`. -/
def namesIn (source : Content) (field : String) : Reads (List Json) := do
  let items ← (Dict.getD source field (.arr [])).loop
  items.mapM fun x => do (← x.field "name").hashed

/-- The names that are not empty, of the columns and dimensions of one source. -/
def timeNames (source : Content) : Reads (List Json) := do
  let columns ← (Dict.getD source "columns" (.arr [])).loop
  let dimensions ← (Dict.getD source "dimensions" (.arr [])).loop
  let names ← (columns ++ dimensions).mapM fun x => x.field "name"
  (names.filter (·.truthy)).mapM (·.hashed)

/-- The numeric value that a comparison reads. -/
def Json.number? : Json → Option ℚ
  | .num q => some q
  | .bool b => some (if b then 1 else 0)
  | _ => none

/-- `sorted(missing)[0]`; values of different types cannot be compared. -/
def firstSorted (missing : List Json) : Reads (Option Json) :=
  match missing with
  | [] => .ok none
  | [x] => .ok (some x)
  | xs =>
      match xs.mapM (fun | .str s => some s | _ => none), xs.mapM Json.number? with
      | some texts, _ => .ok ((texts.insertionSort (· ≤ ·)).head?.map .str)
      | none, some numbers => .ok ((numbers.insertionSort (· ≤ ·)).head?.map .num)
      | none, none => raise "TypeError: '<' not supported"

/-- The values of a set in a list: the first of equal ones stays. -/
def distinct : List Json → List Json
  | [] => []
  | x :: xs => x :: (distinct xs).filter fun y => !Json.pyEq x y

/-- One field of a candidate against the names that will exist. -/
def missingName (py : PyLib) (what : String) (names : List Json) (value : Json) (rest : String) :
    Reads (Option String) := do
  let v ← value.hashed
  if inValues names v then return none
  else return some s!"{what} {py.repr v} will not exist{rest}"

/-- The first of several checks that reports something. -/
def firstMissing {α : Type} (check : α → Reads (Option String)) :
    List α → Reads (Option String)
  | [] => .ok none
  | x :: xs => do
      match ← check x with
      | some reason => return some reason
      | none => firstMissing check xs

/-- The check of a source-bound candidate against its source. -/
def missingInSource (py : PyLib) (sources : Dict Content) (canonical kind : Json) :
    Reads (Option String) := do
  let name ← (← canonical.item "source").hashed
  let source := match name with
    | .str s => sources.get s
    | _ => none
  match source with
  | none => return some s!"source {py.repr name} will not exist"
  | some source =>
      let onSource := s!" on {py.repr name}"
      if kind = .str "single" ∨ kind = .str "cumulative" then
        let measures ← namesIn source "measures"
        match ← missingName py "measure" measures (← canonical.item "measure") onSource with
        | some reason => return some reason
        | none =>
            let dimensions ← namesIn source "dimensions"
            let orderBy ← match canonical with
              | .obj fields => (Dict.getD fields "order_by" (.arr [])).loop
              | _ => raise "AttributeError: object has no attribute 'get'"
            firstMissing (fun name => missingName py "dimension" dimensions name onSource) orderBy
      else
        let columns ← namesIn source "columns"
        let dimensions ← namesIn source "dimensions"
        missingName py "column" (columns ++ dimensions) (← canonical.item "distinct_on") onSource

/-- What a candidate names that will not exist, its metrics apart. -/
def missingInState (py : PyLib) (sources : Dict Content) (canonical kind : Json) :
    Reads (Option String) := do
  if kind = .str "derived" then return none
  else if kind = .str "conversion" then
    let names ← (sources.map (·.2)).mapM timeNames
    firstMissing (fun field => do
      missingName py "dimension" names.flatten (← canonical.item field) "")
      ["base_time", "conversion_time"]
  else if kind = .str "offset" then
    let names ← (sources.map (·.2)).mapM fun source => namesIn source "dimensions"
    missingName py "dimension" names.flatten (← canonical.item "time_dimension") ""
  else missingInSource py sources canonical kind

/-- `_missing_reference`: what a candidate names that will not exist. -/
def missingReference (py : PyLib) (sources : Dict Content) (bound : List String)
    (content : Content) : Reads (Option String) := do
  let canonical ← Dict.item content "canonical"
  let kind ← canonical.item "kind"
  if kind = .str "ratio" then
    firstMissing (fun part => do
      let value ← (← canonical.item part).hashed
      if inTexts bound value then return none
      else return some s!"{part} {py.repr value} has no binding") ["numerator", "denominator"]
  else
    let references ← metricReferences canonical
    match ← firstSorted (distinct (references.filter fun r => !inTexts bound r)) with
    | some metric => return some s!"metric {py.repr metric} has no binding"
    | none => missingInState py sources canonical kind

/-! ## Deciding the candidates -/

section Resolve

variable (py : PyLib) (accepted : AcceptedStore) (sources : Dict Content)
  (reconcileNew : Proposal → Reads Entry)

/-- The name of the metric a candidate binds. -/
def candidateMetric (content : Content) : Reads String := do
  return py.str (← Dict.item content "metric")

/-- One candidate of `_resolve_ready`, with the metrics bound so far. -/
def resolveCandidate (bound : List String) (p : Proposal) : Reads (Entry × List String) := do
  let stripped := p.strip
  let noOp (action : String) : Entry :=
    { decision := .noOp, target := p.target, proposal := stripped,
      recommendedAction := some action }
  match accepted.get p.target with
  | some _ => return (noOp "a binding already exists; candidates never change it", bound)
  | none =>
      match ← missingReference py sources bound stripped.content with
      | some reason => return (noOp s!"not proposed: {reason}", bound)
      | none =>
          let entry ← reconcileNew stripped
          let metric ← candidateMetric py stripped.content
          return (entry, metric :: bound)

/-- `_resolve_ready`. -/
def resolveReady : List String → List Proposal → Reads (List Entry × List String)
  | bound, [] => .ok ([], bound)
  | bound, p :: ps => do
      let (entry, bound) ← resolveCandidate py accepted sources reconcileNew bound p
      let (entries, bound) ← resolveReady bound ps
      return (entry :: entries, bound)

/-- `_waits_for_another`, for the candidate at an index of the pending ones. -/
def waitsForAnother (pending : List Proposal) (p : Proposal) (i : Nat) : Reads Bool := do
  let metrics ← (pending.eraseIdx i).mapM fun q => candidateMetric py q.content
  let references ← metricReferences (← Dict.item p.content "canonical")
  return references.any (inTexts metrics)

/-- The pending candidates that wait for another one. -/
def waitingOf (pending : List Proposal) : Reads (List Proposal) := do
  let flags ← pending.zipIdx.mapM fun q => waitsForAnother py pending q.1 q.2
  return ((pending.zip flags).filter (·.2)).map (·.1)

/-- The candidates a round decides, and those left for the next one. Where every candidate waits,
the round takes them all. -/
def roundOf (pending waiting : List Proposal) : List Proposal × List Proposal :=
  let ready := pending.filter fun p => !p.isIn waiting
  if ready.isEmpty then (waiting, []) else (ready, waiting)

/-- `CandidateResolver.resolve`. Each round decides a candidate, so there are no more rounds than
candidates. -/
def resolveRounds : Nat → List String → List Proposal → Reads (List Entry)
  | 0, _, _ => .ok []
  | _ + 1, _, [] => .ok []
  | n + 1, bound, pending => do
      let waiting ← waitingOf py pending
      let round := roundOf pending waiting
      let (entries, bound) ← resolveReady py accepted sources reconcileNew bound round.1
      return entries ++ (← resolveRounds n bound round.2)

end Resolve

/-- The candidates of a run, decided against the entries decided before them. -/
def resolveCandidates (py : PyLib) (accepted : AcceptedStore) (entries : List Entry)
    (reconcileNew : Proposal → Reads Entry) (candidates : List Proposal) : Reads (List Entry) :=
  resolveRounds py accepted (finalSources py accepted entries) reconcileNew candidates.length
    (acceptedBound py accepted) candidates

/-! ## The proposals of the builder -/

/-- The canonical binding of a candidate, with the fields `build_candidate_proposals` writes for a
definition that carries those of its kind. -/
inductive CandidateBinding where
  | single (source measure : String)
  | distinctCount (source distinctOn : String)
  | cumulative (source measure : String) (orderBy : List String)
      (window grainToDate periodAgg : Option String)
  | ratio (numerator denominator : String)
  | offset (base timeDimension offset : String)
  | derived (expr : String) (inputs : List DerivedInput)
  | conversion (baseMetric conversionMetric : String) (entity : Dict String)
      (baseTime conversionTime calculation : String) (window : Option String)
      (constantProperties : List (Dict String))
  deriving DecidableEq

/-- A dictionary of texts as JSON. -/
def Json.textFields (fields : Dict String) : Json := .obj (fields.map fun f => (f.1, .str f.2))

/-- One field that is written only where there is a value. -/
def optionalField (name : String) (value : Option String) : Content :=
  value.elim [] fun v => [(name, .str v)]

def CandidateBinding.dump : CandidateBinding → Json
  | single source measure =>
      .obj [("kind", .str "single"), ("source", .str source), ("measure", .str measure)]
  | distinctCount source distinctOn =>
      .obj [("kind", .str "distinct_count"), ("source", .str source),
        ("distinct_on", .str distinctOn)]
  | cumulative source measure orderBy window grainToDate periodAgg =>
      let frame := match window, grainToDate with
        | some w, _ => [("window", Json.str w)]
        | none, some g => [("grain_to_date", Json.str g)]
        | none, none => [("history", Json.str "include")]
      .obj ([("kind", .str "cumulative"), ("source", .str source), ("measure", .str measure),
        ("order_by", .texts orderBy)] ++ frame ++ optionalField "period_agg" periodAgg)
  | ratio numerator denominator =>
      .obj [("kind", .str "ratio"), ("numerator", .str numerator),
        ("denominator", .str denominator)]
  | offset base timeDimension shift =>
      .obj [("kind", .str "offset"), ("base", .str base),
        ("time_dimension", .str timeDimension), ("offset", .str shift)]
  | derived expr inputs =>
      .obj [("kind", .str "derived"), ("expr", .str expr),
        ("inputs", .arr (inputs.map fun i => .obj (("metric", .str i.metric) ::
          (i.alias_.elim [] fun a => if a = "" then [] else [("alias", .str a)]))))]
  | conversion baseMetric conversionMetric entity baseTime conversionTime calculation window
      constantProperties =>
      .obj ([("kind", .str "conversion"), ("base_metric", .str baseMetric),
        ("conversion_metric", .str conversionMetric),
        ("entity", .textFields entity), ("base_time", .str baseTime),
        ("conversion_time", .str conversionTime), ("calculation", .str calculation)] ++
        optionalField "window" window ++
        (if constantProperties.isEmpty then []
          else [("constant_properties", .arr (constantProperties.map .textFields))]))

/-- A contract candidate, as the builder proposes it. -/
structure Candidate where
  metric : String
  binding : CandidateBinding
  aliases : List String := []
  anchor : Option String := none
  confidence : Confidence
  deriving DecidableEq

namespace Candidate

/-- The file a candidate proposes. -/
def target (py : PyLib) (c : Candidate) : String := bindingTarget py c.metric

/-- `propose`. -/
def proposal (py : PyLib) (c : Candidate) : Proposal where
  target := c.target py
  op := .add
  content :=
    let aliases := c.aliases.filter (· ≠ c.metric)
    [("metric", .str c.metric), ("canonical", c.binding.dump),
      ("provenance", .str Provenance.inferred.value), (candidateSentinel, .bool true)] ++
      (if aliases.isEmpty then [] else [("aliases", .texts aliases)])
  confidence := c.confidence
  anchoredTo := c.anchor.elim [] fun a => if a = "" then [] else [a]
  acquisitionTier := .modeling

end Candidate

end Canonic
