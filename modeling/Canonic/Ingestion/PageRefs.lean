import Canonic.Knowledge.Retrieval
import Canonic.Ingestion.Pipeline
import Canonic.Semantic.Models

set_option autoImplicit false

/-! # References of knowledge pages, and the emitted report

`ingestion/page_refs.py`, with the advisor of `knowledge/pruning.py` and the two indexes of
`knowledge/validation.py`; then the last stages of `_emit`, the diffs of `ingestion/emitter.py` and
`write_emitted_diffs`.

A page with a reference to nothing gets an edit that removes it, unless the run already decides the
page, or found it unchanged, or it is frozen. Other pages are validated. -/

namespace Canonic

/-! ## Pages on disk -/

/-- A knowledge page that loads, with the text of its file. What else the file holds is written back
as it is. -/
structure PageFile where
  /-- The path from the root of the project. -/
  target : String
  text : String
  id : String
  scope : KnowledgeScope
  slRefs : List String := []
  refs : List String := []
  boundFingerprints : Dict String := []
  provenance : Provenance := .inferred
  frozen : Bool := false
  /-- Microseconds. -/
  lastValidatedAt : Option ℤ := none
  others : Json := .null

/-- The pages under `knowledge/` that load, in the order of their paths. -/
structure PageFiles where
  list : List PageFile
  nodup : (list.map (·.target)).Nodup

/-- What the check calls: the validation of a semantic source, and the text of a page. -/
structure PageLib where
  py : PyLib
  semantic : Content → Option SemanticSource
  dumpPage : PageFile → String
  /-- The path of the project. -/
  root : String

/-! ## Paths -/

/-- `Path(target).parts`. -/
def pathParts (target : String) : List String :=
  ((target.toList.splitOn '/').map String.ofList).filter fun part => part ≠ "" && part ≠ "."

/-- `scope_from_path`. -/
def scopeFromPath (target : String) : Reads KnowledgeScope :=
  match (pathParts target).dropWhile (· ≠ "knowledge") with
  | [] => raise s!"{target}: not under a 'knowledge/' directory; cannot derive scope"
  | _ :: below =>
      match below.headD "" with
      | "global" => .ok .shared
      | "user" => .ok .user
      | segment => raise s!"{target}: unknown scope segment {pyRepr segment}"

/-- `slug_from_path`: the file name without its suffix. -/
def slugFromPath (target : String) : String :=
  let name := ((pathParts target).getLastD "").toList
  match name.reverse.dropWhile (· ≠ '.') with
  | _ :: stem =>
    String.ofList (if stem = [] || name.getLast? = some '.' then name else stem.reverse)
  | [] => String.ofList name

/-! ## The indexes -/

/-- The entities a source exposes, by their full names. -/
def SemanticSource.entityNames (s : SemanticSource) : List String :=
  let base := s.connection ++ "." ++ s.name
  base :: (s.columns.map (·.name) ++ s.measures.map (·.name) ++ s.dimensions.map (·.name)).map
    fun member => base ++ "." ++ member

/-- `_entity_index`: the entities of the sources the run leaves. -/
def entityIndex (lib : PageLib) (report : Report) (accepted : AcceptedStore) : List String :=
  let pruned := (report.filter fun e =>
    e.decision = .prune && startsWith e.target "semantics/").map fun e =>
      lib.py.str (Dict.getD (e.existing.getD []) "name" .null)
  let contents := (finalSources lib.py accepted report).filter fun s => s.1 ∉ pruned
  (contents.filterMap fun s => lib.semantic s.2).flatMap (·.entityNames)

/-- The slugs of the pages, by scope. -/
abbrev PageIndex := List (KnowledgeScope × String)

/-- `_page_index`: the pages on disk that the run does not prune, and those it adds. -/
def pageIndex (pages : List PageFile) (report : Report) : Reads PageIndex := do
  let pruned := (report.filter fun e => e.decision = .prune).map (·.target)
  let kept := pages.filter fun p => p.target ∉ pruned
  let added ← (report.filter fun e => e.decision = .add && startsWith e.target "knowledge/").mapM
    fun e => do return (← scopeFromPath e.target, slugFromPath e.target)
  return kept.map (fun p => (p.scope, p.id)) ++ added

/-- `is_visible`: a shared page refers to shared pages, a user's page to both kinds. -/
def PageIndex.isVisible (index : PageIndex) (slug : String) (scope : KnowledgeScope) : Bool :=
  (KnowledgeScope.shared, slug) ∈ index || scope = .user && (KnowledgeScope.user, slug) ∈ index

/-! ## The check -/

/-- `stale_sl_refs`. -/
def staleSlRefs (page : PageFile) (entities : List String) : List String :=
  page.slRefs.filter fun ref => ref ∉ entities

/-- `stale_refs`. -/
def staleRefs (page : PageFile) (index : PageIndex) : List String :=
  page.refs.filter fun ref => !index.isVisible ref page.scope

/-- `pruned_page`. -/
def prunedPage (page : PageFile) (staleSl stale : List String) : PageFile :=
  { page with
    slRefs := page.slRefs.filter fun ref => ref ∉ staleSl
    refs := page.refs.filter fun ref => ref ∉ stale
    lastValidatedAt := none }

/-- `_anchored_fingerprints`. -/
def anchoredFingerprints (page : PageFile) (staleSl : List String) : List String :=
  staleSl.foldl (fun fps ref =>
    match Dict.get page.boundFingerprints ref with
    | some fp => if fp ∈ fps then fps else fps ++ [fp]
    | none => fps) []

/-- `_prune_entry`. -/
def pageEntry (lib : PageLib) (page : PageFile) (staleSl stale : List String) : Entry where
  decision := .edit
  target := page.target
  proposal :=
    { target := lib.root ++ "/" ++ page.target
      op := .edit
      content := [("body", .str (lib.dumpPage (prunedPage page staleSl stale)))]
      confidence := .one
      anchoredTo := anchoredFingerprints page staleSl }
  existing := some [("body", .str page.text)]
  existingProvenance := some page.provenance
  recommendedAction := some
    ("referenced entity disappeared at ingest, remove " ++ ", ".intercalate (staleSl ++ stale))

/-- `_RESTAMP_AFTER`, one day. -/
def restampAfter : ℤ := 86400000000

/-- `_needs_restamp`. -/
def PageFile.needsRestamp (page : PageFile) (now : ℤ) : Bool :=
  match page.lastValidatedAt with
  | none => true
  | some last => restampAfter < now - last

/-- What the check makes of a page. -/
inductive PageOutcome where
  | left | validated | stale (entry : Entry)

/-- `PageReferenceCheck`. -/
structure PageCheck where
  entries : List Entry
  validated : List PageFile

section Check

variable (lib : PageLib) (now : ℤ)

/-- One page of `check`. -/
def checkPage (report : Report) (entities : List String) (index : PageIndex) (page : PageFile) :
    PageOutcome :=
  let stamped := if page.needsRestamp now then PageOutcome.validated else .left
  let decisions := (report.filter fun e => e.target = page.target).map (·.decision)
  if decisions.any (· ≠ .noOp) || page.frozen then .left
  else if decisions ≠ [] then stamped
  else
    let staleSl := staleSlRefs page entities
    let stale := staleRefs page index
    if staleSl.isEmpty && stale.isEmpty then stamped
    else .stale (pageEntry lib page staleSl stale)

/-- `PageReferenceChecker.check`; without a `knowledge` directory there is nothing to check. -/
def checkPages (report : Report) (accepted : AcceptedStore) : Option PageFiles → Reads PageCheck
  | none => .ok ⟨[], []⟩
  | some pages => do
      let entities := entityIndex lib report accepted
      let index ← pageIndex pages.list report
      let outcome := checkPage lib now report entities index
      return {
        entries := pages.list.filterMap fun p =>
          match outcome p with
          | .stale e => some e
          | _ => none
        validated := pages.list.filter fun p =>
          match outcome p with
          | .validated => true
          | _ => false }

end Check

/-! ## The emitted report -/

/-- What a run calls besides. -/
structure EmitLib extends IngestLib where
  semantic : Content → Option SemanticSource
  dumpPage : PageFile → String
  root : String
  /-- A content as YAML. -/
  dumpYaml : Content → String

def EmitLib.pageLib (lib : EmitLib) : PageLib := ⟨lib.py, lib.semantic, lib.dumpPage, lib.root⟩

/-- What a run reads of the project besides the accepted store. -/
structure ProjectFiles where
  bindings : List BindingFile
  assertions : List Assertion := []
  pages : Option PageFiles := none

/-- `_emit` up to the report that is emitted. The gate after it lets the run pass or raises. -/
def emitReport (lib : EmitLib) (now : ℤ) (policy : AutoApplyConfig) (drafter : ReconcileDrafter)
    (accepted : AcceptedStore) (files : ProjectFiles) (evidence : List EvidenceItem) :
    Reads Report := do
  let report ← ingest lib.toIngestLib policy drafter accepted files.bindings files.assertions
    evidence
  let check ← checkPages lib.pageLib now report accepted files.pages
  return report ++ check.entries

/-! ## Diffs -/

/-- `EmittedDiff`; the patch, which only a reviewer reads, is left out. -/
structure EmittedDiff where
  target : String
  op : ProposalOp
  before : Option String
  after : Option String
  anchoredTo : List String
  provenance : Provenance
  confidence : Confidence
  autoApply : Bool
  draftedBy : DraftedBy

/-- `_OP_FOR_DECISION`. -/
def Decision.op : Decision → Option ProposalOp
  | add => some .add
  | edit => some .edit
  | prune => some .prune
  | noOp | contradiction => none

/-- `_render`. -/
def renderContent (lib : EmitLib) (target : String) : Option Content → String
  | none => ""
  | some content =>
      if ".md".toList.isSuffixOf target.toList then lib.py.str (Dict.getD content "body" (.str ""))
      else lib.dumpYaml content

/-- `_diff`, where the decision is one that changes a file. -/
def Entry.diff (lib : EmitLib) (e : Entry) : Option EmittedDiff :=
  e.decision.op.map fun op =>
    { target := e.target
      op := op
      before := if op = .add then none else some (renderContent lib e.target e.existing)
      after := if op = .prune then none
        else some (renderContent lib e.target (some e.proposal.content))
      anchoredTo := e.proposal.anchoredTo
      provenance := e.proposal.provenance
      confidence := e.proposal.confidence
      autoApply := e.autoApply
      draftedBy := e.proposal.draftedBy }

/-- The diffs of `DiffEmitter.emit`. -/
def emitDiffs (lib : EmitLib) (report : Report) : List EmittedDiff := report.filterMap (·.diff lib)

/-- The files of a project and their texts. -/
abbrev Tree := String → Option String

/-- What a diff leaves at its target. -/
def EmittedDiff.outcome (d : EmittedDiff) : Option String :=
  if d.op = .prune then none else some (d.after.getD "")

/-- One diff of `write_emitted_diffs`. -/
def Tree.write (tree : Tree) (d : EmittedDiff) : Tree := fun f =>
  if f = d.target then d.outcome else tree f

/-- `write_emitted_diffs`. -/
def writeEmittedDiffs (tree : Tree) (diffs : List EmittedDiff) : Tree := diffs.foldl Tree.write tree

end Canonic
