import Canonic.Ingestion.Candidates

set_option autoImplicit false

/-! # The reconciliation engine

`ingestion/reconciliation.py`: the proposals of a run are decided against the accepted files.
Proposals at one target are decided together; knowledge pages are rendered against the sources
those decisions leave, contract candidates are decided last, and accepted facts that nothing
addressed are pruned. `refine` then lets a drafter settle the contradictions of a run.

Nothing here writes a file. Reading open dictionaries can raise, and a run that raises has no
report. -/

namespace Canonic

/-- `AutoApplyConfig`: which entries may be applied without review. -/
structure AutoApplyConfig where
  enabled : Bool := false
  minConfidence : Confidence
  maxProvenance : Provenance := .inferred
  never : List String := ["grain", "joins", "measures"]

/-- A page draft, rendered. -/
structure RenderedPage where
  /-- The text of the page's file. -/
  body : String
  fingerprint : String
  unresolved : List String

/-- What reconciliation uses of the libraries around it. The rendering of a page is a parameter:
from the target and the evidence of a draft, and the sources the run leaves. -/
structure ReconcileLib where
  py : PyLib
  render : String → Json → Dict Content → Reads RenderedPage

/-! ## Fingerprints and signatures -/

/-- A field of `content["meta"]`, where that is a dictionary and the field is not empty. -/
def metaText (py : PyLib) (content : Content) (field : String) : Option String :=
  match content.get "meta" with
  | some (.obj fields) =>
      match Dict.get fields field with
      | some value => if value.truthy then some (py.str value) else none
      | none => none
  | _ => none

/-- `_proposal_fingerprint`. -/
def proposalFingerprint (py : PyLib) (p : Proposal) : Option String :=
  match metaText py p.content "source_fingerprint" with
  | some fp => some fp
  | none => p.anchoredTo.head?

/-- `proposal_definition_fingerprint`. -/
def proposalDefinitionFingerprint (py : PyLib) (p : Proposal) : Option String :=
  metaText py p.content "definition_fingerprint"

/-- `_signature`: two proposals of one target are the same when they share it. -/
def signature (py : PyLib) (p : Proposal) : String :=
  match proposalFingerprint py p with
  | some fp =>
      let defined := (proposalDefinitionFingerprint py p).getD "None"
      s!"fp:{fp}|def:{defined}"
  | none => "content:" ++ py.dumps p.content

/-- `_fingerprints_match`. -/
def fingerprintsMatch (py : PyLib) (existing : ExistingFact) (p : Proposal) : Bool :=
  match proposalFingerprint py p with
  | none => false
  | some fp =>
      if existing.sourceFingerprint = some fp then
        match proposalDefinitionFingerprint py p, existing.definitionFingerprint with
        | some proposed, some accepted => proposed == accepted
        | _, _ => true
      else false

/-! ## Column types -/

/-- `types[name] = type`, the names compared as Python does. -/
def setType (types : List (Json × Json)) (name type : Json) : List (Json × Json) :=
  if types.any fun t => Json.pyEq t.1 name then
    types.map fun t => if Json.pyEq t.1 name then (t.1, type) else t
  else types ++ [(name, type)]

/-- The columns that carry both a name and a type. -/
def typedColumns (columns : List Json) : List (Json × Json) :=
  columns.filterMap fun c =>
    match c with
    | .obj fields =>
        match Dict.get fields "name", Dict.get fields "type" with
        | some name, some type => some (name, type)
        | _, _ => none
    | _ => none

/-- `_column_types`. -/
def columnTypes (content : Content) : Reads (List (Json × Json)) :=
  match content.get "columns" with
  | some (.arr columns) =>
      (typedColumns columns).foldlM (fun types c => do
        return setType types (← c.1.hashed) c.2) []
  | _ => .ok []

/-- Whether a column of `types` has another type in `winner`. -/
def typesDiffer (winner types : List (Json × Json)) : Bool :=
  types.any fun t =>
    match winner.find? fun w => Json.pyEq w.1 t.1 with
    | some w => !Json.pyEq w.2 t.2
    | none => false

/-- `_has_type_conflict`. -/
def hasTypeConflict (winner : Proposal) (others : List Proposal) : Reads Bool := do
  let winnerTypes ← columnTypes winner.content
  if winnerTypes.isEmpty then return false
  else check winnerTypes others
where
  check (winnerTypes : List (Json × Json)) : List Proposal → Reads Bool
    | [] => .ok false
    | other :: rest => do
        let types ← columnTypes other.content
        if typesDiffer winnerTypes types then return true else check winnerTypes rest

/-! ## The auto-apply policy -/

/-- `value not in (None, [], {}, "")`. -/
def isSet (value : Json) : Bool :=
  !(value == .null || value == .arr [] || value == .obj [] || value == .str "")

/-- `_touches_never_field`. -/
def touchesNeverField (p : Proposal) (existing : Option ExistingFact) (never : List String) :
    Bool :=
  never.any fun field =>
    match existing with
    | none => isSet (Dict.getD p.content field .null)
    | some f => !Json.pyEqOpt (Dict.get f.content field) (Dict.get p.content field)

/-- `_auto_apply_eligible`, for a decision that adds or edits. -/
def autoApplyEligible (policy : AutoApplyConfig) (p : Proposal) (existing : Option ExistingFact) :
    Bool :=
  policy.enabled && decide (policy.minConfidence.val ≤ p.confidence.val) &&
    decide (p.provenance.tier ≤ policy.maxProvenance.tier) &&
    !touchesNeverField p existing policy.never

/-! ## One proposal against its accepted fact -/

/-- An entry that records the accepted fact. -/
def Entry.against (decision : Decision) (p : Proposal) (existing : ExistingFact) : Entry where
  decision := decision
  target := p.target
  proposal := p
  existing := some existing.content
  existingProvenance := some existing.provenance

/-- `_flag_answer_outcome`: outcome evidence is always left to a reviewer. -/
def flagAnswerOutcome (p : Proposal) (existing : Option ExistingFact) : Entry where
  decision := .contradiction
  target := p.target
  proposal := p
  existing := existing.map (·.content)
  existingProvenance := existing.map (·.provenance)
  existingFrozen := existing.elim false (·.frozen)
  recommendedAction := some <|
    match existing with
    | none => "outcome evidence recorded but the target binding no longer exists; resolve manually"
    | some f =>
        if f.frozen then
          "binding is frozen; outcome evidence flagged for review — unfreeze and re-ingest to " ++
            "accept a fix"
        else s!"recurring wrong_definition outcomes flagged against {p.target}; fix the " ++
          "definition, promote a better binding, or dismiss as noise"

/-- A key and a value, from one element of a list that `dict` reads. -/
def dictItem : Json → Reads (String × Json)
  | .arr [.str key, value] => .ok (key, value)
  | .str text =>
      match text.toList with
      | [a, b] => .ok (String.singleton a, .str (String.singleton b))
      | _ => raise "ValueError: dictionary update sequence element"
  | _ => raise "ValueError: dictionary update sequence element"

/-- `dict(value)`, with texts as keys. -/
def asDict : Json → Reads Content
  | .obj fields => .ok fields
  | .arr items => items.foldlM (fun d x => do
      let (key, value) ← dictItem x
      return Dict.set d key value) []
  | .str text =>
    if text = "" then .ok [] else raise "ValueError: dictionary update sequence element"
  | _ => raise "TypeError: object is not iterable"

/-- `list(content.get("deprecated_alternatives", []) or [])`. -/
def deprecatedAlternatives (content : Content) : Reads (List Json) :=
  let value := Dict.getD content "deprecated_alternatives" (.arr [])
  if value.truthy then value.loop else .ok []

/-- `str(da.get("ref", ""))`. -/
def refOf (py : PyLib) (da : Json) : Reads String :=
  match da with
  | .obj fields => .ok (py.str (Dict.getD fields "ref" (.str "")))
  | _ => raise "AttributeError: object has no attribute 'get'"

/-- Whether one of the recorded alternatives, up to the first that does, has the reference. -/
def hasRef (py : PyLib) (ref : String) : List Json → Reads Bool
  | [] => .ok false
  | da :: rest => do
      if (← refOf py da) = ref then return true else hasRef py ref rest

/-- `merged_proposal`: the accepted content with the entry appended. -/
def mergedProposal (p : Proposal) (existing : ExistingFact) (das : List Json)
    (fragment : Content) : Proposal :=
  { p with
    content := Dict.set existing.content "deprecated_alternatives" (.arr (das ++ [.obj fragment]))
    op := .edit }

/-- `_merge_deprecated_alternative`. -/
def mergeDeprecatedAlternative (py : PyLib) (policy : AutoApplyConfig) (p : Proposal)
    (existing : ExistingFact) : Reads Entry :=
  if existing.frozen then
    return { Entry.against .contradiction p existing with
      existingFrozen := true
      recommendedAction := some
        "binding is frozen; deprecated-alternative evidence recorded but not merged" }
  else do
    let fragment ← asDict (← Dict.item p.content daSentinel)
    let das ← deprecatedAlternatives existing.content
    if ← hasRef py (py.str (Dict.getD fragment "ref" (.str ""))) das then
      return Entry.against .noOp p existing
    else
      let merged := mergedProposal p existing das fragment
      return { Entry.against .edit merged existing with
        autoApply := autoApplyEligible policy merged (some existing) }

/-- `_reconcile_one`: the decision table. -/
def reconcileOne (py : PyLib) (policy : AutoApplyConfig) (p : Proposal)
    (existing : Option ExistingFact) : Reads Entry :=
  if Dict.has p.content answerOutcomeSentinel then return flagAnswerOutcome p existing
  else
    match existing with
    | none => return {
        decision := .add, target := p.target, proposal := p
        autoApply := autoApplyEligible policy p none }
    | some f =>
        -- evidence that says what the fact says changes nothing, also where it is frozen
        if fingerprintsMatch py f p then return Entry.against .noOp p f
        else if Dict.has p.content daSentinel then mergeDeprecatedAlternative py policy p f
        else if f.frozen then
          return { Entry.against .contradiction p f with
            existingFrozen := true
            recommendedAction := some ("fact is frozen; conflicting evidence flagged — " ++
              "unfreeze and re-ingest to accept the change") }
        else if p.provenance.tier < f.provenance.tier then
          return { Entry.against .contradiction p f with
            recommendedAction := some (s!"existing {f.provenance.value} fact outranks the " ++
              "inferred proposal; resolve manually") }
        else
          return { Entry.against .edit p f with
            lowConfidence := decide (p.confidence.val < policy.minConfidence.val)
            autoApply := autoApplyEligible policy p (some f) }

/-! ## Groups -/

/-- One side of a disagreement. -/
def flaggedSide (target action : String) (p : Proposal) : Entry where
  decision := .contradiction
  target := target
  proposal := p
  recommendedAction := some action

/-- `_contradicting_sources`: every side of a disagreement is flagged. -/
def contradictingSources (target : String) (group : List Proposal) (action : String) :
    List Entry :=
  group.map (flaggedSide target action)

/-- The curation rank of a proposal. -/
def Proposal.rank (p : Proposal) : Nat := p.acquisitionTier.curationRank

/-- `max_rank`. -/
def maxRank (group : List Proposal) : Nat := (group.map (·.rank)).foldl max 0

/-- The proposals of the best curation rank. -/
def winnersOf (group : List Proposal) : List Proposal :=
  group.filter fun p => p.rank == maxRank group

/-- The proposals of a lower one. -/
def losersOf (group : List Proposal) : List Proposal :=
  group.filter fun p => p.rank < maxRank group

/-- `len({_signature(p) for p in group})`. -/
def signatureCount (py : PyLib) (group : List Proposal) : Nat :=
  (group.map (signature py)).dedup.length

section Engine

variable (py : PyLib) (policy : AutoApplyConfig) (accepted : AcceptedStore)

/-- `_resolve_group`: a group that disagrees, decided by curation rank where that settles it. -/
def resolveGroup (target : String) (group : List Proposal) : Reads (List Entry) :=
  let flagged (action : String) := contradictingSources target group action
  match winnersOf group with
  | winner :: _ =>
      if !(losersOf group).isEmpty && signatureCount py (winnersOf group) == 1 then do
        if ← hasTypeConflict winner (losersOf group) then
          return flagged (s!"modeling and introspection disagree on column types for {target}; " ++
            "resolve manually")
        else return [← reconcileOne py policy winner (accepted.get target)]
      else return flagged s!"multiple sources disagree on {target}; resolve manually"
  | [] => return flagged s!"multiple sources disagree on {target}; resolve manually"

/-- One group of `_decide_groups`. -/
def decideGroup (target : String) (group : List Proposal) : Reads (List Entry) :=
  if 1 < signatureCount py group then resolveGroup py policy accepted target group
  else
    match group with
    | p :: _ => return [← reconcileOne py policy p (accepted.get target)]
    | [] => return []

/-- `_decide_groups`. -/
def decideGroups (groups : Dict (List Proposal)) : Reads (List Entry) := do
  return (← groups.mapM fun g => decideGroup py policy accepted g.1 g.2).flatten

/-- `_prune_disappeared`. -/
def pruneDisappeared (addressed : List String) : List Entry :=
  let gone := accepted.facts.filter fun f =>
    decide (f.target ∉ addressed) && !f.frozen && f.provenance == .inferred
  (gone.insertionSort fun a b => a.target ≤ b.target).map fun f =>
    { decision := .prune, target := f.target,
      proposal := { target := f.target, op := .prune, content := [], confidence := .one },
      existing := some f.content, existingProvenance := some f.provenance,
      recommendedAction := some "source evidence disappeared; prune or mark stale" }

end Engine

/-! ## A run -/

def isPageDraft (p : Proposal) : Bool := Dict.has p.content pageDraftSentinel

/-- A proposal that is neither a candidate nor a page draft. -/
def isOrdinary (p : Proposal) : Bool := !isCandidate p && !isPageDraft p

/-- `_render`: the page takes the place of the draft's content. -/
def renderPageDraft (lib : ReconcileLib) (sources : Dict Content) (draft : Proposal) :
    Reads Proposal := do
  let page ← lib.render draft.target (← Dict.item draft.content pageDraftSentinel) sources
  let unresolved :=
    if page.unresolved.isEmpty then []
    else [("unresolved_topic_refs", Json.arr (page.unresolved.map .str))]
  return { draft with
    content := [("body", .str page.body),
      ("meta", .obj (("source_fingerprint", .str page.fingerprint) :: unresolved))] }

/-- `render_page_drafts`. -/
def renderPageDrafts (lib : ReconcileLib) (accepted : AcceptedStore) (entries : List Entry)
    (drafts : List Proposal) : Reads (List Proposal) :=
  drafts.mapM (renderPageDraft lib (finalSources lib.py accepted entries))

/-- `_group_by_target`. -/
def groupByTarget (proposals : List Proposal) : Dict (List Proposal) :=
  Dict.groupBy (·.target) proposals

/-- `ReconciliationEngine.reconcile`. -/
def reconcile (lib : ReconcileLib) (policy : AutoApplyConfig) (accepted : AcceptedStore)
    (proposals : List Proposal) : Reads Report := do
  let candidates := proposals.filter isCandidate
  let drafts := proposals.filter isPageDraft
  let groups := groupByTarget (proposals.filter isOrdinary)
  let decided ← decideGroups lib.py policy accepted groups
  let pages ← renderPageDrafts lib accepted decided drafts
  let pageGroups := groupByTarget pages
  let pageDecided ← decideGroups lib.py policy accepted pageGroups
  let entries := decided ++ pageDecided
  let resolved ← resolveCandidates lib.py accepted entries
    (fun p => reconcileOne lib.py policy p none) candidates
  let addressed := groups.map (·.1) ++ pageGroups.map (·.1) ++ candidates.map (·.target)
  return entries ++ resolved ++ pruneDisappeared accepted addressed

/-! ## Refinement -/

/-- A `ReconcileDrafter`: the index of the winner it drafts for the proposals of a target, if any.
Each target of a run is drafted once, so a function of the target and the proposals covers a
drafter with a state of its own. -/
abbrev ReconcileDrafter := String → List Proposal → Reads (Option Int)

/-- `NullReconcileDrafter`. -/
def nullDrafter : ReconcileDrafter := fun _ _ => .ok none

/-- The proposal at the index a drafter returns, where it is in range. -/
def drafted (proposals : List Proposal) : Option Int → Option Proposal
  | some (.ofNat i) => proposals[i]?
  | _ => none

section Refine

variable (py : PyLib) (policy : AutoApplyConfig) (drafter : ReconcileDrafter)
  (accepted : AcceptedStore)

/-- The replacement of one group of contradictions, if the drafter settles it. -/
def replacement (group : String × List Entry) : Reads (Option (String × Entry)) :=
  if group.2.length < 2 then return none
  else do
    let proposals := group.2.map (·.proposal)
    match drafted proposals (← drafter group.1 proposals) with
    | none => return none
    | some winning =>
        return some (group.1, ← reconcileOne py policy winning (accepted.get group.1))

/-- The report with each settled group replaced, at the place of its first entry. -/
def replaceSettled (replacements : Dict Entry) : List String → List Entry → List Entry
  | _, [] => []
  | emitted, e :: rest =>
      if e.decision = .contradiction then
        match replacements.get e.target with
        | some r =>
            if e.target ∈ emitted then replaceSettled replacements emitted rest
            else r :: replaceSettled replacements (e.target :: emitted) rest
        | none => e :: replaceSettled replacements emitted rest
      else e :: replaceSettled replacements emitted rest

/-- `refine`. -/
def refine (report : Report) : Reads Report := do
  let groups := Dict.groupBy (·.target) (report.filter fun e => e.decision = .contradiction)
  let replacements ← groups.mapM (replacement py policy drafter accepted)
  return replaceSettled (replacements.filterMap id) [] report

end Refine

end Canonic
