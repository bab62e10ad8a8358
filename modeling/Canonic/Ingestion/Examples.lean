import Canonic.Ingestion.Models

set_option autoImplicit false

/-! # Usage examples on metric bindings

`ingestion/examples.py`. After reconciliation, `enrich` recomputes the examples of every binding
and writes them into the report: into the entry at the binding's file when that one adds or edits
it, else as an edit of its own when they changed.

The report is indexed by target on the way, which keeps the *last* entry of each target, and it is
read back by target. A report with several entries at one target, or with an entry at a
binding's file that neither adds nor edits, is therefore not always given back as it was;
`enrich_preserves_iff` says exactly when it is. -/

namespace Canonic

/-! ## Bindings and examples as files -/

inductive ExampleOriginKind where
  | assertion | observedQuery | usageEvidence
  deriving DecidableEq, Repr

def ExampleOriginKind.value : ExampleOriginKind → String
  | assertion => "assertion" | observedQuery => "observed_query"
  | usageEvidence => "usage_evidence"

structure ExampleQuery where
  metrics : List String
  dimensions : List String := []
  filters : List String := []
  deriving DecidableEq, Repr

/-- One usage-backed example query of a binding. -/
structure Example where
  query : ExampleQuery
  origin : String
  frequency : Option Int := none
  deriving DecidableEq, Repr

/-- `Example.make_origin`; an absent reference is `null`. -/
def makeOrigin (lib : PyLib) (kind : ExampleOriginKind) (ref : Json) : String :=
  if kind = .observedQuery then kind.value
  else if ref.truthy then kind.value ++ ":" ++ lib.str ref else kind.value

/-- `example.model_dump(mode="json")`. -/
def Example.dump (e : Example) : Json :=
  .obj
    [("query", .obj [("metrics", .texts e.query.metrics), ("dimensions", .texts e.query.dimensions),
       ("filters", .texts e.query.filters)]),
     ("origin", .str e.origin),
     ("frequency", e.frequency.elim .null fun n => .num n)]

structure DeprecatedAlternative where
  source : String
  ref : String
  reason : String
  deriving DecidableEq, Repr

def DeprecatedAlternative.dump (d : DeprecatedAlternative) : Json :=
  .obj [("source", .str d.source), ("ref", .str d.ref), ("reason", .str d.reason)]

/-- A metric binding with the fields its file carries besides what the compiler reads. -/
structure BindingFile where
  binding : MetricBinding
  owner : Option String := none
  /-- The canonical reference, dumped. -/
  canonical : Json
  provenance : Provenance := .humanCurated
  label : Option String := none
  deprecatedAlternatives : List DeprecatedAlternative := []
  examples : List Example := []
  knowledgeRefs : List String := []
  packSource : Json := .null

/-- `binding.model_dump(mode="json")`. -/
def BindingFile.dump (b : BindingFile) : Content :=
  [("metric", .str b.binding.metric), ("owner", .text? b.owner), ("canonical", b.canonical),
   ("provenance", .str b.provenance.value), ("label", .text? b.label),
   ("aliases", .texts b.binding.aliases),
   ("deprecated_alternatives", .arr (b.deprecatedAlternatives.map (·.dump))),
   ("examples", .arr (b.examples.map (·.dump))),
   ("status", .str (if b.binding.active then "active" else "deprecated")),
   ("knowledge_refs", .texts b.knowledgeRefs), ("pack_source", b.packSource)]

/-! ## Collecting examples -/

/-- The value a field of type `list[str]` accepts. -/
def strList : Json → Except Err (List String)
  | .arr xs => xs.mapM fun
      | .str s => .ok s
      | _ => .error (.internal "Input should be a valid string")
  | _ => .error (.internal "Input should be a valid list")

/-- Whether one of the relations, up to the first that does, carries the metric. -/
def mentions (metricsForRelation : String → List String) (metric : String) :
    List Json → Except Err Bool
  | [] => .ok false
  | .str rel :: rest =>
      if metric ∈ metricsForRelation (lastComponent rel) then .ok true
      else mentions metricsForRelation metric rest
  | _ :: _ => .error (.internal "object has no attribute 'split'")

/-- The relations an evidence item lists, read as the loop over them does. -/
def iterated (value : Json) : Except Err (List Json) :=
  match value.iter with
  | some xs => .ok xs
  | none => .error (.internal "object is not iterable")

/-- `payload.get("frequency") or 0`, as the example accepts it. -/
def frequencyOf (lib : PyLib) (payload : Content) : Except Err Int :=
  let value := payload.getD "frequency" .null
  if value.truthy then
    match lib.asInt value with
    | some n => .ok n
    | none => .error (.internal "Input should be a valid integer")
  else .ok 0

/-- The observed-query and the usage examples of one evidence item. -/
def evidenceExamples (lib : PyLib) (metricsForRelation : String → List String) (metric : String)
    (item : EvidenceItem) : Except Err (List Example × List Example) :=
  if item.kind = "observed_query" then do
    let relations ← iterated (item.payload.getD "relations" (.arr []))
    if ← mentions metricsForRelation metric relations then
      let frequency ← frequencyOf lib item.payload
      return ([⟨⟨[metric], [], []⟩, makeOrigin lib .observedQuery .null, some frequency⟩], [])
    else return ([], [])
  else if item.kind = "usage_evidence" then do
    let defines ← match item.payload.getD "defines" (.obj []) with
      | .obj fields => .ok fields
      | _ => .error (.internal "object has no attribute 'get'")
    let references ← iterated (Dict.getD defines "references" (.arr []))
    if ← mentions metricsForRelation metric references then
      let frequency ← frequencyOf lib item.payload
      return ([], [⟨⟨[metric], [], []⟩,
        makeOrigin lib .usageEvidence (item.payload.getD "artifact" .null), some frequency⟩])
    else return ([], [])
  else return ([], [])

/-- The example an executable assertion on the metric gives. -/
def assertionExample (lib : PyLib) (metric : String) (aliases : List String) (a : Assertion) :
    Except Err (List Example) :=
  if a.isExecutable && (a.metrics lib).any (· ∈ metric :: aliases) then do
    let metrics ← strList (a.query.getD "metrics" (.texts [metric]))
    let dimensions ← strList (a.query.getD "dimensions" (.arr []))
    let filters ← strList (a.query.getD "filters" (.arr []))
    return [⟨⟨metrics, dimensions, filters⟩, makeOrigin lib .assertion (.str a.id), none⟩]
  else return []

/-- Most frequent first, equal ones in the order they came. -/
def byFrequency (examples : List Example) : List Example :=
  examples.insertionSort fun a b => b.frequency.getD 0 ≤ a.frequency.getD 0

/-- `collect_examples`: at most three examples, observed queries before assertions before usage. -/
def collectExamples (lib : PyLib) (metricsForRelation : String → List String)
    (assertions : List Assertion) (evidence : List EvidenceItem) (metric : String)
    (aliases : List String) : Except Err (List Example) := do
  let found ← evidence.mapM (evidenceExamples lib metricsForRelation metric)
  let asserted ← assertions.mapM (assertionExample lib metric aliases)
  let observed := byFrequency (found.flatMap (·.1))
  let usage := byFrequency (found.flatMap (·.2))
  return (observed ++ asserted.flatten ++ usage).take 3

/-! ## Enriching the report -/

/-- The metrics bound to each source on disk. -/
def sourceToMetrics (bindings : List BindingFile) : Dict (List String) :=
  bindings.foldl (fun d b =>
    match b.binding.canonical.of.sourceBound with
    | some (source, _) =>
        if source = "" then d else d.set source (d.getD source [] ++ [b.binding.metric])
    | none => d) []

/-- The examples of one binding, recomputed. -/
def examplesOf (lib : PyLib) (bindings : List BindingFile) (assertions : List Assertion)
    (evidence : List EvidenceItem) (b : BindingFile) : Except Err (List Example) :=
  collectExamples lib (fun rel => (sourceToMetrics bindings).getD rel []) assertions evidence
    b.binding.metric b.binding.aliases

/-- An entry with other examples in the content it proposes. -/
def Entry.withExamples (e : Entry) (examples : List Example) : Entry :=
  { e with
    proposal := { e.proposal with
      content := Dict.set e.proposal.content "examples" (.arr (examples.map (·.dump))) } }

/-- Whether the examples on disk are the recomputed ones. -/
def BindingFile.isCurrent (b : BindingFile) (examples : List Example) : Bool :=
  Json.pyEq (.arr (examples.map (·.dump))) (.arr (b.examples.map (·.dump)))

/-- The edit that is made for the examples alone. -/
def examplesEdit (lib : PyLib) (b : BindingFile) (examples : List Example) : Entry :=
  { decision := .edit
    target := bindingTarget lib b.binding.metric
    proposal :=
      { target := bindingTarget lib b.binding.metric
        op := .edit
        content := Dict.set b.dump "examples" (.arr (examples.map (·.dump)))
        confidence := .one }
    existing := some b.dump
    existingProvenance := some b.provenance }

/-- What becomes of the entry at a binding's file: the entry that replaces it, if one does. -/
def revise (lib : PyLib) (b : BindingFile) (examples : List Example) (entry : Option Entry) :
    Option Entry :=
  match entry with
  | some e =>
      if e.decision.isAdding then some (e.withExamples examples)
      else if b.isCurrent examples then none else some (examplesEdit lib b examples)
  | none => if b.isCurrent examples then none else some (examplesEdit lib b examples)

/-- The report indexed by target: the last entry of each. -/
def byTarget (report : Report) : Dict Entry := report.foldl (fun d e => d.set e.target e) []

/-- One binding of the enrichment loop. -/
def enrichBinding (lib : PyLib) (examples : BindingFile → Except Err (List Example))
    (entries : Dict Entry) (updated : Dict Entry) (b : BindingFile) : Except Err (Dict Entry) := do
  let target := bindingTarget lib b.binding.metric
  let xs ← examples b
  match revise lib b xs (entries.get target) with
  | some e => return updated.set target e
  | none => return updated

/-- The entry that stands in the place of `e`. A target of the report is a key of the index, so one
of the two lookups succeeds. -/
def readBack (entries updated : Dict Entry) (e : Entry) : Entry :=
  ((updated.get e.target).or (entries.get e.target)).getD e

/-- `ExampleEnricher.enrich`. -/
def enrich (lib : PyLib) (bindings : List BindingFile) (assertions : List Assertion)
    (evidence : List EvidenceItem) (report : Report) : Except Err Report := do
  let entries := byTarget report
  let updated ← bindings.foldlM
    (enrichBinding lib (examplesOf lib bindings assertions evidence) entries) entries
  let kept := report.map (readBack entries updated)
  let new := updated.filter fun p => p.1 ∉ report.map (·.target)
  return kept ++ new.map (·.2)

/-! ## What the loop leaves in the index -/

variable {lib : PyLib}

/-- The last entry of a report at a target. -/
def lastAt (report : Report) (target : String) : Option Entry :=
  (report.filter fun e => e.target = target).getLast?

theorem mem_of_lastAt {report : Report} {t : String} {e : Entry} (h : lastAt report t = some e) :
    e ∈ report ∧ e.target = t := by
  have hmem := List.mem_of_getLast? h
  simpa using hmem

theorem exists_lastAt {report : Report} {e : Entry} (h : e ∈ report) :
    ∃ l, lastAt report e.target = some l := by
  have hne : (report.filter fun x => x.target = e.target) ≠ [] :=
    List.ne_nil_of_mem (List.mem_filter.mpr ⟨h, by simp⟩)
  exact ⟨_, List.getLast?_eq_some_getLast hne⟩

/-- The last entry of a target stands in the back of a report that has one there. -/
theorem lastAt_append {front back : Report} {t : String} {e : Entry} (he : e ∈ back)
    (ht : e.target = t) : lastAt (front ++ back) t = lastAt back t := by
  have hne : (back.filter fun x => x.target = t) ≠ [] :=
    List.ne_nil_of_mem (List.mem_filter.mpr ⟨he, by simpa using ht⟩)
  rw [lastAt, lastAt, List.filter_append, List.getLast?_append_of_ne_nil _ hne]

/-- The index holds the last entry of each target. -/
theorem byTarget_get (report : Report) (t : String) :
    (byTarget report).get t = lastAt report t := by
  induction report using List.reverseRecOn with
  | nil => rfl
  | append_singleton report e ih =>
      have hstep : byTarget (report ++ [e]) = (byTarget report).set e.target e := by
        simp [byTarget, List.foldl_append]
      rw [hstep, Dict.get_set, ih, lastAt, lastAt, List.filter_append]
      by_cases h : t = e.target
      · simp [h]
      · simp [h, Ne.symm h]

theorem byTarget_nodup (report : Report) : ((byTarget report).map (·.1)).Nodup := by
  induction report using List.reverseRecOn with
  | nil => exact List.nodup_nil
  | append_singleton report e ih =>
      have hstep : byTarget (report ++ [e]) = (byTarget report).set e.target e := by
        simp [byTarget, List.foldl_append]
      rw [hstep]
      exact Dict.nodup_set ih

/-- What one binding does to the entry at a target: `e` replaces it. -/
def Revises (lib : PyLib) (examples : BindingFile → Except Err (List Example))
    (entries : Dict Entry) (t : String) (b : BindingFile) (e : Entry) : Prop :=
  bindingTarget lib b.binding.metric = t ∧
    ∃ xs, examples b = .ok xs ∧ revise lib b xs (entries.get t) = some e

theorem enrichBinding_eq_ok {examples : BindingFile → Except Err (List Example)}
    {entries updated updated' : Dict Entry} {b : BindingFile}
    (h : enrichBinding lib examples entries updated b = .ok updated') :
    (updated' = updated ∧ ∀ t e, ¬ Revises lib examples entries t b e) ∨
      ∃ e, Revises lib examples entries (bindingTarget lib b.binding.metric) b e ∧
        updated' = updated.set (bindingTarget lib b.binding.metric) e := by
  obtain ⟨xs, hxs, h⟩ := bind_eq_ok.mp h
  cases hr : revise lib b xs (entries.get (bindingTarget lib b.binding.metric)) with
  | some e =>
      rw [hr] at h
      exact Or.inr ⟨e, ⟨rfl, xs, hxs, hr⟩, (pure_eq_ok.mp h).symm⟩
  | none =>
      rw [hr] at h
      refine Or.inl ⟨(pure_eq_ok.mp h).symm, ?_⟩
      rintro t e ⟨rfl, ys, hys, hrev⟩
      obtain rfl := Except.ok.inj (hxs.symm.trans hys)
      rw [hr] at hrev
      simp at hrev

/-- After the loop a target holds what one of its bindings revised it to, or, when none of them
revises it, what it held before. -/
theorem enrichBindings_get {examples : BindingFile → Except Err (List Example)}
    {entries updated updated' : Dict Entry} {bs : List BindingFile}
    (h : bs.foldlM (enrichBinding lib examples entries) updated = .ok updated') (t : String) :
    ((∀ b ∈ bs, ∀ e, ¬ Revises lib examples entries t b e) ∧ updated'.get t = updated.get t) ∨
      ∃ b ∈ bs, ∃ e, Revises lib examples entries t b e ∧ updated'.get t = some e := by
  induction bs generalizing updated with
  | nil =>
      simp only [List.foldlM_nil, pure_eq_ok] at h
      exact Or.inl ⟨by simp, by rw [h]⟩
  | cons b bs ih =>
      obtain ⟨mid, hmid, hrest⟩ := foldlM_cons_eq_ok.mp h
      rcases ih hrest with ⟨hnone, hget⟩ | ⟨b', hb', e, hrev, hget⟩
      · -- none of the later bindings: what `b` left is final
        rcases enrichBinding_eq_ok hmid with ⟨rfl, hquiet⟩ | ⟨e, hrev, rfl⟩
        · refine Or.inl ⟨?_, hget⟩
          intro b' hb' e
          rcases List.mem_cons.mp hb' with rfl | hb'
          · exact hquiet t e
          · exact hnone b' hb' e
        · by_cases htb : t = bindingTarget lib b.binding.metric
          · refine Or.inr ⟨b, List.mem_cons_self, e, htb ▸ hrev, ?_⟩
            rw [hget, Dict.get_set, if_pos htb]
          · refine Or.inl ⟨?_, by rw [hget, Dict.get_set, if_neg htb]⟩
            intro b' hb' e'
            rcases List.mem_cons.mp hb' with rfl | hb'
            · exact fun hr => htb hr.1.symm
            · exact hnone b' hb' e'
      · exact Or.inr ⟨b', List.mem_cons_of_mem b hb', e, hrev, hget⟩

theorem enrichBindings_nodup {examples : BindingFile → Except Err (List Example)}
    {entries updated updated' : Dict Entry} {bs : List BindingFile}
    (h : bs.foldlM (enrichBinding lib examples entries) updated = .ok updated')
    (hnd : (updated.map (·.1)).Nodup) : (updated'.map (·.1)).Nodup := by
  refine foldlM_induction (P := fun u => (u.map (·.1)).Nodup) h hnd fun u u' b _ hu hstep => ?_
  rcases enrichBinding_eq_ok hstep with ⟨rfl, -⟩ | ⟨e, -, rfl⟩
  · exact hu
  · exact Dict.nodup_set hu

/-! ## Preserving the report -/

/-- An entry without the examples it proposes. -/
def Entry.sansExamples (e : Entry) : Entry :=
  { e with
    proposal := { e.proposal with
      content := e.proposal.content.filter fun p => p.1 ≠ "examples" } }

/-- Two entries that differ in the proposed examples at most. -/
def SameButExamples (a b : Entry) : Prop := a.sansExamples = b.sansExamples

theorem sameButExamples_withExamples (e : Entry) (xs : List Example) :
    SameButExamples e (e.withExamples xs) := by
  simp only [SameButExamples, Entry.sansExamples, Entry.withExamples, Dict.filter_set]

theorem SameButExamples.decision_eq {a b : Entry} (h : SameButExamples a b) :
    a.decision = b.decision := by
  have := congrArg Entry.decision h
  exact this

/-- What may stand in the place of an entry: itself, or, for an entry that adds or edits the file
of a binding, the same with other examples. -/
def KeptAs (lib : PyLib) (bindings : List BindingFile) (e e' : Entry) : Prop :=
  e' = e ∨ e.decision.isAdding = true ∧
    e.target ∈ bindings.map (fun b => bindingTarget lib b.binding.metric) ∧ SameButExamples e e'

/-- The enriched report holds every entry in its place, followed by edits of targets that had no
entry. -/
def Preserves (lib : PyLib) (bindings : List BindingFile) (report out : Report) : Prop :=
  ∃ kept new, out = kept ++ new ∧ List.Forall₂ (KeptAs lib bindings) report kept ∧
    ∀ e ∈ new, e.decision = .edit ∧ e.target ∉ report.map (·.target)

/-- The report and the bindings do not meet in a way that enrichment disturbs. -/
structure Undisturbed (lib : PyLib) (bindings : List BindingFile) (assertions : List Assertion)
    (evidence : List EvidenceItem) (report : Report) : Prop where
  /-- A binding whose file has an entry that neither adds nor edits it has current examples. -/
  current : ∀ b ∈ bindings, ∀ l, lastAt report (bindingTarget lib b.binding.metric) = some l →
    l.decision.isAdding = true ∨
      ∀ xs, examplesOf lib bindings assertions evidence b = .ok xs → b.isCurrent xs = true
  /-- Entries at one target are alike: equal to the last of them, up to the examples when that one
  adds or edits the file of a binding. -/
  alike : ∀ e ∈ report, ∀ l, lastAt report e.target = some l →
    e = l ∨ l.decision.isAdding = true ∧
      e.target ∈ bindings.map (fun b => bindingTarget lib b.binding.metric) ∧ SameButExamples e l

theorem revise_eq_some {b : BindingFile} {xs : List Example} {entry : Option Entry} {e : Entry}
    (h : revise lib b xs entry = some e) :
    (∃ l, entry = some l ∧ l.decision.isAdding = true ∧ e = l.withExamples xs) ∨
      ((∀ l, entry = some l → l.decision.isAdding = false) ∧ b.isCurrent xs = false ∧
        e = examplesEdit lib b xs) := by
  cases entry with
  | none =>
      simp only [revise] at h
      split at h
      · simp at h
      · rename_i hcur
        exact Or.inr ⟨by simp, by simpa using hcur, (Option.some.inj h).symm⟩
  | some l =>
      simp only [revise] at h
      split at h
      · rename_i hadd
        exact Or.inl ⟨l, rfl, hadd, (Option.some.inj h).symm⟩
      · rename_i hadd
        split at h
        · simp at h
        · rename_i hcur
          refine Or.inr ⟨?_, by simpa using hcur, (Option.some.inj h).symm⟩
          intro l' hl
          rw [← Option.some.inj hl]
          simpa using hadd

/-- The entry at a binding's file, when it neither adds nor edits it, is replaced as soon as the
examples changed. -/
theorem revise_of_not_current {b : BindingFile} {xs : List Example} {l : Entry}
    (hadd : l.decision.isAdding = false) (hcur : b.isCurrent xs = false) :
    revise lib b xs (some l) = some (examplesEdit lib b xs) := by
  simp [revise, hadd, hcur]

/-- How an enriched report is made up: an entry in each place, then the edits at new targets. -/
theorem enrich_eq_ok {bindings : List BindingFile} {assertions : List Assertion}
    {evidence : List EvidenceItem} {report out : Report}
    (h : enrich lib bindings assertions evidence report = .ok out) :
    ∃ updated, bindings.foldlM (enrichBinding lib (examplesOf lib bindings assertions evidence)
        (byTarget report)) (byTarget report) = .ok updated ∧
      out = report.map (readBack (byTarget report) updated) ++
        (updated.filter fun p => p.1 ∉ report.map (·.target)).map (·.2) := by
  obtain ⟨updated, hupd, hout⟩ := bind_eq_ok.mp h
  exact ⟨updated, hupd, (pure_eq_ok.mp hout).symm⟩

section Enriched

variable {bindings : List BindingFile} {assertions : List Assertion}
  {evidence : List EvidenceItem} {report : Report} {updated : Dict Entry}

/-- The loop over the bindings, from the index of the report on, ends in `updated`. -/
def Updates (lib : PyLib) (bindings : List BindingFile) (assertions : List Assertion)
    (evidence : List EvidenceItem) (report : Report) (updated : Dict Entry) : Prop :=
  bindings.foldlM (enrichBinding lib (examplesOf lib bindings assertions evidence)
    (byTarget report)) (byTarget report) = .ok updated

/-- What stands in the place of an entry: the last entry of its target, as one of the target's
bindings revised it, if one did. -/
theorem Updates.readBack_eq (h : Updates lib bindings assertions evidence report updated)
    {e l : Entry} (hl : lastAt report e.target = some l) :
    (readBack (byTarget report) updated e = l ∧
      ∀ b ∈ bindings, ∀ e', ¬ Revises lib (examplesOf lib bindings assertions evidence)
        (byTarget report) e.target b e') ∨
    ∃ b ∈ bindings, ∃ xs, bindingTarget lib b.binding.metric = e.target ∧
      examplesOf lib bindings assertions evidence b = .ok xs ∧
      revise lib b xs (some l) = some (readBack (byTarget report) updated e) := by
  rcases enrichBindings_get h e.target with ⟨hnone, hget⟩ | ⟨b, hb, e', ⟨hbt, xs, hxs, hrev⟩, hget⟩
  · refine Or.inl ⟨?_, hnone⟩
    rw [readBack, hget, byTarget_get, hl]
    rfl
  · refine Or.inr ⟨b, hb, xs, hbt, hxs, ?_⟩
    rw [byTarget_get, hl] at hrev
    rw [hrev, readBack, hget]
    rfl

/-- An entry of the index at a target the report has not is the edit for the examples alone. -/
theorem Updates.new_pair (h : Updates lib bindings assertions evidence report updated)
    {p : String × Entry} (hp : p ∈ updated.filter fun p => p.1 ∉ report.map (·.target)) :
    p.1 ∉ report.map (·.target) ∧ p.2.target = p.1 ∧
      ∃ b ∈ bindings, ∃ xs, p.2 = examplesEdit lib b xs := by
  obtain ⟨t, e⟩ := p
  obtain ⟨hmem, hnew⟩ := List.mem_filter.mp hp
  have hnew' : t ∉ report.map (·.target) := by simpa using hnew
  have hget : updated.get t = some e :=
    Dict.get_of_mem (enrichBindings_nodup h (byTarget_nodup report)) hmem
  have hnoEntry : (byTarget report).get t = none := by
    rw [byTarget_get]
    cases hl : lastAt report t with
    | none => rfl
    | some l =>
        obtain ⟨hlm, hlt⟩ := mem_of_lastAt hl
        exact absurd (List.mem_map.mpr ⟨l, hlm, hlt⟩) hnew'
  rcases enrichBindings_get h t with ⟨-, hold⟩ | ⟨b, hb, e', ⟨hbt, xs, -, hrev⟩, hget'⟩
  · rw [hget, hnoEntry] at hold
    simp at hold
  · obtain rfl : e = e' := Option.some.inj (hget.symm.trans hget')
    rw [hnoEntry] at hrev
    rcases revise_eq_some hrev with ⟨l, hl, -⟩ | ⟨-, -, rfl⟩
    · simp at hl
    · exact ⟨hnew', hbt, b, hb, xs, rfl⟩

/-- The entries after the report are edits for the examples alone, at targets the report has not. -/
theorem Updates.new_eq (h : Updates lib bindings assertions evidence report updated) {e : Entry}
    (he : e ∈ (updated.filter fun p => p.1 ∉ report.map (·.target)).map (·.2)) :
    e.target ∉ report.map (·.target) ∧ ∃ b ∈ bindings, ∃ xs, e = examplesEdit lib b xs := by
  obtain ⟨p, hp, rfl⟩ := List.mem_map.mp he
  obtain ⟨hnew, htarget, hedit⟩ := h.new_pair hp
  exact ⟨htarget ▸ hnew, hedit⟩

theorem Updates.mem_new (h : Updates lib bindings assertions evidence report updated) {e : Entry}
    (he : e ∈ (updated.filter fun p => p.1 ∉ report.map (·.target)).map (·.2)) :
    e.decision = .edit ∧ e.target ∉ report.map (·.target) := by
  obtain ⟨hnew, b, -, xs, rfl⟩ := h.new_eq he
  exact ⟨rfl, hnew⟩

/-- The report is preserved when every place is. -/
theorem Updates.preserves_iff (h : Updates lib bindings assertions evidence report updated) :
    Preserves lib bindings report (report.map (readBack (byTarget report) updated) ++
        (updated.filter fun p => p.1 ∉ report.map (·.target)).map (·.2)) ↔
      ∀ e ∈ report, KeptAs lib bindings e (readBack (byTarget report) updated e) := by
  constructor
  · rintro ⟨kept, new, heq, hkept, -⟩
    have hlen := hkept.length_eq
    obtain ⟨rfl, -⟩ := List.append_inj heq (by rw [List.length_map, hlen])
    rw [List.forall₂_map_right_iff, List.forall₂_same] at hkept
    exact hkept
  · intro hall
    refine ⟨_, _, rfl, ?_, fun e he => h.mem_new he⟩
    rw [List.forall₂_map_right_iff, List.forall₂_same]
    exact hall

/-- Where the places are kept, an entry that neither adds nor edits is revised by no binding. -/
theorem Updates.not_revised (h : Updates lib bindings assertions evidence report updated)
    (hkept : ∀ e ∈ report, KeptAs lib bindings e (readBack (byTarget report) updated e)) {l : Entry}
    (hl : lastAt report l.target = some l) (hadd : l.decision.isAdding = false) :
    ∀ b ∈ bindings, ∀ e', ¬ Revises lib (examplesOf lib bindings assertions evidence)
      (byTarget report) l.target b e' := by
  rcases h.readBack_eq hl with ⟨-, hnone⟩ | ⟨b, -, xs, -, -, hrev⟩
  · exact hnone
  · exfalso
    rcases revise_eq_some hrev with ⟨l', hl', hadd', -⟩ | ⟨-, -, hplace⟩
    · rw [Option.some.inj hl', hadd'] at hadd
      simp at hadd
    · rcases hkept l (mem_of_lastAt hl).1 with heq | ⟨hadd', -⟩
      · have hdec : l.decision = .edit := by
          rw [← heq, hplace]
          rfl
        simp [hdec, Decision.isAdding] at hadd
      · rw [hadd] at hadd'
        simp at hadd'

theorem Updates.undisturbed (h : Updates lib bindings assertions evidence report updated)
    (hkept : ∀ e ∈ report, KeptAs lib bindings e (readBack (byTarget report) updated e)) :
    Undisturbed lib bindings assertions evidence report := by
  refine ⟨?_, ?_⟩
  · intro b hb l hl
    by_cases hadd : l.decision.isAdding = true
    · exact Or.inl hadd
    · refine Or.inr fun xs hxs => ?_
      by_contra hcur
      have htl := (mem_of_lastAt hl).2
      have hadd' : l.decision.isAdding = false := by simpa using hadd
      have hrev : revise lib b xs ((byTarget report).get l.target) =
          some (examplesEdit lib b xs) := by
        rw [byTarget_get, htl, hl]
        exact revise_of_not_current hadd' (by simpa using hcur)
      exact h.not_revised hkept (htl ▸ hl) hadd' b hb _ ⟨htl.symm, xs, hxs, hrev⟩
  · intro e he l hl
    have htl := (mem_of_lastAt hl).2
    have hk := hkept e he
    rcases h.readBack_eq hl with ⟨hplace, -⟩ | ⟨b, hb, xs, hbt, hxs, hrev⟩
    · rw [hplace] at hk
      rcases hk with rfl | ⟨hadd, hmem, hsame⟩
      · exact Or.inl rfl
      · exact Or.inr ⟨hsame.decision_eq ▸ hadd, hmem, hsame⟩
    · rcases revise_eq_some hrev with ⟨l', hl', hadd, hplace⟩ | ⟨hadd, -, -⟩
      · obtain rfl := Option.some.inj hl'
        have hmem : e.target ∈ bindings.map (fun b => bindingTarget lib b.binding.metric) :=
          List.mem_map.mpr ⟨b, hb, hbt⟩
        have hwith := sameButExamples_withExamples l xs
        rw [hplace] at hk
        refine Or.inr ⟨hadd, hmem, ?_⟩
        rcases hk with heq | ⟨-, -, hsame⟩
        · exact (congrArg Entry.sansExamples heq).symm.trans hwith.symm
        · exact hsame.trans hwith.symm
      · refine absurd ⟨hbt.trans htl.symm, xs, hxs, ?_⟩
          (h.not_revised hkept (htl ▸ hl) (hadd l rfl) b hb (readBack (byTarget report) updated e))
        rw [byTarget_get, htl, hl, hrev]

theorem Updates.kept (h : Updates lib bindings assertions evidence report updated)
    (hund : Undisturbed lib bindings assertions evidence report) {e : Entry} (he : e ∈ report) :
    KeptAs lib bindings e (readBack (byTarget report) updated e) := by
  obtain ⟨l, hl⟩ := exists_lastAt he
  rcases h.readBack_eq hl with ⟨hplace, -⟩ | ⟨b, hb, xs, hbt, hxs, hrev⟩
  · rw [hplace]
    rcases hund.alike e he l hl with rfl | ⟨hadd, hmem, hsame⟩
    · exact Or.inl rfl
    · exact Or.inr ⟨hsame.decision_eq.symm ▸ hadd, hmem, hsame⟩
  · rcases revise_eq_some hrev with ⟨l', hl', hadd, hplace⟩ | ⟨hadd, hcur, -⟩
    · obtain rfl := Option.some.inj hl'
      have hmem : e.target ∈ bindings.map (fun b => bindingTarget lib b.binding.metric) :=
        List.mem_map.mpr ⟨b, hb, hbt⟩
      have hwith := sameButExamples_withExamples l xs
      rw [hplace]
      rcases hund.alike e he l hl with rfl | ⟨-, -, hsame⟩
      · exact Or.inr ⟨hadd, hmem, hwith⟩
      · exact Or.inr ⟨hsame.decision_eq.symm ▸ hadd, hmem, hsame.trans hwith⟩
    · -- the file of a binding with changed examples has no such entry
      rcases hund.current b hb l (by rw [hbt]; exact hl) with hadd' | hcur'
      · rw [hadd l rfl] at hadd'
        simp at hadd'
      · rw [hcur' xs hxs] at hcur
        simp at hcur

/-- An entry of the enriched report that adds or edits is the last one of its target, up to its
examples, or an edit for the examples alone. -/
theorem Updates.mem_adding (h : Updates lib bindings assertions evidence report updated) {e : Entry}
    (he : e ∈ report.map (readBack (byTarget report) updated) ++
      (updated.filter fun p => p.1 ∉ report.map (·.target)).map (·.2))
    (hadd : e.decision.isAdding = true) :
    (∃ l, lastAt report l.target = some l ∧ l.decision.isAdding = true ∧ SameButExamples l e) ∨
      ∃ b ∈ bindings, ∃ xs, e = examplesEdit lib b xs := by
  rcases List.mem_append.mp he with he | he
  · obtain ⟨x, hx, rfl⟩ := List.mem_map.mp he
    obtain ⟨l, hl⟩ := exists_lastAt hx
    have hself : lastAt report l.target = some l := by rw [(mem_of_lastAt hl).2, hl]
    rcases h.readBack_eq hl with ⟨hplace, -⟩ | ⟨b, hb, xs, -, -, hrev⟩
    · rw [hplace] at hadd ⊢
      exact Or.inl ⟨l, hself, hadd, rfl⟩
    · rcases revise_eq_some hrev with ⟨l', hl', hadd', hplace⟩ | ⟨-, -, hplace⟩
      · obtain rfl := Option.some.inj hl'
        rw [hplace]
        exact Or.inl ⟨l, hself, hadd', sameButExamples_withExamples l xs⟩
      · exact Or.inr ⟨b, hb, xs, hplace⟩
  · exact Or.inr (h.new_eq he).2

/-- The last entry of a target, where it adds or edits, is in the enriched report up to its
examples. -/
theorem Updates.exists_kept (h : Updates lib bindings assertions evidence report updated)
    {l : Entry} (hl : lastAt report l.target = some l) (hadd : l.decision.isAdding = true) :
    ∃ e ∈ report.map (readBack (byTarget report) updated), SameButExamples l e := by
  refine ⟨_, List.mem_map_of_mem (mem_of_lastAt hl).1, ?_⟩
  rcases h.readBack_eq hl with ⟨hplace, -⟩ | ⟨b, -, xs, -, -, hrev⟩
  · rw [hplace]
    rfl
  · rcases revise_eq_some hrev with ⟨l', hl', -, hplace⟩ | ⟨hnone, -⟩
    · obtain rfl := Option.some.inj hl'
      rw [hplace]
      exact sameButExamples_withExamples l xs
    · rw [hnone l rfl] at hadd
      simp at hadd

end Enriched

/-- Whether the examples can be collected does not depend on the report. -/
theorem exists_enrich {bindings : List BindingFile} {assertions : List Assertion}
    {evidence : List EvidenceItem} {report out : Report}
    (h : enrich lib bindings assertions evidence report = .ok out) (report' : Report) :
    ∃ out', enrich lib bindings assertions evidence report' = .ok out' := by
  have hloop : ∀ (bs : List BindingFile) (entries updated updated' : Dict Entry),
      bs.foldlM (enrichBinding lib (examplesOf lib bindings assertions evidence) entries) updated =
        .ok updated' → ∀ entries₂ updated₂ : Dict Entry, ∃ updated₂', bs.foldlM
          (enrichBinding lib (examplesOf lib bindings assertions evidence) entries₂) updated₂ =
            .ok updated₂' := by
    intro bs
    induction bs with
    | nil =>
        intro _ _ _ _ _ updated₂
        exact ⟨updated₂, rfl⟩
    | cons b bs ih =>
        intro entries updated updated' hfold entries₂ updated₂
        obtain ⟨mid, hmid, hrest⟩ := foldlM_cons_eq_ok.mp hfold
        obtain ⟨xs, hxs, -⟩ := bind_eq_ok.mp hmid
        obtain ⟨mid₂, hmid₂⟩ : ∃ mid₂, enrichBinding lib
            (examplesOf lib bindings assertions evidence) entries₂ updated₂ b = .ok mid₂ := by
          rw [enrichBinding, hxs, ok_bind]
          split
          · exact ⟨_, rfl⟩
          · exact ⟨_, rfl⟩
        obtain ⟨updated₂', hrest₂⟩ := ih entries mid updated' hrest entries₂ mid₂
        exact ⟨updated₂', foldlM_cons_eq_ok.mpr ⟨mid₂, hmid₂, hrest₂⟩⟩
  obtain ⟨updated, hupdated, -⟩ := enrich_eq_ok h
  obtain ⟨updated', hupdated'⟩ :=
    hloop bindings _ _ _ hupdated (byTarget report') (byTarget report')
  exact ⟨_, by rw [enrich, hupdated', ok_bind]; rfl⟩

/-- **Exactly when enrichment preserves the report.** -/
theorem enrich_preserves_iff {bindings : List BindingFile} {assertions : List Assertion}
    {evidence : List EvidenceItem} {report out : Report}
    (h : enrich lib bindings assertions evidence report = .ok out) :
    Preserves lib bindings report out ↔
      Undisturbed lib bindings assertions evidence report := by
  obtain ⟨updated, hupd, rfl⟩ := enrich_eq_ok h
  have hupd' : Updates lib bindings assertions evidence report updated := hupd
  rw [hupd'.preserves_iff]
  exact ⟨hupd'.undisturbed, fun hund e he => hupd'.kept hund he⟩

/-! ### Two sides of a contradiction, and a contradiction on a binding

Two connectors disagree on one table; and a frozen binding is contradicted while the examples on
its file are out of date. -/

private def ordersSide (column : String) : Entry where
  decision := .contradiction
  target := "semantics/wh/orders.yaml"
  proposal :=
    { target := "semantics/wh/orders.yaml"
      op := .add
      content := [("name", .str "orders"), ("grain", .texts [column])]
      confidence := .one }

private def revenueFile : BindingFile where
  binding := { metric := "Net Revenue", canonical := { of := .single "orders" "revenue" } }
  canonical := .obj
    [("kind", .str "single"), ("source", .str "orders"), ("measure", .str "revenue")]
  examples := [{ query := { metrics := ["Net Revenue"] }, origin := "observed_query" }]

private def revenueEntry (decision : Decision) : Entry where
  decision := decision
  target := "contracts/metrics/net_revenue.yaml"
  proposal :=
    { target := "contracts/metrics/net_revenue.yaml"
      op := .edit
      content := [("metric", .str "Net Revenue")]
      confidence := .one }

/-- One side of the contradiction is lost; the contradiction on the binding becomes an edit. -/
theorem enrich_preserves_counterexample :
    (∃ out, enrich .plain [] [] [] [ordersSide "id", ordersSide "line"] = .ok out ∧
      ¬ Preserves .plain [] [ordersSide "id", ordersSide "line"] out) ∧
    ∃ out, enrich .plain [revenueFile] [] [] [revenueEntry .contradiction] = .ok out ∧
      ¬ Preserves .plain [revenueFile] [revenueEntry .contradiction] out := by
  constructor
  · refine ⟨[ordersSide "line", ordersSide "line"], by decide +kernel, ?_⟩
    rintro ⟨kept, new, hout, hkept, -⟩
    rw [List.forall₂_cons_left_iff] at hkept
    obtain ⟨first, rest, hfirst, -, rfl⟩ := hkept
    obtain rfl : ordersSide "line" = first := (List.cons.inj hout).1
    rcases hfirst with heq | ⟨hadd, -⟩
    · revert heq
      decide +kernel
    · simp [ordersSide, Decision.isAdding] at hadd
  · refine ⟨[examplesEdit .plain revenueFile []], by decide +kernel, ?_⟩
    rintro ⟨kept, new, hout, hkept, -⟩
    rw [List.forall₂_cons_left_iff] at hkept
    obtain ⟨first, rest, hfirst, -, rfl⟩ := hkept
    obtain rfl : examplesEdit .plain revenueFile [] = first := (List.cons.inj hout).1
    rcases hfirst with heq | ⟨hadd, -⟩
    · have hdec := congrArg Entry.decision heq
      simp [examplesEdit, revenueEntry] at hdec
    · simp [revenueEntry, Decision.isAdding] at hadd

/-- An edit of the binding keeps its place, with the examples recomputed. -/
theorem enrich_preserves_revenue :
    ∃ out, enrich .plain [revenueFile] [] [] [revenueEntry .edit] = .ok out ∧
      Preserves .plain [revenueFile] [revenueEntry .edit] out := by
  obtain ⟨out, hout⟩ := exists_ok_of_isOk
    (x := enrich .plain [revenueFile] [] [] [revenueEntry .edit]) (by decide +kernel)
  refine ⟨out, hout, (enrich_preserves_iff hout).mpr ⟨?_, ?_⟩⟩
  · intro b hb l hl
    obtain ⟨hmem, -⟩ := mem_of_lastAt hl
    obtain rfl := List.mem_singleton.mp hmem
    exact Or.inl rfl
  · intro e he l hl
    obtain ⟨hmem, -⟩ := mem_of_lastAt hl
    exact Or.inl ((List.mem_singleton.mp he).trans (List.mem_singleton.mp hmem).symm)

end Canonic
