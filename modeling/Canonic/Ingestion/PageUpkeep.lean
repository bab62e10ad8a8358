import Canonic.Ingestion.PageRefs

set_option autoImplicit false

/-! # Page upkeep against the state a run leaves

A report leaves the accepted files that it does not prune, and those it writes. The page check
rebuilds the sources of that state by their names, and prunes names after the additions: a source
that shares its name with another target is not always the one that is looked up.
-/

namespace Canonic

variable {lib : PageLib} {report : Report} {accepted : AcceptedStore}

/-! ## The state a report leaves -/

/-- The accepted sources, with their targets. -/
def acceptedSources (accepted : AcceptedStore) : List (String × Content) :=
  (accepted.facts.filter fun f => startsWith f.target "semantics/").map fun f =>
    (f.target, f.content)

/-- The sources that a report adds or edits, with their targets. -/
def writtenSources (report : Report) : List (String × Content) :=
  (report.filter fun e => startsWith e.target "semantics/" && e.decision.isAdding).map fun e =>
    (e.target, e.proposal.content)

def prunedTargets (report : Report) : List String :=
  (report.filter fun e => e.decision = .prune).map (·.target)

/-- The sources that a report leaves behind: the accepted ones without the pruned targets, and over
them those that it writes. -/
def resultingSources (report : Report) (accepted : AcceptedStore) : List (String × Content) :=
  (Dict.indexBy (·.1) ((acceptedSources accepted).filter (fun s => s.1 ∉ prunedTargets report) ++
    writtenSources report)).map (·.2)

/-- The pages that a report leaves behind: those on disk without the pruned targets, and those that
it adds or edits. A page outside of the two scopes does not load. -/
def resultingPages (pages : List PageFile) (report : Report) : PageIndex :=
  (pages.filter fun p => p.target ∉ prunedTargets report).map (fun p => (p.scope, p.id)) ++
    (report.filter fun e => e.decision.isAdding && startsWith e.target "knowledge/").filterMap
      fun e =>
        match scopeFromPath e.target with
        | .ok scope => some (scope, slugFromPath e.target)
        | .error _ => none

/-- The entities of the state that a report leaves behind. -/
def resultingEntities (lib : PageLib) (report : Report) (accepted : AcceptedStore) : List String :=
  ((resultingSources report accepted).filterMap fun s => lib.semantic s.2).flatMap (·.entityNames)

/-- A source that validates and has an entity of this name. -/
def Exposes (lib : PageLib) (s : String × Content) (ref : String) : Prop :=
  ∃ source, lib.semantic s.2 = some source ∧ ref ∈ source.entityNames

/-- A reference to an entity of the state that the report leaves behind. -/
def Resolves (lib : PageLib) (report : Report) (accepted : AcceptedStore) (ref : String) : Prop :=
  ∃ s ∈ resultingSources report accepted, Exposes lib s ref

theorem mem_resultingEntities {ref : String} :
    ref ∈ resultingEntities lib report accepted ↔ Resolves lib report accepted ref := by
  rw [resultingEntities, List.mem_flatMap]
  constructor
  · rintro ⟨source, hsource, href⟩
    obtain ⟨s, hs, hsemantic⟩ := List.mem_filterMap.mp hsource
    exact ⟨s, hs, source, hsemantic, href⟩
  · rintro ⟨s, hs, source, hsemantic, href⟩
    exact ⟨source, List.mem_filterMap.mpr ⟨s, hs, hsemantic⟩, href⟩

/-! ## The rebuilt state -/

/-- `str(content.get("name"))`. -/
def pageSource (py : PyLib) (s : String × Content) : String :=
  py.str (Dict.getD s.2 "name" .null)

/-- The names of the sources that a report prunes. -/
def prunedNames (py : PyLib) (report : Report) : List String :=
  (report.filter fun e => e.decision = .prune && startsWith e.target "semantics/").map fun e =>
    py.str (Dict.getD (e.existing.getD []) "name" .null)

/-- A source that is looked up by its name: of the accepted and the written sources no later one has
the name, and no pruned source has it. -/
def GoesByName (py : PyLib) (report : Report) (accepted : AcceptedStore)
    (s : String × Content) : Prop :=
  ((acceptedSources accepted ++ writtenSources report).filter fun x =>
    pageSource py x = pageSource py s).getLast? = some s ∧ pageSource py s ∉ prunedNames py report

/-- The check knows the entities of the sources that go by their names. -/
theorem mem_entityIndex {ref : String} : ref ∈ entityIndex lib report accepted ↔
    ∃ s, GoesByName lib.py report accepted s ∧ Exposes lib s ref := by
  have hfinal : finalSources lib.py accepted report =
      (Dict.indexBy (pageSource lib.py) (acceptedSources accepted ++ writtenSources report)).map
        fun p => (p.1, p.2.2) := by
    rw [← Dict.indexBy_map (pageSource lib.py) (fun s : String × Content => s.2)
      (fun c => lib.py.str (Dict.getD c "name" .null)) (fun _ => rfl)]
    rw [finalSources, Dict.indexBy, List.map_append, acceptedSources, writtenSources, List.map_map,
      List.map_map]
    rfl
  have hmem : ∀ k s, (k, s) ∈ Dict.indexBy (pageSource lib.py)
      (acceptedSources accepted ++ writtenSources report) ↔
        pageSource lib.py s = k ∧ ((acceptedSources accepted ++ writtenSources report).filter
          fun x => pageSource lib.py x = k).getLast? = some s := by
    intro k s
    have hget := Dict.get_indexBy (pageSource lib.py)
      (acceptedSources accepted ++ writtenSources report) k
    rw [← hget]
    constructor
    · intro h
      exact ⟨Dict.key_of_mem_indexBy _ h, Dict.get_of_mem (Dict.nodup_indexBy _ _) h⟩
    · rintro ⟨-, h⟩
      exact Dict.get_eq_some_mem h
  have hindex : entityIndex lib report accepted =
      (((finalSources lib.py accepted report).filter fun s =>
        s.1 ∉ prunedNames lib.py report).filterMap fun s => lib.semantic s.2).flatMap
          (·.entityNames) := rfl
  rw [hindex, List.mem_flatMap]
  constructor
  · rintro ⟨source, hsource, href⟩
    obtain ⟨⟨k, c⟩, hin, hsemantic⟩ := List.mem_filterMap.mp hsource
    obtain ⟨hin, hpruned⟩ := List.mem_filter.mp hin
    rw [hfinal] at hin
    obtain ⟨⟨k', s⟩, hs, hpair⟩ := List.mem_map.mp hin
    obtain ⟨rfl, rfl⟩ := Prod.mk.inj hpair
    obtain ⟨rfl, hlast⟩ := (hmem _ s).mp hs
    exact ⟨s, ⟨hlast, by simpa using hpruned⟩, source, hsemantic, href⟩
  · rintro ⟨s, ⟨hlast, hpruned⟩, source, hsemantic, href⟩
    refine ⟨source, List.mem_filterMap.mpr ⟨(pageSource lib.py s, s.2), ?_, hsemantic⟩, href⟩
    rw [List.mem_filter, hfinal]
    refine ⟨List.mem_map.mpr ⟨(pageSource lib.py s, s), ?_, rfl⟩, by simpa using hpruned⟩
    exact (hmem _ s).mpr ⟨rfl, hlast⟩

theorem mem_resultingSources {s : String × Content} : s ∈ resultingSources report accepted ↔
    (((acceptedSources accepted).filter (fun x => x.1 ∉ prunedTargets report) ++
      writtenSources report).filter fun x => x.1 = s.1).getLast? = some s := by
  rw [resultingSources, ← Dict.get_indexBy (fun x : String × Content => x.1), List.mem_map]
  constructor
  · rintro ⟨⟨k, s'⟩, hin, rfl⟩
    have hkey := Dict.key_of_mem_indexBy _ hin
    exact Dict.get_of_mem (Dict.nodup_indexBy _ _) (hkey ▸ hin)
  · intro h
    exact ⟨(s.1, s), Dict.get_eq_some_mem h, rfl⟩

/-- Where a name stands for a target, the sources that go by their names are those that the report
leaves behind. -/
theorem goesByName_iff {py : PyLib}
    (hnames : ∀ s ∈ acceptedSources accepted ++ writtenSources report,
      ∀ t ∈ acceptedSources accepted ++ writtenSources report,
        pageSource py s = pageSource py t ↔ s.1 = t.1)
    (hpruned : ∀ s ∈ acceptedSources accepted ++ writtenSources report,
      pageSource py s ∈ prunedNames py report ↔ s.1 ∈ prunedTargets report)
    (hwritten : ∀ s ∈ writtenSources report, s.1 ∉ prunedTargets report) {s : String × Content} :
    GoesByName py report accepted s ↔ s ∈ resultingSources report accepted := by
  have hlast : ∀ {xs : List (String × Content)} {p : String × Content → Bool},
      (xs.filter p).getLast? = some s → s ∈ xs :=
    fun h => List.mem_of_mem_filter (List.mem_of_getLast? h)
  -- looking up by name is looking up by target, as names and targets agree
  have hsame : s ∈ acceptedSources accepted ++ writtenSources report →
      ((acceptedSources accepted ++ writtenSources report).filter fun x =>
        pageSource py x = pageSource py s) =
          (acceptedSources accepted ++ writtenSources report).filter fun x => x.1 = s.1 := by
    intro hs
    apply List.filter_congr
    intro x hx
    exact decide_eq_decide.mpr (hnames x hx s hs)
  have hkept : s.1 ∉ prunedTargets report →
      ((acceptedSources accepted).filter (fun x => x.1 ∉ prunedTargets report) ++
        writtenSources report).filter (fun x => x.1 = s.1) =
          (acceptedSources accepted ++ writtenSources report).filter fun x => x.1 = s.1 := by
    intro hs
    rw [List.filter_append, List.filter_append, List.filter_filter]
    congr 1
    apply List.filter_congr
    intro x _
    by_cases hx : x.1 = s.1
    · simp [hx, hs]
    · simp [hx]
  rw [mem_resultingSources, GoesByName]
  constructor
  · rintro ⟨h, hno⟩
    have hs := hlast h
    rw [hpruned s hs] at hno
    rw [hkept hno, ← hsame hs]
    exact h
  · intro h
    have hs : s ∈ acceptedSources accepted ++ writtenSources report ∧
        s.1 ∉ prunedTargets report := by
      rcases List.mem_append.mp (hlast h) with hs | hs
      · obtain ⟨hs, hno⟩ := List.mem_filter.mp hs
        exact ⟨List.mem_append_left _ hs, by simpa using hno⟩
      · exact ⟨List.mem_append_right _ hs, hwritten s hs⟩
    refine ⟨?_, fun hin => hs.2 ((hpruned s hs.1).mp hin)⟩
    rw [hsame hs.1, ← hkept hs.2]
    exact h

/-! ## Edits -/

/-- The edits of a check for a page. -/
def editsOf (check : PageCheck) (p : PageFile) : List (Decision × Content) :=
  (check.entries.filter fun e => e.target = p.target).map fun e => (e.decision, e.proposal.content)

/-- A page with only these references, its freshness downgraded and nothing else changed. -/
def PageFile.withRefs (p : PageFile) (slRefs refs : List String) : PageFile :=
  { p with slRefs := slRefs, refs := refs, lastValidatedAt := none }

/-- The edits that entities and pages call for: none for a frozen page and where every reference
resolves, else one that keeps the references that do. -/
def editsFor (lib : PageLib) (entities : List String) (index : PageIndex) (p : PageFile) :
    List (Decision × Content) :=
  let slRefs := p.slRefs.filter fun ref => ref ∈ entities
  let refs := p.refs.filter fun ref => index.isVisible ref p.scope
  if p.frozen = true ∨ (slRefs = p.slRefs ∧ refs = p.refs) then []
  else [(.edit, [("body", .str (lib.dumpPage (p.withRefs slRefs refs)))])]

theorem prunedPage_eq (p : PageFile) (entities : List String) (index : PageIndex) :
    prunedPage p (staleSlRefs p entities) (staleRefs p index) =
      p.withRefs (p.slRefs.filter fun ref => ref ∈ entities)
        (p.refs.filter fun ref => index.isVisible ref p.scope) := by
  have hsl : (p.slRefs.filter fun ref => ref ∉ staleSlRefs p entities) =
      p.slRefs.filter fun ref => ref ∈ entities := by
    apply List.filter_congr
    intro ref href
    simp [staleSlRefs, href]
  have hrefs : (p.refs.filter fun ref => ref ∉ staleRefs p index) =
      p.refs.filter fun ref => index.isVisible ref p.scope := by
    apply List.filter_congr
    intro ref href
    simp [staleRefs, href]
  rw [prunedPage, hsl, hrefs]
  rfl

/-- Nothing is stale where everything is kept. -/
theorem filter_not_isEmpty_iff {refs : List String} {p : String → Bool} :
    (refs.filter fun ref => !p ref).isEmpty = true ↔ refs.filter p = refs := by
  rw [List.isEmpty_iff, List.filter_eq_nil_iff, List.filter_eq_self]
  simp

/-- The element of a key, among elements of different keys. -/
theorem filter_key_of_nodup {α : Type} {k : α → String} {xs : List α} (hnd : (xs.map k).Nodup)
    {x : α} (hx : x ∈ xs) : xs.filter (fun y => k y = k x) = [x] := by
  induction xs with
  | nil => cases hx
  | cons y xs ih =>
      rw [List.map_cons, List.nodup_cons] at hnd
      rw [List.filter_cons]
      rcases List.mem_cons.mp hx with rfl | hx
      · have hnone : xs.filter (fun y => k y = k x) = [] := by
          rw [List.filter_eq_nil_iff]
          intro y hy
          simp only [decide_eq_true_eq]
          intro hsame
          exact hnd.1 (hsame ▸ List.mem_map_of_mem hy)
        simp [hnone]
      · have hne : ¬ k y = k x := by
          intro hsame
          exact hnd.1 (hsame ▸ List.mem_map_of_mem hx)
        simp [hne, ih hnd.2 hx]

/-- What the check makes of a page that the report has no entry for. -/
theorem checkPage_undecided {now : ℤ} {p : PageFile} (entities : List String) (index : PageIndex)
    (hundecided : ∀ e ∈ report, e.target ≠ p.target) :
    checkPage lib now report entities index p =
      if p.frozen = true then .left
      else if (staleSlRefs p entities).isEmpty && (staleRefs p index).isEmpty then
        if p.needsRestamp now then .validated else .left
      else .stale (pageEntry lib p (staleSlRefs p entities) (staleRefs p index)) := by
  have hnone : (report.filter fun e => e.target = p.target) = [] :=
    List.filter_eq_nil_iff.mpr fun e he => by simpa using hundecided e he
  unfold checkPage
  rw [hnone]
  rfl

/-- The edit of a page is at the target of the page. -/
theorem checkPage_target {now : ℤ} {entities : List String} {index : PageIndex} {p : PageFile}
    {e : Entry} (h : checkPage lib now report entities index p = .stale e) :
    e.target = p.target := by
  unfold checkPage at h
  simp only at h
  by_cases hleft :
      ((report.filter fun e => e.target = p.target).map (·.decision)).any (· ≠ .noOp) ||
      p.frozen
  · rw [if_pos hleft] at h
    cases h
  · rw [if_neg hleft] at h
    split at h
    · split at h <;> cases h
    · split at h
      · split at h <;> cases h
      · obtain rfl := PageOutcome.stale.inj h
        rfl

/-- The entries of an outcome. -/
def PageOutcome.entries : PageOutcome → List Entry
  | .stale e => [e]
  | _ => []

/-- The check edits a page that the report has no entry for as its own indexes call for. -/
theorem editsOf_eq {now : ℤ} {pages : PageFiles} {check : PageCheck}
    (h : checkPages lib now report accepted (some pages) = .ok check) {index : PageIndex}
    (hindex : pageIndex pages.list report = .ok index) {p : PageFile} (hp : p ∈ pages.list)
    (hundecided : ∀ e ∈ report, e.target ≠ p.target) :
    editsOf check p = editsFor lib (entityIndex lib report accepted) index p := by
  obtain ⟨index', hindex', h⟩ := bind_eq_ok.mp h
  obtain rfl := Except.ok.inj (hindex.symm.trans hindex')
  obtain rfl := pure_eq_ok.mp h
  let entry := fun q : PageFile =>
    (checkPage lib now report (entityIndex lib report accepted) index q).entries
  have htarget : ∀ q ∈ pages.list, ∀ e ∈ entry q, e.target = q.target := by
    intro q _ e he
    simp only [entry] at he
    cases hout : checkPage lib now report (entityIndex lib report accepted) index q with
    | left | validated => simp [hout, PageOutcome.entries] at he
    | stale e' =>
        rw [hout, PageOutcome.entries, List.mem_singleton] at he
        rw [he]
        exact checkPage_target hout
  -- each page has a target of its own, so its edits are its own entry
  have hown : ∀ check : PageCheck, check.entries = pages.list.flatMap entry →
      editsOf check p = (entry p).map fun e => (e.decision, e.proposal.content) := by
    intro check hentries
    rw [editsOf, hentries, filter_flatMap_of_key (fun q : PageFile => q.target)
      (fun e : Entry => e.target) htarget, filter_key_of_nodup pages.nodup hp,
      List.flatMap_singleton]
  refine (hown _ ?_).trans ?_
  · rw [List.filterMap_eq_flatMap_toList]
    apply List.flatMap_congr
    intro q _
    simp only [entry]
    cases checkPage lib now report (entityIndex lib report accepted) index q <;> rfl
  simp only [entry, checkPage_undecided _ _ hundecided, editsFor]
  have hsl : (staleSlRefs p (entityIndex lib report accepted)).isEmpty = true ↔
      (p.slRefs.filter fun ref => ref ∈ entityIndex lib report accepted) = p.slRefs := by
    rw [← filter_not_isEmpty_iff]
    simp [staleSlRefs]
  have hrefs : (staleRefs p index).isEmpty = true ↔
      (p.refs.filter fun ref => index.isVisible ref p.scope) = p.refs :=
    filter_not_isEmpty_iff
  by_cases hfrozen : p.frozen = true
  · rw [if_pos hfrozen, if_pos (Or.inl hfrozen)]
    rfl
  · rw [if_neg hfrozen]
    by_cases hclean : (staleSlRefs p (entityIndex lib report accepted)).isEmpty = true ∧
        (staleRefs p index).isEmpty = true
    · rw [if_pos (by simpa using hclean), if_pos (Or.inr ⟨hsl.mp hclean.1, hrefs.mp hclean.2⟩)]
      cases p.needsRestamp now <;> rfl
    · have hdirty : ¬ (p.frozen = true ∨
          ((p.slRefs.filter fun ref => ref ∈ entityIndex lib report accepted) = p.slRefs ∧
            (p.refs.filter fun ref => index.isVisible ref p.scope) = p.refs)) := by
        rintro (h | ⟨h₁, h₂⟩)
        · exact hfrozen h
        · exact hclean ⟨hsl.mpr h₁, hrefs.mpr h₂⟩
      rw [if_neg (by simpa using hclean), if_neg hdirty, ← prunedPage_eq]
      rfl

/-! ## The check and the state -/

/-- A reference that a page on disk which is not pruned answers, or a page that the report adds. -/
def FindsPage (pages : List PageFile) (report : Report) (scope : KnowledgeScope)
    (ref : String) : Prop :=
  ∃ s : KnowledgeScope, (s = .shared ∨ s = scope) ∧
    ((∃ q ∈ pages, q.target ∉ prunedTargets report ∧ q.scope = s ∧ q.id = ref) ∨
      ∃ e ∈ report, e.decision = .add ∧ startsWith e.target "knowledge/" = true ∧
        scopeFromPath e.target = .ok s ∧ slugFromPath e.target = ref)

/-- For the references of a page, going by names finds what the report leaves behind. -/
structure NamesFindState (lib : PageLib) (report : Report) (accepted : AcceptedStore)
    (pages : List PageFile) (p : PageFile) : Prop where
  /-- A reference that resolves is exposed by a source that goes by its name. -/
  live : ∀ ref ∈ p.slRefs, Resolves lib report accepted ref →
    ∃ s, GoesByName lib.py report accepted s ∧ Exposes lib s ref
  /-- A source that goes by its name, but is no longer at its target, exposes no other reference. -/
  gone : ∀ ref ∈ p.slRefs, ¬ Resolves lib report accepted ref →
    ∀ s, GoesByName lib.py report accepted s → ¬ Exposes lib s ref
  /-- A reference that an edited page answers is also answered by one on disk or an added one. -/
  pages : ∀ ref ∈ p.refs, (resultingPages pages report).isVisible ref p.scope = true →
    FindsPage pages report p.scope ref

/-- Where a name stands for a target, going by names finds every reference to a source. -/
theorem namesFindState_of_names {pages : List PageFile} {p : PageFile}
    (hnames : ∀ s ∈ acceptedSources accepted ++ writtenSources report,
      ∀ t ∈ acceptedSources accepted ++ writtenSources report,
        pageSource lib.py s = pageSource lib.py t ↔ s.1 = t.1)
    (hpruned : ∀ s ∈ acceptedSources accepted ++ writtenSources report,
      pageSource lib.py s ∈ prunedNames lib.py report ↔ s.1 ∈ prunedTargets report)
    (hwritten : ∀ s ∈ writtenSources report, s.1 ∉ prunedTargets report)
    (hpages : ∀ ref ∈ p.refs, (resultingPages pages report).isVisible ref p.scope = true →
      FindsPage pages report p.scope ref) : NamesFindState lib report accepted pages p := by
  refine ⟨fun ref _ h => ?_, fun ref _ hno s hs hexposes => ?_, hpages⟩
  · obtain ⟨s, hs, hexposes⟩ := h
    exact ⟨s, (goesByName_iff hnames hpruned hwritten).mpr hs, hexposes⟩
  · exact hno ⟨s, (goesByName_iff hnames hpruned hwritten).mp hs, hexposes⟩

/-- The text of a page tells the references that it has kept. -/
def DumpsRefs (lib : PageLib) (p : PageFile) : Prop :=
  ∀ sl sl' refs refs' : List String, sl.Sublist p.slRefs → sl'.Sublist p.slRefs →
    refs.Sublist p.refs → refs'.Sublist p.refs →
      lib.dumpPage (p.withRefs sl refs) = lib.dumpPage (p.withRefs sl' refs') →
        sl = sl' ∧ refs = refs'

theorem filter_eq_iff {xs : List String} {p q : String → Bool} :
    xs.filter p = xs.filter q ↔ ∀ x ∈ xs, p x = q x := by
  constructor
  · intro h x hx
    have hp : x ∈ xs.filter p ↔ p x = true := by simp [hx]
    have hq : x ∈ xs.filter q ↔ q x = true := by simp [hx]
    rw [Bool.eq_iff_iff, ← hp, ← hq, h]
  · exact List.filter_congr

/-- The edits for a page that is not frozen tell which of its references are kept. -/
theorem editsFor_eq_iff {p : PageFile} (hdump : DumpsRefs lib p) (hfrozen : p.frozen = false)
    {entities entities' : List String} {index index' : PageIndex} :
    editsFor lib entities index p = editsFor lib entities' index' p ↔
      (∀ ref ∈ p.slRefs, ref ∈ entities ↔ ref ∈ entities') ∧
        ∀ ref ∈ p.refs, index.isVisible ref p.scope = index'.isVisible ref p.scope := by
  have hsl : (∀ ref ∈ p.slRefs, ref ∈ entities ↔ ref ∈ entities') ↔
      (p.slRefs.filter fun ref => ref ∈ entities) = p.slRefs.filter fun ref => ref ∈ entities' := by
    rw [filter_eq_iff]
    simp only [decide_eq_decide]
  rw [hsl, ← filter_eq_iff]
  simp only [editsFor, hfrozen, Bool.false_eq_true, false_or]
  constructor
  · intro h
    by_cases hclean : (p.slRefs.filter fun ref => ref ∈ entities) = p.slRefs ∧
        (p.refs.filter fun ref => index.isVisible ref p.scope) = p.refs
    · rw [if_pos hclean] at h
      by_cases hclean' : (p.slRefs.filter fun ref => ref ∈ entities') = p.slRefs ∧
          (p.refs.filter fun ref => index'.isVisible ref p.scope) = p.refs
      · exact ⟨hclean.1.trans hclean'.1.symm, hclean.2.trans hclean'.2.symm⟩
      · rw [if_neg hclean'] at h
        cases h
    · rw [if_neg hclean] at h
      by_cases hclean' : (p.slRefs.filter fun ref => ref ∈ entities') = p.slRefs ∧
          (p.refs.filter fun ref => index'.isVisible ref p.scope) = p.refs
      · rw [if_pos hclean'] at h
        cases h
      · rw [if_neg hclean'] at h
        simp only [List.cons.injEq, Prod.mk.injEq, Json.str.injEq, and_true, true_and] at h
        exact hdump _ _ _ _ List.filter_sublist List.filter_sublist List.filter_sublist
          List.filter_sublist h
  · rintro ⟨h₁, h₂⟩
    rw [h₁, h₂]

theorem isVisible_iff {index : PageIndex} {ref : String} {scope : KnowledgeScope} :
    index.isVisible ref scope = true ↔ ∃ s, (s = .shared ∨ s = scope) ∧ (s, ref) ∈ index := by
  unfold PageIndex.isVisible
  cases scope with
  | shared => simp
  | user => simp

/-- The check knows the pages that are on disk or added. -/
theorem isVisible_pageIndex {pages : List PageFile} {index : PageIndex}
    (hindex : pageIndex pages report = .ok index) {ref : String} {scope : KnowledgeScope} :
    index.isVisible ref scope = true ↔ FindsPage pages report scope ref := by
  obtain ⟨added, hadded, hindex⟩ := bind_eq_ok.mp hindex
  obtain rfl := pure_eq_ok.mp hindex
  have hall := mapM_eq_ok.mp hadded
  have hscope : ∀ {e : Entry} {x : KnowledgeScope × String},
      (do return (← scopeFromPath e.target, slugFromPath e.target)) = Except.ok x →
        scopeFromPath e.target = .ok x.1 ∧ slugFromPath e.target = x.2 := by
    intro e x hx
    obtain ⟨s, hs, hx⟩ := bind_eq_ok.mp hx
    obtain rfl := pure_eq_ok.mp hx
    exact ⟨hs, rfl⟩
  rw [isVisible_iff]
  apply exists_congr
  intro s
  apply and_congr_right
  intro _
  rw [List.mem_append]
  apply or_congr
  · simp only [List.mem_map, List.mem_filter, Prod.mk.injEq, prunedTargets]
    constructor
    · rintro ⟨q, ⟨hq, hkept⟩, hs, hid⟩
      exact ⟨q, hq, by simpa using hkept, hs, hid⟩
    · rintro ⟨q, hq, hkept, hs, hid⟩
      exact ⟨q, ⟨hq, by simpa using hkept⟩, hs, hid⟩
  · constructor
    · intro hin
      obtain ⟨e, he, hx⟩ := forall₂_mem_right hall hin
      obtain ⟨he, hadd⟩ := List.mem_filter.mp he
      simp only [Bool.and_eq_true, decide_eq_true_eq] at hadd
      exact ⟨e, he, hadd.1, hadd.2, hscope hx⟩
    · rintro ⟨e, he, hadd, hprefix, hs, hid⟩
      obtain ⟨x, hx, hread⟩ := forall₂_mem_left hall
        (List.mem_filter.mpr ⟨he, by simp [hadd, hprefix]⟩)
      obtain ⟨hs', hid'⟩ := hscope hread
      obtain rfl : s = x.1 := Except.ok.inj (hs.symm.trans hs')
      obtain rfl : ref = x.2 := hid.symm.trans hid'
      exact hx

/-- A page that the check knows is a page of the state. -/
theorem FindsPage.isVisible {pages : List PageFile} {ref : String} {scope : KnowledgeScope}
    (h : FindsPage pages report scope ref) :
    (resultingPages pages report).isVisible ref scope = true := by
  obtain ⟨s, hs, hin⟩ := h
  rw [isVisible_iff]
  refine ⟨s, hs, List.mem_append.mpr ?_⟩
  rcases hin with ⟨q, hq, hkept, rfl, rfl⟩ | ⟨e, he, hadd, hprefix, hscope, rfl⟩
  · exact Or.inl (List.mem_map.mpr ⟨q, List.mem_filter.mpr ⟨hq, by simpa using hkept⟩, rfl⟩)
  · refine Or.inr (List.mem_filterMap.mpr ⟨e, List.mem_filter.mpr ⟨he, ?_⟩, ?_⟩)
    · simp [hadd, hprefix, Decision.isAdding]
    · rw [hscope]

private def ordersOn (connection : String) : Content :=
  [("name", .str "orders"), ("connection", .str connection)]

/-- Sources without columns, and pages whose front matter is their references. -/
private def movingLib : PageLib where
  py := .plain
  semantic content :=
    match Dict.get content "name", Dict.get content "connection" with
    | some (.str name), some (.str connection) =>
        some { name := name, connection := connection, table := name }
    | _, _ => none
  dumpPage p := "---\nsl_refs: [" ++ ", ".intercalate p.slRefs ++ "]\n---\n"
  root := "/project"

private def movingAccepted : AcceptedStore where
  facts := [{ target := "semantics/old/orders.yaml", content := ordersOn "old" }]

private def movingProposal (target : String) (op : ProposalOp) (content : Content) : Proposal where
  target := target
  op := op
  content := content
  confidence := .one

/-- The source is added under its new connection, and the old file is pruned. -/
private def movingReport : Report :=
  [{ decision := .add
     target := "semantics/new/orders.yaml"
     proposal := movingProposal "semantics/new/orders.yaml" .add (ordersOn "new") },
   { decision := .prune
     target := "semantics/old/orders.yaml"
     proposal := movingProposal "semantics/old/orders.yaml" .prune []
     existing := some (ordersOn "old") }]

private def movingPage : PageFile where
  target := "knowledge/global/orders.md"
  text := ""
  id := "orders"
  scope := .shared
  slRefs := ["new.orders"]

private def movingPages : PageFiles where
  list := [movingPage]
  nodup := List.nodup_singleton _

/-- The check removes the reference, and nothing calls for that. -/
private theorem moving_edits : ∃ check,
    checkPages movingLib 0 movingReport movingAccepted (some movingPages) = .ok check ∧
      editsOf check movingPage = [(.edit, [("body", .str "---\nsl_refs: []\n---\n")])] ∧
      editsFor movingLib (resultingEntities movingLib movingReport movingAccepted)
        (resultingPages movingPages.list movingReport) movingPage = [] := by
  obtain ⟨check, hcheck, hedits⟩ : ∃ check, checkPages movingLib 0 movingReport movingAccepted
      (some movingPages) = .ok check ∧ decide (editsOf check movingPage =
        [(.edit, [("body", .str "---\nsl_refs: []\n---\n")])]) = true :=
    exists_ok_of_any (by decide +kernel)
  exact ⟨check, hcheck, of_decide_eq_true hedits, by decide +kernel⟩

end Canonic
