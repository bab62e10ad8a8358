import Canonic.Ingestion.LeastFixpoint

set_option autoImplicit false

/-! # Contested targets

Proposals of one target that disagree should all be flagged, so that none wins silently. What counts
as a disagreement in the run is the signature of a proposal, which is a fingerprint of its schema
where it has one: two relations of one shape in two schemas of a database have one signature, and
the one that comes first wins. Besides, proposals of a better curation rank settle a target.

Where the targets at which two proposals disagree are contested, every side is flagged:
`Parts.noSilentWinner`. -/

namespace Canonic

variable {lib : ReconcileLib} {py : PyLib} {policy : AutoApplyConfig} {accepted : AcceptedStore}

/-! ## The proposals as they are decided -/

/-- The pages the drafts of a run are rendered to, against the sources it leaves. -/
def decidedPages (lib : ReconcileLib) (policy : AutoApplyConfig) (accepted : AcceptedStore)
    (proposals : List Proposal) : Reads (List Proposal) := do
  let decided ← decideGroups lib.py policy accepted (groupByTarget (proposals.filter isOrdinary))
  renderPageDrafts lib accepted decided (proposals.filter isPageDraft)

/-- The proposals of a run: pages stand for their drafts, candidates without their mark. -/
def asDecided (pages proposals : List Proposal) : List Proposal :=
  proposals.filter isOrdinary ++ pages ++ (proposals.filter isCandidate).map Proposal.strip

/-- The pages of a target. -/
def pagesAt (pages : List Proposal) (target : String) : List Proposal :=
  pages.filter fun p => p.target = target

/-- What a proposal says of its target: its content without the metadata of the run. -/
def Proposal.facts (p : Proposal) : Content := p.content.filter fun f => f.1 ≠ "meta"

/-- Two proposals of one rank say different things of one target. -/
structure Disagree (p q : Proposal) : Prop where
  ne : p ≠ q
  target : p.target = q.target
  rank : p.rank = q.rank
  facts : Json.pyEq (.obj p.facts) (.obj q.facts) = false

/-- Where two proposals disagree, every proposal of their target has a contradiction of its own. -/
def NoSilentWinner (report : Report) (all : List Proposal) : Prop :=
  ∀ p ∈ all, ∀ q ∈ all, Disagree p q → ∀ r ∈ all, r.target = p.target →
    ∃ e ∈ report, e.decision = .contradiction ∧ e.target = p.target ∧ e.proposal = r

/-! ## Contested groups -/

/-- Two proposals of the group have different signatures, and curation rank does not settle it: the
best rank is the only one, or has several signatures too, or a lower one has a column of another
type. -/
structure Contested (py : PyLib) (group : List Proposal) : Prop where
  differ : ∃ p ∈ group, ∃ q ∈ group, signature py p ≠ signature py q
  unsettled : preferred py group = none

section Groups

variable {target : String} {group : List Proposal} {es : List Entry}

/-- Every side of a contested group is flagged. -/
theorem GroupDecided.flagged_of_contested (h : GroupDecided py policy accepted target group es)
    (hc : Contested py group) {r : Proposal} (hr : r ∈ group) :
    ∃ e ∈ es, e.decision = .contradiction ∧ e.target = target ∧ e.proposal = r := by
  have hsig := one_lt_signatureCount.mpr hc.differ
  have hdec : deciders py group = group := by rw [deciders, if_pos hsig, hc.unsettled]
  cases h with
  | one p e hone _ _ =>
      rw [← hdec, hone] at hsig
      exact absurd hsig (not_one_lt_signatureCount_singleton p)
  | flagged action _ _ hes =>
      rw [hes]
      exact ⟨_, List.mem_map_of_mem hr, rfl, rfl, rfl⟩
  | empty hnil _ => simp [hnil] at hr

/-- A group of which two sides are flagged is contested. -/
theorem GroupDecided.contested_of_flagged (h : GroupDecided py policy accepted target group es)
    {e e' : Entry} (he : e ∈ es) (he' : e' ∈ es) (hne : e.proposal ≠ e'.proposal) :
    Contested py group := by
  cases h with
  | one p e₁ _ _ hes =>
      rw [hes, List.mem_singleton] at he he'
      exact absurd (by rw [he, he']) hne
  | flagged action hall hsig _ =>
      refine ⟨one_lt_signatureCount.mp hsig, ?_⟩
      cases hpref : preferred py group with
      | none => rfl
      | some winner =>
          rw [deciders, if_pos hsig, hpref] at hall
          exact absurd (hall ▸ hsig) (not_one_lt_signatureCount_singleton winner)
  | empty _ hes => simp [hes] at he

/-- What is flagged is a proposal of the group. -/
theorem GroupDecided.mem_of_contradiction
    (h : GroupDecided py policy accepted target group es) {e : Entry} (he : e ∈ es)
    (hd : e.decision = .contradiction) : e.proposal ∈ group := by
  cases h with
  | one p e₁ hone hp hes =>
      obtain rfl : e = e₁ := by simpa [hes] using he
      have hown : e.proposal = p := by
        cases (reconcileOne_decided hp).2 with
        | contradiction _ _ own => exact own
        | noOp decision _ _ => simp [decision] at hd
        | add _ _ decision _ _ => simp [decision] at hd
        | edit _ _ _ _ _ _ decision _ _ => simp [decision] at hd
        | merge _ _ _ _ _ decision _ _ => simp [decision] at hd
      rw [hown]
      exact mem_of_mem_deciders (hone ▸ List.mem_singleton_self p)
  | flagged action _ _ hes =>
      rw [hes] at he
      obtain ⟨p, hp, rfl⟩ := List.mem_map.mp he
      exact hp
  | empty _ hes => simp [hes] at he

/-- The entries of a target are those of its group. -/
theorem exists_decided_at {ps : List Proposal}
    (h : decideGroups py policy accepted (groupByTarget ps) = .ok es) (target : String) :
    ∃ es', GroupDecided py policy accepted target (ps.filter fun p => p.target = target) es' ∧
      ∀ e, e ∈ es' ↔ e ∈ es ∧ e.target = target :=
  ⟨_, decideGroups_at h target, fun e => by simp⟩

end Groups

/-! ## A run, part by part -/

/-- The parts of a report. -/
structure Parts (lib : ReconcileLib) (policy : AutoApplyConfig) (accepted : AcceptedStore)
    (proposals : List Proposal) (report : Report) where
  decided : List Entry
  pages : List Proposal
  pageDecided : List Entry
  resolved : List Entry
  decided_eq : decideGroups lib.py policy accepted
    (groupByTarget (proposals.filter isOrdinary)) = .ok decided
  pages_eq : renderPageDrafts lib accepted decided (proposals.filter isPageDraft) = .ok pages
  pageDecided_eq : decideGroups lib.py policy accepted (groupByTarget pages) = .ok pageDecided
  resolved_eq : resolveCandidates lib.py accepted (decided ++ pageDecided)
    (fun p => reconcileOne lib.py policy p none) (proposals.filter isCandidate) = .ok resolved
  report_eq : report = decided ++ pageDecided ++ resolved ++ pruneDisappeared accepted
    ((groupByTarget (proposals.filter isOrdinary)).map (·.1) ++ (groupByTarget pages).map (·.1) ++
      (proposals.filter isCandidate).map (·.target))

theorem reconcile_parts {proposals : List Proposal} {report : Report}
    (h : reconcile lib policy accepted proposals = .ok report) :
    Nonempty (Parts lib policy accepted proposals report) := by
  obtain ⟨decided, hdecided, h⟩ := bind_eq_ok.mp h
  obtain ⟨pages, hpages, h⟩ := bind_eq_ok.mp h
  obtain ⟨pageDecided, hpageDecided, h⟩ := bind_eq_ok.mp h
  obtain ⟨resolved, hresolved, h⟩ := bind_eq_ok.mp h
  exact ⟨⟨decided, pages, pageDecided, resolved, hdecided, hpages, hpageDecided, hresolved,
    (pure_eq_ok.mp h).symm⟩⟩

/-- The candidates of a run are those of a list, one for each file. -/
structure BuiltCandidates (py : PyLib) (proposals : List Proposal) (cs : List Candidate) :
    Prop where
  distinct : DistinctTargets py cs
  proposals_eq : proposals.filter isCandidate = cs.map (·.proposal py)

/-- The entries of candidates are at their files, and flag nothing. -/
theorem resolveCandidates_entry {entries : List Entry} {cs : List Candidate} {es : List Entry}
    (hnd : DistinctTargets py cs)
    (h : resolveCandidates py accepted entries (fun p => reconcileOne py policy p none)
      (cs.map (·.proposal py)) = .ok es) {e : Entry} (he : e ∈ es) :
    (∃ c ∈ cs, e.target = c.target py) ∧ e.decision ≠ .contradiction := by
  obtain ⟨bound', hready⟩ := resolveRounds_turns (by simp) hnd h
  obtain ⟨-, hentries⟩ := resolveReady_entry (finalSources_keyed entries) hready
  obtain ⟨pre, c, post, hsplit, hentry⟩ := hentries e he
  have hmem : c ∈ cs := by
    rw [List.length_map] at hsplit
    have hperm : (turns cs.length cs).Perm cs := Closure.turns_perm _ cs
    exact hperm.mem_iff.mp (by simp [hsplit])
  refine ⟨⟨c, hmem, hentry.target⟩, fun hd => ?_⟩
  by_cases hyes : Readable py accepted (finalSources py accepted entries) c ∧
      ∀ k ∈ c.binding.needs, k ∈ boundAfter py accepted (finalSources py accepted entries)
        (acceptedBound py accepted) pre
  · rw [hentry.added hyes.1 hyes.2] at hd
    cases hd
  · rw [hentry.skipped hyes] at hd
    cases hd

theorem isPageDraft_proposal (c : Candidate) : isPageDraft (c.proposal py) = false := by
  simp only [isPageDraft, Candidate.proposal]
  split
  · rfl
  · rfl

namespace Parts

variable {proposals : List Proposal} {report : Report}
  (s : Parts lib policy accepted proposals report)

include s

theorem pages_target {p : Proposal} (hp : p ∈ s.pages) :
    ∃ d ∈ proposals, isPageDraft d = true ∧ p.target = d.target := by
  obtain ⟨d, hd, hrender⟩ := forall₂_mem_right (mapM_eq_ok.mp s.pages_eq) hp
  obtain ⟨hmem, hmarked⟩ := List.mem_filter.mp hd
  exact ⟨d, hmem, hmarked, (renderPageDraft_eq_ok hrender).1⟩

theorem mem_report {e : Entry} : e ∈ report ↔
    e ∈ s.decided ∨ e ∈ s.pageDecided ∨ e ∈ s.resolved ∨ e ∈ pruneDisappeared accepted
      ((groupByTarget (proposals.filter isOrdinary)).map (·.1) ++
        (groupByTarget s.pages).map (·.1) ++ (proposals.filter isCandidate).map (·.target)) := by
  have hreport := s.report_eq
  simp only [hreport, List.mem_append, or_assoc]

end Parts

/-! ## Every disagreement is flagged -/

/-- No candidate has the target, and its ordinary proposals and its pages are contested. -/
structure ContestedAt (py : PyLib) (pages proposals : List Proposal) (target : String) :
    Prop where
  candidates : ∀ c ∈ proposals, isCandidate c = true → c.target ≠ target
  ordinary : groupAt proposals target ≠ [] → Contested py (groupAt proposals target)
  pages : pagesAt pages target ≠ [] → Contested py (pagesAt pages target)

/-- The targets at which two proposals disagree are contested. -/
def DisagreementsContested (py : PyLib) (pages proposals : List Proposal) : Prop :=
  ∀ p ∈ asDecided pages proposals, ∀ q ∈ asDecided pages proposals, Disagree p q →
    ContestedAt py pages proposals p.target

/-- Where a page is drafted, nothing else is, and no candidate is an ordinary proposal too. -/
structure KindsApart (proposals : List Proposal) : Prop where
  drafts : ∀ p ∈ proposals, ∀ q ∈ proposals, p.target = q.target → isPageDraft p = isPageDraft q
  candidates : ∀ c ∈ proposals, isCandidate c = true → c.strip ∉ proposals.filter isOrdinary

section Flagged

variable {proposals : List Proposal} {report : Report}

theorem Parts.noSilentWinner (s : Parts lib policy accepted proposals report)
    (h : DisagreementsContested lib.py s.pages proposals) :
    NoSilentWinner report (asDecided s.pages proposals) := by
  intro p hp q hq hpq r hr htarget
  have hcontested := h p hp q hq hpq
  rcases List.mem_append.mp hr with hr | hr
  · rcases List.mem_append.mp hr with hr | hr
    · have hmem : r ∈ groupAt proposals p.target :=
        List.mem_filter.mpr ⟨hr, by simpa using htarget⟩
      obtain ⟨es, hdecided, hes⟩ := exists_decided_at s.decided_eq p.target
      obtain ⟨e, he, hd⟩ := hdecided.flagged_of_contested
        (hcontested.ordinary (List.ne_nil_of_mem hmem)) hmem
      exact ⟨e, s.mem_report.mpr (.inl ((hes e).mp he).1), hd⟩
    · have hmem : r ∈ pagesAt s.pages p.target :=
        List.mem_filter.mpr ⟨hr, by simpa using htarget⟩
      obtain ⟨es, hdecided, hes⟩ := exists_decided_at s.pageDecided_eq p.target
      obtain ⟨e, he, hd⟩ := hdecided.flagged_of_contested
        (hcontested.pages (List.ne_nil_of_mem hmem)) hmem
      exact ⟨e, s.mem_report.mpr (.inr (.inl ((hes e).mp he).1)), hd⟩
  · obtain ⟨c, hc, rfl⟩ := List.mem_map.mp hr
    obtain ⟨hmem, hmarked⟩ := List.mem_filter.mp hc
    exact absurd htarget (hcontested.candidates c hmem hmarked)

/-- What is flagged is an ordinary proposal, or its target has a page draft. -/
theorem Parts.contradiction_cases (s : Parts lib policy accepted proposals report)
    {cs : List Candidate} (hcs : BuiltCandidates lib.py proposals cs) {e : Entry} (he : e ∈ report)
    (hd : e.decision = .contradiction) :
    (e ∈ s.decided ∧ e.proposal ∈ groupAt proposals e.target) ∨
      (e ∈ s.pageDecided ∧ ∃ d ∈ proposals, d.target = e.target ∧ isPageDraft d = true) := by
  rcases s.mem_report.mp he with he | he | he | he
  · obtain ⟨es, hdecided, hes⟩ := exists_decided_at s.decided_eq e.target
    exact .inl ⟨he, hdecided.mem_of_contradiction ((hes e).mpr ⟨he, rfl⟩) hd⟩
  · obtain ⟨es, hdecided, hes⟩ := exists_decided_at s.pageDecided_eq e.target
    obtain ⟨hr, htarget⟩ := List.mem_filter.mp
      (hdecided.mem_of_contradiction ((hes e).mpr ⟨he, rfl⟩) hd)
    obtain ⟨d, hmem, hmarked, hsame⟩ := s.pages_target hr
    exact .inr ⟨he, d, hmem, by rw [← hsame]; simpa using htarget, hmarked⟩
  · have hresolved := s.resolved_eq
    rw [hcs.proposals_eq] at hresolved
    exact absurd hd (resolveCandidates_entry hcs.distinct hresolved he).2
  · obtain ⟨-, -, -, -, -, -, hprune, -⟩ := mem_pruneDisappeared he
    rw [hprune] at hd
    cases hd

/-- A candidate of the builder is no page draft. -/
theorem BuiltCandidates.not_draft {cs : List Candidate} (h : BuiltCandidates py proposals cs)
    {c : Proposal} (hc : c ∈ proposals) (hmarked : isCandidate c = true) :
    isPageDraft c = false := by
  have hin : c ∈ cs.map (·.proposal py) := by
    rw [← h.proposals_eq]
    exact List.mem_filter.mpr ⟨hc, hmarked⟩
  obtain ⟨c', -, rfl⟩ := List.mem_map.mp hin
  exact isPageDraft_proposal c'

/-- A target of which every proposal is flagged has no candidate. -/
theorem Parts.no_candidate (s : Parts lib policy accepted proposals report) {cs : List Candidate}
    (hcs : BuiltCandidates lib.py proposals cs) (hkinds : KindsApart proposals) {target : String}
    (hall : ∀ r ∈ asDecided s.pages proposals, r.target = target →
      ∃ e ∈ report, e.decision = .contradiction ∧ e.target = target ∧ e.proposal = r)
    {c : Proposal} (hc : c ∈ proposals) (hmarked : isCandidate c = true) : c.target ≠ target := by
  intro htarget
  have hstrip : c.strip ∈ asDecided s.pages proposals :=
    List.mem_append_right _ (List.mem_map_of_mem (List.mem_filter.mpr ⟨hc, hmarked⟩))
  obtain ⟨e, he, hd, het, hown⟩ := hall c.strip hstrip htarget
  rcases s.contradiction_cases hcs he hd with ⟨-, hmem⟩ | ⟨-, d, hd, hdt, hdk⟩
  · rw [hown] at hmem
    exact hkinds.candidates c hc hmarked (List.mem_filter.mp hmem).1
  · have hsame := hkinds.drafts c hc d hd (by rw [htarget, hdt, het])
    rw [hcs.not_draft hc hmarked, hdk] at hsame
    cases hsame

theorem Parts.disagreementsContested (s : Parts lib policy accepted proposals report)
    {cs : List Candidate} (hcs : BuiltCandidates lib.py proposals cs)
    (hkinds : KindsApart proposals)
    (h : NoSilentWinner report (asDecided s.pages proposals)) :
    DisagreementsContested lib.py s.pages proposals := by
  intro p hp q hq hpq
  have hall := h p hp q hq hpq
  obtain ⟨e, he, hd, htarget, hown⟩ := hall p hp rfl
  obtain ⟨e', he', hd', htarget', hown'⟩ := hall q hq hpq.target.symm
  -- two flagged entries hold two proposals, so their group was left undecided
  have hne : e.proposal ≠ e'.proposal := by
    rw [hown, hown']
    exact hpq.ne
  refine ⟨fun c hc hmarked => s.no_candidate hcs hkinds hall hc hmarked, fun hgroup => ?_,
    fun hpages => ?_⟩
  · -- no page is drafted at the target of an ordinary proposal
    obtain ⟨x, hx⟩ := List.exists_mem_of_ne_nil _ hgroup
    obtain ⟨hx, hxt⟩ := List.mem_filter.mp hx
    obtain ⟨hx, hxo⟩ := List.mem_filter.mp hx
    have hno : ¬ ∃ d ∈ proposals, d.target = p.target ∧ isPageDraft d = true := by
      rintro ⟨d, hd, hdt, hdk⟩
      have hsame := hkinds.drafts x hx d hd (by rw [hdt]; simpa using hxt)
      simp [isOrdinary, hsame, hdk] at hxo
    have hmem := (s.contradiction_cases hcs he hd).resolve_right fun hpage =>
      hno (htarget ▸ hpage.2)
    have hmem' := (s.contradiction_cases hcs he' hd').resolve_right fun hpage =>
      hno (htarget' ▸ hpage.2)
    obtain ⟨es, hdecided, hes⟩ := exists_decided_at s.decided_eq p.target
    exact hdecided.contested_of_flagged ((hes e).mpr ⟨hmem.1, htarget⟩)
      ((hes e').mpr ⟨hmem'.1, htarget'⟩) hne
  · -- only pages are drafted at the target of a page
    obtain ⟨x, hx⟩ := List.exists_mem_of_ne_nil _ hpages
    obtain ⟨hx, hxt⟩ := List.mem_filter.mp hx
    obtain ⟨d, hdraft, hdk, hsame⟩ := s.pages_target hx
    have hno : ∀ r ∈ groupAt proposals p.target, False := by
      intro r hr
      obtain ⟨hr, hrt⟩ := List.mem_filter.mp hr
      obtain ⟨hr, hro⟩ := List.mem_filter.mp hr
      simp only [decide_eq_true_eq] at hrt hxt
      have hkind := hkinds.drafts r hr d hdraft (by rw [hrt, ← hsame, hxt])
      simp [isOrdinary, hkind, hdk] at hro
    have hmem := (s.contradiction_cases hcs he hd).resolve_left fun hord =>
      hno _ (htarget ▸ hord.2)
    have hmem' := (s.contradiction_cases hcs he' hd').resolve_left fun hord =>
      hno _ (htarget' ▸ hord.2)
    obtain ⟨es, hdecided, hes⟩ := exists_decided_at s.pageDecided_eq p.target
    exact hdecided.contested_of_flagged ((hes e).mpr ⟨hmem.1, htarget⟩)
      ((hes e').mpr ⟨hmem'.1, htarget'⟩) hne

end Flagged

end Canonic
