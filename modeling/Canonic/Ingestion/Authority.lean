import Canonic.Ingestion.Decisions

set_option autoImplicit false

/-! # Authority

What a run may do to an accepted fact: nothing to a frozen one, only appended alternatives to one
that outranks the proposal, and nothing unreviewed to one above the policy's cap or to a field on
its `never` list.

The first, second and last of these hold on every route. The cap does not: the policy compares it
with the provenance of the *proposal*, and the merge of a deprecated alternative skips the tier
rule, so an inferred alternative is merged unreviewed into a curated binding. `authority_iff` says
when that happens. -/

namespace Canonic

variable {lib : ReconcileLib} {py : PyLib} {policy : AutoApplyConfig} {accepted : AcceptedStore}

/-- Nothing changes but that entries are appended to the deprecated alternatives. -/
structure AppendsAlternatives (before after : Content) : Prop where
  others : ∀ k, k ≠ "deprecated_alternatives" → Dict.get after k = Dict.get before k
  appended : ∃ old new, deprecatedAlternatives before = .ok old ∧
    Dict.get after "deprecated_alternatives" = some (.arr (old ++ new))

/-- An entry that keeps to the authority of the accepted facts. -/
structure Respects (policy : AutoApplyConfig) (accepted : AcceptedStore) (e : Entry) : Prop where
  frozen : ∀ f, accepted.get e.target = some f → f.frozen = true →
    e.decision ≠ .edit ∧ e.decision ≠ .prune
  outranked : ∀ f, accepted.get e.target = some f → e.decision = .edit →
    e.proposal.provenance.tier < f.provenance.tier →
    AppendsAlternatives f.content e.proposal.content
  capped : e.autoApply = true → ∀ f, accepted.get e.target = some f →
    f.provenance.tier ≤ policy.maxProvenance.tier
  never_changed : e.autoApply = true → ∀ f, accepted.get e.target = some f →
    ∀ field ∈ policy.never,
      Json.pyEqOpt (Dict.get f.content field) (Dict.get e.proposal.content field) = true
  never_set : e.autoApply = true → accepted.get e.target = none →
    ∀ field ∈ policy.never, isSet (Dict.getD e.proposal.content field .null) = false

/-- A deprecated alternative that is merged without review. -/
def AutoMerges (py : PyLib) (policy : AutoApplyConfig) (p : Proposal) (f : ExistingFact) : Prop :=
  ∃ das fragment, Merges py p f das fragment ∧
    autoApplyEligible policy (mergedProposal p f das fragment) (some f) = true

/-! ## One entry -/

theorem autoApplyEligible_eq_true {p : Proposal} {existing : Option ExistingFact}
    (h : autoApplyEligible policy p existing = true) :
    p.provenance.tier ≤ policy.maxProvenance.tier ∧
      touchesNeverField p existing policy.never = false := by
  simp only [autoApplyEligible, Bool.and_eq_true, decide_eq_true_eq, Bool.not_eq_true'] at h
  exact ⟨h.1.2, h.2⟩

/-- An entry that neither writes nor removes a file, nor is applied unreviewed, respects all. -/
theorem Respects.of_idle {e : Entry} (hauto : e.autoApply = false) (hedit : e.decision ≠ .edit)
    (hprune : e.decision ≠ .prune) : Respects policy accepted e where
  frozen _ _ _ := ⟨hedit, hprune⟩
  outranked _ _ h := absurd h hedit
  capped h := by simp [hauto] at h
  never_changed h := by simp [hauto] at h
  never_set h := by simp [hauto] at h

theorem Merges.appends {p : Proposal} {f : ExistingFact} {das : List Json} {fragment : Content}
    (h : Merges py p f das fragment) :
    AppendsAlternatives f.content (mergedProposal p f das fragment).content where
  others k hk := by
    rw [mergedProposal, Dict.get_set, if_neg hk]
  appended := ⟨das, [.obj fragment], h.das_eq, by rw [mergedProposal, Dict.get_set, if_pos rfl]⟩

/-- The decision for a proposal keeps to the authority of the fact at its target, unless it merges
an alternative unreviewed above the cap. -/
theorem reconcileOne_respects {p : Proposal} {e : Entry}
    (h : reconcileOne py policy p (accepted.get p.target) = .ok e)
    (hsafe : ∀ f, accepted.get p.target = some f →
      policy.maxProvenance.tier < f.provenance.tier → ¬ AutoMerges py policy p f) :
    Respects policy accepted e := by
  obtain ⟨htarget, hdecided⟩ := reconcileOne_decided h
  -- only an edit or a merge touches a fact, and each checks its own guard
  cases hdecided with
  | contradiction hd ha _ => exact .of_idle ha (by simp [hd]) (by simp [hd])
  | noOp hd ha _ => exact .of_idle ha (by simp [hd]) (by simp [hd])
  | add hnone hflag hd ha hp =>
      refine ⟨by simp [hd], by simp [hd], ?_, ?_, ?_⟩
      · simp [htarget, hnone]
      · simp [htarget, hnone]
      · intro hauto _ field hfield
        rw [ha] at hauto
        have hnever := (autoApplyEligible_eq_true hauto).2
        rw [hp]
        simpa using List.any_eq_false.mp hnever field hfield
  | edit f hsome hflag hmark hfrozen htier hd ha hp =>
      have hget : ∀ g, accepted.get e.target = some g → g = f := by
        intro g hg
        rw [htarget, hsome] at hg
        exact (Option.some.inj hg).symm
      refine ⟨?_, ?_, ?_, ?_, by simp [htarget, hsome]⟩
      · intro g hg hgf
        rw [hget g hg, hfrozen] at hgf
        simp at hgf
      · intro g hg _ hlt
        rw [hget g hg, hp] at hlt
        omega
      · intro hauto g hg
        rw [ha] at hauto
        have hcap := (autoApplyEligible_eq_true hauto).1
        rw [hget g hg]
        omega
      · intro hauto g hg field hfield
        rw [ha] at hauto
        have hnever := (autoApplyEligible_eq_true hauto).2
        rw [hget g hg, hp]
        simpa using List.any_eq_false.mp hnever field hfield
  | merge f das fragment hsome hmerges hd ha hp =>
      have hget : ∀ g, accepted.get e.target = some g → g = f := by
        intro g hg
        rw [htarget, hsome] at hg
        exact (Option.some.inj hg).symm
      refine ⟨?_, ?_, ?_, ?_, by simp [htarget, hsome]⟩
      · intro g hg hgf
        rw [hget g hg, hmerges.unfrozen] at hgf
        simp at hgf
      · intro g hg _ _
        rw [hget g hg, hp]
        exact hmerges.appends
      · intro hauto g hg
        rw [ha] at hauto
        rw [hget g hg]
        by_contra hcap
        exact hsafe f hsome (Nat.lt_of_not_le hcap) ⟨das, fragment, hmerges, hauto⟩
      · intro hauto g hg field hfield
        rw [ha] at hauto
        have hnever := (autoApplyEligible_eq_true hauto).2
        rw [hget g hg, hp]
        simpa using List.any_eq_false.mp hnever field hfield

/-- An alternative merged unreviewed into a fact above the cap. -/
theorem AutoMerges.breaks {p : Proposal} {f : ExistingFact} (h : AutoMerges py policy p f)
    (hget : accepted.get p.target = some f)
    (hcap : policy.maxProvenance.tier < f.provenance.tier) :
    ∃ e, reconcileOne py policy p (some f) = .ok e ∧ e.decision = .edit ∧
      ¬ Respects policy accepted e := by
  obtain ⟨das, fragment, hmerges, hauto⟩ := h
  refine ⟨_, hmerges.reconcileOne_eq, rfl, ?_⟩
  intro hrespects
  have hle := hrespects.capped hauto f hget
  omega

/-! ## Whole runs -/

/-- No proposal that can decide a target above the cap is an alternative merged unreviewed. -/
def NoAutoMergeAboveCap (py : PyLib) (policy : AutoApplyConfig) (accepted : AcceptedStore)
    (proposals : List Proposal) : Prop :=
  ∀ f ∈ accepted.facts, policy.maxProvenance.tier < f.provenance.tier →
    ∀ p ∈ deciders py (groupAt proposals f.target), ¬ AutoMerges py policy p f

theorem not_autoMerges_of_page {p : Proposal} (h : p.content.map (·.1) = ["body", "meta"])
    (f : ExistingFact) : ¬ AutoMerges py policy p f := by
  rintro ⟨das, fragment, hmerges, -⟩
  have hmem := Dict.has_iff.mp hmerges.marked
  rw [h] at hmem
  revert hmem
  decide

theorem NoAutoMergeAboveCap.decider {proposals : List Proposal}
    (h : NoAutoMergeAboveCap lib.py policy accepted proposals) {p : Proposal}
    (hp : Decider lib accepted proposals p) {f : ExistingFact}
    (hf : accepted.get p.target = some f) (hcap : policy.maxProvenance.tier < f.provenance.tier) :
    ¬ AutoMerges lib.py policy p f := by
  cases hp with
  | ordinary hmem =>
      have hft : f.target = p.target := AcceptedStore.get_target hf
      exact h f (AcceptedStore.mem_of_get hf) hcap p (by rw [hft]; exact hmem)
  | page _ _ _ _ hkeys => exact not_autoMerges_of_page hkeys f
  | candidate q _ _ _ hnone => simp [hnone] at hf

/-- Every entry of a report keeps to the authority of the accepted facts. -/
theorem reconcile_respects {proposals : List Proposal} {report : Report}
    (h : reconcile lib policy accepted proposals = .ok report)
    (hsafe : NoAutoMergeAboveCap lib.py policy accepted proposals) {e : Entry}
    (he : e ∈ report) : Respects policy accepted e := by
  cases reconcile_origin h he with
  | decided p hp hone => exact reconcileOne_respects hone fun f hf hcap => hsafe.decider hp hf hcap
  | flagged p _ hd hauto _ _ => exact .of_idle hauto (by simp [hd]) (by simp [hd])
  | skipped _ _ _ _ hd hauto => exact .of_idle hauto (by simp [hd]) (by simp [hd])
  | prune f hmem hfrozen hinferred _ htarget hd hauto =>
      refine ⟨?_, by simp [hd], by simp [hauto], by simp [hauto], by simp [hauto]⟩
      intro g hg hgf
      rw [htarget, AcceptedStore.get_of_mem hmem] at hg
      obtain rfl := Option.some.inj hg
      simp [hfrozen] at hgf

/-- So does every entry of a refined one, whatever the drafter chooses. -/
theorem refine_respects {proposals : List Proposal} {report report' : Report}
    {drafter : ReconcileDrafter} (h : reconcile lib policy accepted proposals = .ok report)
    (hsafe : NoAutoMergeAboveCap lib.py policy accepted proposals)
    (h' : refine lib.py policy drafter accepted report = .ok report') {e : Entry}
    (he : e ∈ report') : Respects policy accepted e := by
  rcases refine_origin h' he with he | ⟨c, hc, hd, hone⟩
  · exact reconcile_respects h hsafe he
  · obtain ⟨htarget, hp⟩ := contradiction_proposal h hc hd
    rw [← htarget] at hone
    exact reconcileOne_respects hone fun f hf hcap => hsafe.decider hp hf hcap

/-- A run keeps to the authority of the accepted facts, whatever a drafter chooses, exactly when no
proposal that can decide a target above the cap is an alternative merged unreviewed. -/
theorem authority_iff {proposals : List Proposal} {report : Report}
    (h : reconcile lib policy accepted proposals = .ok report) :
    (∀ drafter report', refine lib.py policy drafter accepted report = .ok report' →
      ∀ e ∈ report', Respects policy accepted e) ↔
    NoAutoMergeAboveCap lib.py policy accepted proposals := by
  constructor
  · intro hall f hf hcap p hp hauto
    have hgroup : p ∈ groupAt proposals f.target := mem_of_mem_deciders hp
    have htarget : p.target = f.target := target_of_mem_groupAt hgroup
    have hget : accepted.get f.target = some f := AcceptedStore.get_of_mem hf
    obtain ⟨e, he, hedit, hbreaks⟩ := hauto.breaks (by rw [htarget]; exact hget) hcap
    obtain ⟨es, hdecided, hsub⟩ := exists_decided_groupAt h (List.ne_nil_of_mem hgroup)
    cases hdecided with
    | one p' e' hdec hone hes =>
        obtain rfl : p = p' := by simpa [hdec] using hp
        rw [hget] at hone
        obtain rfl := Except.ok.inj (he.symm.trans hone)
        exact hbreaks (hall nullDrafter report (refine_nullDrafter report) e
          (hsub e (by simp [hes])))
    | flagged action hdec hsig hes =>
        -- the drafter chooses the alternative among the contradictions
        rw [hes] at hsub
        have hside : flaggedSide f.target action p ∈ report :=
          hsub _ (List.mem_map_of_mem hgroup)
        have hone : reconcileOne lib.py policy p (accepted.get f.target) = .ok e := by
          rw [hget]
          exact he
        obtain ⟨report', hrefine, hmem, -⟩ :=
          exists_refine hside rfl (two_le_contradictions hsig hsub) hone
        exact hbreaks (hall _ report' hrefine e hmem)
    | empty hnil _ => simp [hnil] at hgroup
  · intro hsafe drafter report' hrefine e he
    exact refine_respects h hsafe hrefine he

/-! ### A curated binding and an inferred alternative -/

private def recordedElsewhere : Proposal where
  target := "contracts/metrics/revenue.yaml"
  op := .edit
  content := [(daSentinel, .obj [("source", .str "looker"), ("ref", .str "orders.total"),
    ("reason", .str "replaced")])]
  confidence := .one

private def curatedRevenue : AcceptedStore where
  facts := [{
    target := "contracts/metrics/revenue.yaml", provenance := .humanCurated
    content := [("metric", .str "revenue"), ("deprecated_alternatives", .arr [])] }]
  nodup := List.nodup_singleton _

private def noPages : ReconcileLib where
  py := .plain
  render _ _ _ := .ok ⟨"", "", []⟩

/-- Under an enabled policy with the default cap, the alternative is merged into the curated
binding without review. -/
theorem authority_counterexample :
    ∃ report report', reconcile noPages { enabled := true, minConfidence := .one } curatedRevenue
        [recordedElsewhere] = .ok report ∧
      refine noPages.py { enabled := true, minConfidence := .one } nullDrafter curatedRevenue
        report = .ok report' ∧
      ¬ ∀ e ∈ report', Respects { enabled := true, minConfidence := .one } curatedRevenue e := by
  obtain ⟨report, hreport, hauto⟩ : ∃ report, reconcile noPages
      { enabled := true, minConfidence := .one } curatedRevenue [recordedElsewhere] = .ok report ∧
      (report.any fun e => e.autoApply && e.target == "contracts/metrics/revenue.yaml") = true :=
    exists_ok_of_any (by decide +kernel)
  refine ⟨report, report, hreport, refine_nullDrafter report, ?_⟩
  intro hall
  obtain ⟨e, he, hboth⟩ := List.any_eq_true.mp hauto
  obtain ⟨hauto, htarget⟩ := Bool.and_eq_true_iff.mp hboth
  obtain ⟨f, hf, hcap⟩ : ∃ f, curatedRevenue.get "contracts/metrics/revenue.yaml" = some f ∧
      f.provenance.tier = 1 := ⟨_, rfl, rfl⟩
  have hle := (hall e he).capped hauto f (by rw [beq_iff_eq.mp htarget]; exact hf)
  rw [hcap] at hle
  exact absurd hle (by decide)

/-- Under the default policy, which applies nothing unreviewed, no drafter can break authority. -/
theorem authority_iff_propose_only :
    ∃ report, reconcile noPages { minConfidence := .one } curatedRevenue [recordedElsewhere] =
        .ok report ∧
      ∀ drafter report', refine noPages.py { minConfidence := .one } drafter curatedRevenue report =
        .ok report' → ∀ e ∈ report', Respects { minConfidence := .one } curatedRevenue e := by
  obtain ⟨report, hreport⟩ := exists_ok_of_isOk (x := reconcile noPages { minConfidence := .one }
    curatedRevenue [recordedElsewhere]) (by decide +kernel)
  refine ⟨report, hreport, (authority_iff hreport).mpr ?_⟩
  rintro f - - p - ⟨das, fragment, -, hauto⟩
  simp [autoApplyEligible] at hauto

end Canonic
