import Canonic.Ingestion.Reconciliation

set_option autoImplicit false

/-! # What a run can decide

One lemma for each stage of a run: which entries it yields, and from which proposals. `Decided`
lists the outcomes of the decision table; `deciders` are the proposals of a target that the table
is applied to, or that a drafter may choose from; `Origin` says where an entry of the report comes
from. The results on whole runs are case analyses over these. -/

namespace Canonic

variable {lib : ReconcileLib} {py : PyLib} {policy : AutoApplyConfig} {accepted : AcceptedStore}

/-! ## The decision table -/

/-- A deprecated alternative that is merged: the fragment of the proposal, and the recorded
alternatives it is appended to. -/
structure Merges (py : PyLib) (p : Proposal) (f : ExistingFact) (das : List Json)
    (fragment : Content) : Prop where
  marked : Dict.has p.content daSentinel = true
  unflagged : Dict.has p.content answerOutcomeSentinel = false
  changed : fingerprintsMatch py f p = false
  unfrozen : f.frozen = false
  fragment_eq : (Dict.item p.content daSentinel >>= asDict) = .ok fragment
  das_eq : deprecatedAlternatives f.content = .ok das
  fresh : hasRef py (py.str (Dict.getD fragment "ref" (.str ""))) das = .ok false

/-- The outcomes of the decision table for a proposal and the fact at its target. -/
inductive Decided (py : PyLib) (policy : AutoApplyConfig) (p : Proposal)
    (existing : Option ExistingFact) (e : Entry) : Prop where
  | contradiction (decision : e.decision = .contradiction) (auto : e.autoApply = false)
      (own : e.proposal = p)
  | noOp (decision : e.decision = .noOp) (auto : e.autoApply = false) (own : e.proposal = p)
  | add (absent : existing = none) (unflagged : Dict.has p.content answerOutcomeSentinel = false)
      (decision : e.decision = .add) (auto : e.autoApply = autoApplyEligible policy p none)
      (own : e.proposal = p)
  | edit (f : ExistingFact) (present : existing = some f)
      (unflagged : Dict.has p.content answerOutcomeSentinel = false)
      (unmarked : Dict.has p.content daSentinel = false) (unfrozen : f.frozen = false)
      (outranks : f.provenance.tier ≤ p.provenance.tier) (decision : e.decision = .edit)
      (auto : e.autoApply = autoApplyEligible policy p (some f)) (own : e.proposal = p)
  | merge (f : ExistingFact) (das : List Json) (fragment : Content) (present : existing = some f)
      (merges : Merges py p f das fragment) (decision : e.decision = .edit)
      (auto : e.autoApply =
        autoApplyEligible policy (mergedProposal p f das fragment) (some f))
      (own : e.proposal = mergedProposal p f das fragment)

theorem mergeDeprecatedAlternative_decided {p : Proposal} {f : ExistingFact} {e : Entry}
    (hmarked : Dict.has p.content daSentinel = true)
    (hflag : Dict.has p.content answerOutcomeSentinel = false)
    (hfp : fingerprintsMatch py f p = false)
    (h : mergeDeprecatedAlternative py policy p f = .ok e) :
    e.target = p.target ∧ Decided py policy p (some f) e := by
  rw [mergeDeprecatedAlternative] at h
  split at h
  · obtain rfl := pure_eq_ok.mp h
    exact ⟨rfl, .contradiction rfl rfl rfl⟩
  · rename_i hfrozen
    obtain ⟨value, hvalue, h⟩ := bind_eq_ok.mp h
    obtain ⟨fragment, hfragment, h⟩ := bind_eq_ok.mp h
    obtain ⟨das, hdas, h⟩ := bind_eq_ok.mp h
    obtain ⟨known, hknown, h⟩ := bind_eq_ok.mp h
    cases known with
    | true =>
        obtain rfl := pure_eq_ok.mp h
        exact ⟨rfl, .noOp rfl rfl rfl⟩
    | false =>
        obtain rfl := pure_eq_ok.mp h
        have hmerges : Merges py p f das fragment :=
          { marked := hmarked
            unflagged := hflag
            changed := hfp
            unfrozen := by simpa using hfrozen
            fragment_eq := bind_eq_ok.mpr ⟨value, hvalue, hfragment⟩
            das_eq := hdas
            fresh := hknown }
        exact ⟨rfl, .merge f das fragment rfl hmerges rfl rfl rfl⟩

theorem reconcileOne_decided {p : Proposal} {existing : Option ExistingFact} {e : Entry}
    (h : reconcileOne py policy p existing = .ok e) :
    e.target = p.target ∧ Decided py policy p existing e := by
  unfold reconcileOne at h
  split at h
  · obtain rfl := pure_eq_ok.mp h
    exact ⟨rfl, .contradiction rfl rfl rfl⟩
  · rename_i hflag
    have hflag' : Dict.has p.content answerOutcomeSentinel = false := by simpa using hflag
    cases existing with
    | none =>
        obtain rfl := pure_eq_ok.mp h
        exact ⟨rfl, .add rfl hflag' rfl rfl rfl⟩
    | some f =>
        simp only at h
        split at h
        · obtain rfl := pure_eq_ok.mp h
          exact ⟨rfl, .noOp rfl rfl rfl⟩
        · rename_i hfp
          have hfp' : fingerprintsMatch py f p = false := by simpa using hfp
          split at h
          · rename_i hmarked
            exact mergeDeprecatedAlternative_decided hmarked hflag' hfp' h
          · rename_i hmarked
            split at h
            · obtain rfl := pure_eq_ok.mp h
              exact ⟨rfl, .contradiction rfl rfl rfl⟩
            · rename_i hfrozen
              split at h
              · obtain rfl := pure_eq_ok.mp h
                exact ⟨rfl, .contradiction rfl rfl rfl⟩
              · rename_i htier
                obtain rfl := pure_eq_ok.mp h
                exact ⟨rfl, .edit f rfl hflag' (by simpa using hmarked) (by simpa using hfrozen)
                  (by omega) rfl rfl rfl⟩

/-- A deprecated alternative that can be merged is. -/
theorem Merges.reconcileOne_eq {p : Proposal} {f : ExistingFact} {das : List Json}
    {fragment : Content} (h : Merges py p f das fragment) :
    reconcileOne py policy p (some f) =
      .ok { Entry.against .edit (mergedProposal p f das fragment) f with
        autoApply := autoApplyEligible policy (mergedProposal p f das fragment) (some f) } := by
  obtain ⟨value, hvalue, hfragment⟩ := bind_eq_ok.mp h.fragment_eq
  simp only [reconcileOne, h.unflagged, h.changed, h.marked, mergeDeprecatedAlternative,
    h.unfrozen, hvalue, hfragment, h.das_eq, h.fresh, ok_bind, if_true, if_false,
    Bool.false_eq_true]
  rfl

/-! ## Groups -/

/-- The proposal of a disagreeing group that its curation rank makes win. -/
def preferred (py : PyLib) (group : List Proposal) : Option Proposal :=
  match winnersOf group with
  | winner :: _ =>
      if !(losersOf group).isEmpty && signatureCount py (winnersOf group) == 1 &&
          (hasTypeConflict winner (losersOf group)).toOption == some false
      then some winner else none
  | [] => none

/-- The proposals of a target one of which decides it: the first where all agree, the preferred one
where one is, and otherwise all of them, for a drafter to choose from. -/
def deciders (py : PyLib) (group : List Proposal) : List Proposal :=
  if 1 < signatureCount py group then
    match preferred py group with
    | some winner => [winner]
    | none => group
  else group.take 1

theorem mem_of_preferred {group : List Proposal} {winner : Proposal}
    (h : preferred py group = some winner) : winner ∈ group := by
  unfold preferred at h
  cases hw : winnersOf group with
  | nil => simp [hw] at h
  | cons w rest =>
      simp only [hw] at h
      split at h
      · obtain rfl := Option.some.inj h
        have hmem : w ∈ winnersOf group := by simp [hw]
        exact List.mem_of_mem_filter hmem
      · simp at h

theorem mem_of_mem_deciders {group : List Proposal} {p : Proposal} (h : p ∈ deciders py group) :
    p ∈ group := by
  unfold deciders at h
  split at h
  · cases hpref : preferred py group with
    | none => simpa [hpref] using h
    | some winner =>
        rw [hpref, List.mem_singleton] at h
        rw [h]
        exact mem_of_preferred hpref
  · exact List.mem_of_mem_take h

/-- A group with several signatures has two sides. -/
theorem one_lt_signatureCount {group : List Proposal} : 1 < signatureCount py group ↔
    ∃ p ∈ group, ∃ q ∈ group, signature py p ≠ signature py q := by
  rw [signatureCount, ← List.card_toFinset, Finset.one_lt_card]
  simp

/-- A group of one proposal has one signature. -/
theorem not_one_lt_signatureCount_singleton (p : Proposal) : ¬ 1 < signatureCount py [p] := by
  simp [signatureCount]

/-- A group is decided by one proposal, or flagged as a whole. -/
inductive GroupDecided (py : PyLib) (policy : AutoApplyConfig) (accepted : AcceptedStore)
    (target : String) (group : List Proposal) (es : List Entry) : Prop where
  | one (p : Proposal) (e : Entry) (decides : deciders py group = [p])
      (decided : reconcileOne py policy p (accepted.get target) = .ok e) (entries : es = [e])
  | flagged (action : String) (all : deciders py group = group)
      (disagree : 1 < signatureCount py group)
      (entries : es = contradictingSources target group action)
  | empty (group_nil : group = []) (entries : es = [])

theorem resolveGroup_decided {target : String} {group : List Proposal} {es : List Entry}
    (hsig : 1 < signatureCount py group)
    (h : resolveGroup py policy accepted target group = .ok es) :
    GroupDecided py policy accepted target group es := by
  have hall : preferred py group = none → deciders py group = group := by
    intro hnone
    rw [deciders, if_pos hsig, hnone]
  rw [resolveGroup] at h
  cases hw : winnersOf group with
  | nil =>
      rw [hw] at h
      obtain rfl := pure_eq_ok.mp h
      exact .flagged _ (hall (by simp [preferred, hw])) hsig rfl
  | cons winner rest =>
      rw [hw] at h
      simp only [← hw] at h
      split at h
      · rename_i hcond
        obtain ⟨conflict, hconflict, h⟩ := bind_eq_ok.mp h
        cases conflict with
        | true =>
            obtain rfl := pure_eq_ok.mp h
            refine .flagged _ (hall ?_) hsig rfl
            simp [preferred, hw, hconflict, Except.toOption]
        | false =>
            obtain ⟨e, he, h⟩ := bind_eq_ok.mp h
            obtain rfl := pure_eq_ok.mp h
            refine .one winner e ?_ he rfl
            have hpref : preferred py group = some winner := by
              simp only [preferred, hw, hconflict, Except.toOption]
              rw [← hw, if_pos]
              simpa using hcond
            rw [deciders, if_pos hsig, hpref]
      · rename_i hcond
        obtain rfl := pure_eq_ok.mp h
        refine .flagged _ (hall ?_) hsig rfl
        simp only [preferred, hw]
        rw [← hw, if_neg]
        intro hand
        exact hcond (by simpa using (Bool.and_eq_true_iff.mp hand).1)

theorem decideGroup_decided {target : String} {group : List Proposal} {es : List Entry}
    (h : decideGroup py policy accepted target group = .ok es) :
    GroupDecided py policy accepted target group es := by
  unfold decideGroup at h
  split at h
  · rename_i hsig
    exact resolveGroup_decided hsig h
  · rename_i hsig
    cases group with
    | nil =>
        obtain rfl := pure_eq_ok.mp h
        exact .empty rfl rfl
    | cons p rest =>
        obtain ⟨e, he, h⟩ := bind_eq_ok.mp h
        obtain rfl := pure_eq_ok.mp h
        exact .one p e (by rw [deciders, if_neg hsig]; rfl) he rfl

theorem mem_decideGroups {groups : Dict (List Proposal)} {es : List Entry}
    (h : decideGroups py policy accepted groups = .ok es) {e : Entry} :
    e ∈ es ↔
      ∃ t g es', (t, g) ∈ groups ∧ decideGroup py policy accepted t g = .ok es' ∧ e ∈ es' := by
  obtain ⟨parts, hparts, h⟩ := bind_eq_ok.mp h
  obtain rfl := pure_eq_ok.mp h
  have hall := mapM_eq_ok.mp hparts
  rw [List.mem_flatten]
  constructor
  · rintro ⟨es', hes', he⟩
    obtain ⟨⟨t, g⟩, hg, hdecided⟩ := forall₂_mem_right hall hes'
    exact ⟨t, g, es', hg, hdecided, he⟩
  · rintro ⟨t, g, es', hg, hdecided, he⟩
    obtain ⟨es'', hes'', hdecided'⟩ := forall₂_mem_left hall hg
    obtain rfl := Except.ok.inj (hdecided.symm.trans hdecided')
    exact ⟨es', hes'', he⟩

/-- Every group of a run that has a report is decided. -/
theorem exists_decideGroup {groups : Dict (List Proposal)} {es : List Entry}
    (h : decideGroups py policy accepted groups = .ok es) {t : String} {g : List Proposal}
    (hg : (t, g) ∈ groups) : ∃ es', decideGroup py policy accepted t g = .ok es' := by
  obtain ⟨parts, hparts, -⟩ := bind_eq_ok.mp h
  obtain ⟨es', -, hdecided⟩ := forall₂_mem_left (mapM_eq_ok.mp hparts) hg
  exact ⟨es', hdecided⟩

/-! ## Candidates, pages and prunes -/

section Resolve

variable {sources : Dict Content} {reconcileNew : Proposal → Reads Entry}

/-- A candidate ends as a no-op, or as a new file where there is none. -/
structure CandidateDecided (accepted : AcceptedStore) (reconcileNew : Proposal → Reads Entry)
    (p : Proposal) (e : Entry) : Prop where
  outcome : (e.decision = .noOp ∧ e.autoApply = false ∧ e.target = p.target) ∨
    (accepted.get p.target = none ∧ reconcileNew p.strip = .ok e)

theorem resolveCandidate_decided {bound bound' : List String} {p : Proposal} {e : Entry}
    (h : resolveCandidate py accepted sources reconcileNew bound p = .ok (e, bound')) :
    CandidateDecided accepted reconcileNew p e := by
  unfold resolveCandidate at h
  cases hget : accepted.get p.target with
  | some f =>
      rw [hget] at h
      obtain ⟨rfl, -⟩ := Prod.mk.inj (pure_eq_ok.mp h)
      exact ⟨.inl ⟨rfl, rfl, rfl⟩⟩
  | none =>
      rw [hget] at h
      obtain ⟨missing, hmissing, h⟩ := bind_eq_ok.mp h
      cases missing with
      | some reason =>
          obtain ⟨rfl, -⟩ := Prod.mk.inj (pure_eq_ok.mp h)
          exact ⟨.inl ⟨rfl, rfl, rfl⟩⟩
      | none =>
          obtain ⟨entry, hentry, h⟩ := bind_eq_ok.mp h
          obtain ⟨metric, -, h⟩ := bind_eq_ok.mp h
          obtain ⟨rfl, -⟩ := Prod.mk.inj (pure_eq_ok.mp h)
          exact ⟨.inr ⟨hget, hentry⟩⟩

theorem resolveReady_decided {bound bound' : List String} {ps : List Proposal} {es : List Entry}
    (h : resolveReady py accepted sources reconcileNew bound ps = .ok (es, bound')) {e : Entry}
    (he : e ∈ es) : ∃ p ∈ ps, CandidateDecided accepted reconcileNew p e := by
  induction ps generalizing bound es with
  | nil =>
      obtain ⟨rfl, -⟩ := Prod.mk.inj (Except.ok.inj h)
      simp at he
  | cons p ps ih =>
      obtain ⟨⟨entry, mid⟩, hone, h⟩ := bind_eq_ok.mp h
      obtain ⟨⟨entries, last⟩, hrest, h⟩ := bind_eq_ok.mp h
      obtain ⟨rfl, rfl⟩ := Prod.mk.inj (pure_eq_ok.mp h)
      rcases List.mem_cons.mp he with rfl | he
      · exact ⟨p, List.mem_cons_self, resolveCandidate_decided hone⟩
      · obtain ⟨q, hq, hdecided⟩ := ih hrest he
        exact ⟨q, List.mem_cons_of_mem p hq, hdecided⟩

theorem mem_of_mem_waitingOf {pending waiting : List Proposal}
    (h : waitingOf py pending = .ok waiting) {p : Proposal} (hp : p ∈ waiting) : p ∈ pending := by
  obtain ⟨flags, -, h⟩ := bind_eq_ok.mp h
  obtain rfl := pure_eq_ok.mp h
  obtain ⟨⟨q, flag⟩, hq, rfl⟩ := List.mem_map.mp hp
  exact (List.of_mem_zip (List.mem_filter.mp hq).1).1

/-- A round only moves candidates that are pending. -/
theorem mem_of_mem_roundOf {pending waiting : List Proposal} {p : Proposal}
    (hwaiting : ∀ q ∈ waiting, q ∈ pending)
    (h : p ∈ (roundOf pending waiting).1 ∨ p ∈ (roundOf pending waiting).2) : p ∈ pending := by
  simp only [roundOf] at h
  split at h
  · exact hwaiting p (by simpa using h)
  · rcases h with h | h
    · exact List.mem_of_mem_filter h
    · exact hwaiting p h

theorem resolveRounds_decided {n : Nat} {bound : List String} {pending : List Proposal}
    {es : List Entry}
    (h : resolveRounds py accepted sources reconcileNew n bound pending = .ok es) {e : Entry}
    (he : e ∈ es) : ∃ p ∈ pending, CandidateDecided accepted reconcileNew p e := by
  induction n generalizing bound pending es with
  | zero =>
      obtain rfl := Except.ok.inj h
      simp at he
  | succ n ih =>
      cases pending with
      | nil =>
          obtain rfl := Except.ok.inj h
          simp at he
      | cons p ps =>
          obtain ⟨waiting, hwaiting, h⟩ := bind_eq_ok.mp h
          obtain ⟨⟨entries, mid⟩, hready, h⟩ := bind_eq_ok.mp h
          obtain ⟨later, hlater, h⟩ := bind_eq_ok.mp h
          obtain rfl := pure_eq_ok.mp h
          rcases List.mem_append.mp he with he | he
          · obtain ⟨q, hq, hdecided⟩ := resolveReady_decided hready he
            exact ⟨q, mem_of_mem_roundOf (fun _ => mem_of_mem_waitingOf hwaiting) (.inl hq),
              hdecided⟩
          · obtain ⟨q, hq, hdecided⟩ := ih hlater he
            exact ⟨q, mem_of_mem_roundOf (fun _ => mem_of_mem_waitingOf hwaiting) (.inr hq),
              hdecided⟩

end Resolve

/-- A rendered page: the target of its draft, and the two fields of a page. -/
theorem renderPageDraft_eq_ok {sources : Dict Content} {draft page : Proposal}
    (h : renderPageDraft lib sources draft = .ok page) :
    page.target = draft.target ∧ page.content.map (·.1) = ["body", "meta"] := by
  obtain ⟨doc, -, h⟩ := bind_eq_ok.mp h
  obtain ⟨rendered, -, h⟩ := bind_eq_ok.mp h
  obtain rfl := pure_eq_ok.mp h
  exact ⟨rfl, rfl⟩

/-- A prune is of an inferred fact that is not frozen and that nothing addressed. -/
theorem mem_pruneDisappeared {addressed : List String} {e : Entry}
    (h : e ∈ pruneDisappeared accepted addressed) :
    ∃ f ∈ accepted.facts, f.frozen = false ∧ f.provenance = .inferred ∧ f.target ∉ addressed ∧
      e.target = f.target ∧ e.decision = .prune ∧ e.autoApply = false := by
  obtain ⟨f, hf, rfl⟩ := List.mem_map.mp h
  rw [List.mem_insertionSort, List.mem_filter] at hf
  obtain ⟨hmem, hgone⟩ := hf
  simp only [Bool.and_eq_true, decide_eq_true_eq, Bool.not_eq_true', beq_iff_eq] at hgone
  exact ⟨f, hmem, hgone.1.2, hgone.2, hgone.1.1, rfl, rfl, rfl⟩

/-! ## The entries of a report -/

/-- The ordinary proposals of a target. -/
def groupAt (proposals : List Proposal) (target : String) : List Proposal :=
  (proposals.filter isOrdinary).filter fun p => p.target = target

theorem target_of_mem_groupAt {proposals : List Proposal} {target : String} {p : Proposal}
    (h : p ∈ groupAt proposals target) : p.target = target := by
  simpa using (List.mem_filter.mp h).2

/-- A proposal that decides its target in a run, or that a drafter may make do so. -/
inductive Decider (lib : ReconcileLib) (accepted : AcceptedStore) (proposals : List Proposal)
    (p : Proposal) : Prop where
  | ordinary (mem : p ∈ deciders lib.py (groupAt proposals p.target))
  | page (draft : Proposal) (mem : draft ∈ proposals) (marked : isPageDraft draft = true)
      (target : p.target = draft.target) (rendered : p.content.map (·.1) = ["body", "meta"])
  | candidate (q : Proposal) (mem : q ∈ proposals) (marked : isCandidate q = true)
      (stripped : p = q.strip) (absent : accepted.get p.target = none)

/-- Where an entry of a report comes from. -/
inductive Origin (lib : ReconcileLib) (policy : AutoApplyConfig) (accepted : AcceptedStore)
    (proposals : List Proposal) (e : Entry) : Prop where
  | decided (p : Proposal) (decider : Decider lib accepted proposals p)
      (decided : reconcileOne lib.py policy p (accepted.get p.target) = .ok e)
  | flagged (p : Proposal) (decider : Decider lib accepted proposals p)
      (decision : e.decision = .contradiction) (auto : e.autoApply = false)
      (own : e.proposal = p) (target : e.target = p.target)
  | skipped (p : Proposal) (mem : p ∈ proposals) (marked : isCandidate p = true)
      (target : e.target = p.target) (decision : e.decision = .noOp) (auto : e.autoApply = false)
  | prune (f : ExistingFact) (mem : f ∈ accepted.facts) (unfrozen : f.frozen = false)
      (inferred : f.provenance = .inferred) (unaddressed : ∀ p ∈ proposals, p.target ≠ f.target)
      (target : e.target = f.target) (decision : e.decision = .prune) (auto : e.autoApply = false)

/-- The entries of a group come from its deciders. -/
theorem GroupDecided.origin {proposals : List Proposal} {target : String} {group : List Proposal}
    {es : List Entry} (h : GroupDecided lib.py policy accepted target group es)
    (hdecider : ∀ p ∈ deciders lib.py group, p.target = target ∧ Decider lib accepted proposals p)
    {e : Entry} (he : e ∈ es) : Origin lib policy accepted proposals e := by
  cases h with
  | one p e' hdec hp hes =>
      obtain rfl : e = e' := by simpa [hes] using he
      obtain ⟨rfl, hd⟩ := hdecider p (by simp [hdec])
      exact .decided p hd hp
  | flagged action hall hsig hes =>
      rw [hes] at he
      obtain ⟨p, hp, rfl⟩ := List.mem_map.mp he
      obtain ⟨rfl, hd⟩ := hdecider p (by rw [hall]; exact hp)
      exact .flagged p hd rfl rfl rfl rfl
  | empty _ hes => simp [hes] at he

theorem mem_keys_groupByTarget {ps : List Proposal} {p : Proposal} (h : p ∈ ps) :
    p.target ∈ (groupByTarget ps).map (·.1) :=
  List.mem_map.mpr ⟨(p.target, _), (Dict.mem_groupBy _).mpr
    ⟨rfl, List.ne_nil_of_mem (List.mem_filter.mpr ⟨h, by simp⟩)⟩, rfl⟩

/-- The target of every proposal is addressed. -/
theorem mem_addressed {proposals decidedPages : List Proposal} {sources : Dict Content}
    (h : (proposals.filter isPageDraft).mapM (renderPageDraft lib sources) = .ok decidedPages)
    {p : Proposal} (hp : p ∈ proposals) :
    p.target ∈ (groupByTarget (proposals.filter isOrdinary)).map (·.1) ++
      (groupByTarget decidedPages).map (·.1) ++ (proposals.filter isCandidate).map (·.target) := by
  by_cases hcand : isCandidate p = true
  · exact List.mem_append_right _ (List.mem_map_of_mem (List.mem_filter.mpr ⟨hp, hcand⟩))
  · refine List.mem_append_left _ ?_
    by_cases hdraft : isPageDraft p = true
    · obtain ⟨page, hpage, hrender⟩ :=
        forall₂_mem_left (mapM_eq_ok.mp h) (List.mem_filter.mpr ⟨hp, hdraft⟩)
      refine List.mem_append_right _ ?_
      rw [← (renderPageDraft_eq_ok hrender).1]
      exact mem_keys_groupByTarget hpage
    · exact List.mem_append_left _ (mem_keys_groupByTarget
        (List.mem_filter.mpr ⟨hp, by simp [isOrdinary, hcand, hdraft]⟩))

theorem reconcile_origin {proposals : List Proposal} {report : Report}
    (h : reconcile lib policy accepted proposals = .ok report) {e : Entry} (he : e ∈ report) :
    Origin lib policy accepted proposals e := by
  obtain ⟨decided, hdecided, h⟩ := bind_eq_ok.mp h
  obtain ⟨pages, hpages, h⟩ := bind_eq_ok.mp h
  obtain ⟨pageDecided, hpageDecided, h⟩ := bind_eq_ok.mp h
  obtain ⟨resolved, hresolved, h⟩ := bind_eq_ok.mp h
  obtain rfl := pure_eq_ok.mp h
  rcases List.mem_append.mp he with he | he
  · rcases List.mem_append.mp he with he | he
    · rcases List.mem_append.mp he with he | he
      · obtain ⟨t, g, es, hg, hes, hmem⟩ := (mem_decideGroups hdecided).mp he
        obtain ⟨rfl, -⟩ := (Dict.mem_groupBy _).mp hg
        refine (decideGroup_decided hes).origin (fun p hp => ?_) hmem
        obtain rfl := target_of_mem_groupAt (mem_of_mem_deciders hp)
        exact ⟨rfl, .ordinary hp⟩
      · obtain ⟨t, g, es, hg, hes, hmem⟩ := (mem_decideGroups hpageDecided).mp he
        obtain ⟨rfl, -⟩ := (Dict.mem_groupBy _).mp hg
        refine (decideGroup_decided hes).origin (fun p hp => ?_) hmem
        obtain ⟨hpage, htarget⟩ := List.mem_filter.mp (mem_of_mem_deciders hp)
        obtain ⟨draft, hdraft, hrender⟩ := forall₂_mem_right (mapM_eq_ok.mp hpages) hpage
        obtain ⟨hmem, hmarked⟩ := List.mem_filter.mp hdraft
        obtain ⟨hsame, hkeys⟩ := renderPageDraft_eq_ok hrender
        exact ⟨by simpa using htarget, .page draft hmem hmarked hsame hkeys⟩
    · obtain ⟨p, hp, hone⟩ := resolveRounds_decided hresolved he
      obtain ⟨hmem, hmarked⟩ := List.mem_filter.mp hp
      rcases hone.outcome with ⟨hnoOp, hauto, htarget⟩ | ⟨hnone, hnew⟩
      · exact .skipped p hmem hmarked htarget hnoOp hauto
      · have hnone' : accepted.get p.strip.target = none := hnone
        exact .decided p.strip (.candidate p hmem hmarked rfl hnone') (by rw [hnone']; exact hnew)
  · obtain ⟨f, hf, hfrozen, hinferred, hgone, htarget, hdecision, hauto⟩ := mem_pruneDisappeared he
    refine .prune f hf hfrozen hinferred (fun p hp heq => hgone ?_) htarget hdecision hauto
    rw [← heq]
    exact mem_addressed hpages hp

/-- An inferred fact that is not frozen and that no proposal addresses is pruned. -/
theorem exists_prune {proposals : List Proposal} {report : Report}
    (h : reconcile lib policy accepted proposals = .ok report) {f : ExistingFact}
    (hf : f ∈ accepted.facts) (hfrozen : f.frozen = false) (hinferred : f.provenance = .inferred)
    (hgone : ∀ p ∈ proposals, p.target ≠ f.target) :
    ∃ e ∈ report, e.target = f.target ∧ e.decision = .prune := by
  obtain ⟨decided, -, h⟩ := bind_eq_ok.mp h
  obtain ⟨pages, hpages, h⟩ := bind_eq_ok.mp h
  obtain ⟨pageDecided, -, h⟩ := bind_eq_ok.mp h
  obtain ⟨resolved, -, h⟩ := bind_eq_ok.mp h
  obtain rfl := pure_eq_ok.mp h
  have hkeys : ∀ ps : List Proposal, f.target ∈ (groupByTarget ps).map (·.1) →
      ∃ p ∈ ps, p.target = f.target := by
    intro ps hmem
    obtain ⟨⟨t, g⟩, hg, rfl⟩ := List.mem_map.mp hmem
    obtain ⟨rfl, hne⟩ := (Dict.mem_groupBy _).mp hg
    obtain ⟨p, hp⟩ := List.exists_mem_of_ne_nil _ hne
    obtain ⟨hp, htarget⟩ := List.mem_filter.mp hp
    exact ⟨p, hp, by simpa using htarget⟩
  have hunaddressed : f.target ∉ (groupByTarget (proposals.filter isOrdinary)).map (·.1) ++
      (groupByTarget pages).map (·.1) ++ (proposals.filter isCandidate).map (·.target) := by
    intro hmem
    rcases List.mem_append.mp hmem with hmem | hmem
    · rcases List.mem_append.mp hmem with hmem | hmem
      · obtain ⟨p, hp, htarget⟩ := hkeys _ hmem
        exact hgone p (List.mem_of_mem_filter hp) htarget
      · obtain ⟨page, hpage, htarget⟩ := hkeys _ hmem
        obtain ⟨draft, hdraft, hrender⟩ := forall₂_mem_right (mapM_eq_ok.mp hpages) hpage
        rw [(renderPageDraft_eq_ok hrender).1] at htarget
        exact hgone draft (List.mem_of_mem_filter hdraft) htarget
    · obtain ⟨p, hp, htarget⟩ := List.mem_map.mp hmem
      exact hgone p (List.mem_of_mem_filter hp) htarget
  refine ⟨_, List.mem_append_right _ (List.mem_map.mpr ⟨f, ?_, rfl⟩), rfl, rfl⟩
  rw [List.mem_insertionSort, List.mem_filter]
  refine ⟨hf, ?_⟩
  rw [decide_eq_true hunaddressed, hfrozen, hinferred]
  rfl

/-- The ordinary proposals of a target are decided, and the entries are in the report. -/
theorem exists_decided_groupAt {proposals : List Proposal} {report : Report}
    (h : reconcile lib policy accepted proposals = .ok report) {target : String}
    (hne : groupAt proposals target ≠ []) :
    ∃ es, GroupDecided lib.py policy accepted target (groupAt proposals target) es ∧
      ∀ e ∈ es, e ∈ report := by
  obtain ⟨decided, hdecided, h⟩ := bind_eq_ok.mp h
  obtain ⟨pages, -, h⟩ := bind_eq_ok.mp h
  obtain ⟨pageDecided, -, h⟩ := bind_eq_ok.mp h
  obtain ⟨resolved, -, h⟩ := bind_eq_ok.mp h
  obtain rfl := pure_eq_ok.mp h
  have hg : (target, groupAt proposals target) ∈ groupByTarget (proposals.filter isOrdinary) :=
    (Dict.mem_groupBy _).mpr ⟨rfl, hne⟩
  obtain ⟨es, hes⟩ := exists_decideGroup hdecided hg
  refine ⟨es, decideGroup_decided hes, ?_⟩
  intro e he
  have hmem : e ∈ decided := (mem_decideGroups hdecided).mpr ⟨target, _, es, hg, hes, he⟩
  simp [hmem]

/-- The entries of a group carry its target. -/
theorem GroupDecided.target_eq {target : String} {group : List Proposal} {es : List Entry}
    (h : GroupDecided py policy accepted target group es) (hgroup : ∀ p ∈ group, p.target = target)
    {e : Entry} (he : e ∈ es) : e.target = target := by
  cases h with
  | one p e' hdec hone hes =>
      obtain rfl : e = e' := by simpa [hes] using he
      have hp : p ∈ deciders py group := by simp [hdec]
      rw [(reconcileOne_decided hone).1, hgroup p (mem_of_mem_deciders hp)]
  | flagged action _ _ hes =>
      rw [hes] at he
      obtain ⟨p, -, rfl⟩ := List.mem_map.mp he
      rfl
  | empty _ hes => simp [hes] at he

/-- Where each part has the key of its group, the entries of one target are one part. -/
theorem flatten_at {γ : Type} {R : String × γ → List Entry → Prop} {groups : Dict γ}
    {parts : List (List Entry)} (h : List.Forall₂ R groups parts)
    (hkey : ∀ g part, R g part → ∀ e ∈ part, e.target = g.1)
    (hnd : (groups.map (·.1)).Nodup) (t : String) :
    (t ∉ groups.map (·.1) ∧ parts.flatten.filter (fun e => e.target = t) = []) ∨
      ∃ g part, (t, g) ∈ groups ∧ R (t, g) part ∧
        parts.flatten.filter (fun e => e.target = t) = part := by
  induction h with
  | nil => exact .inl ⟨by simp, rfl⟩
  | @cons group part groups parts hR _ ih =>
      rw [List.map_cons, List.nodup_cons] at hnd
      rw [List.flatten_cons, List.filter_append]
      by_cases ht : group.1 = t
      · subst ht
        have hhere : part.filter (fun e => e.target = group.1) = part := by
          rw [List.filter_eq_self]
          exact fun e he => by simpa using hkey group part hR e he
        have hthere : parts.flatten.filter (fun e => e.target = group.1) = [] := by
          rcases ih hnd.2 with ⟨-, hnil⟩ | ⟨g, _, hg, -⟩
          · exact hnil
          · exact absurd (List.mem_map_of_mem hg) hnd.1
        exact .inr ⟨group.2, part, List.mem_cons_self, hR, by rw [hhere, hthere, List.append_nil]⟩
      · have hhere : part.filter (fun e => e.target = t) = [] := by
          rw [List.filter_eq_nil_iff]
          exact fun e he => by simpa [hkey group part hR e he] using ht
        rw [hhere, List.nil_append]
        rcases ih hnd.2 with ⟨hno, hnil⟩ | ⟨g, part', hg, hR', heq⟩
        · exact .inl ⟨by simpa [Ne.symm ht] using hno, hnil⟩
        · exact .inr ⟨g, part', List.mem_cons_of_mem _ hg, hR', heq⟩

/-- The decisions at a target are those for its proposals. -/
theorem decideGroups_at {ps : List Proposal} {es : List Entry}
    (h : decideGroups py policy accepted (groupByTarget ps) = .ok es) (t : String) :
    GroupDecided py policy accepted t (ps.filter fun p => p.target = t)
      (es.filter fun e => e.target = t) := by
  obtain ⟨parts, hparts, h⟩ := bind_eq_ok.mp h
  obtain rfl := pure_eq_ok.mp h
  have hall : List.Forall₂ (fun g part => GroupDecided py policy accepted g.1 g.2 part ∧
      ∀ p ∈ g.2, p.target = g.1) (groupByTarget ps) parts := by
    refine (List.forall₂_and_left (p := fun g : String × List Proposal =>
      ∀ p ∈ g.2, p.target = g.1) _ _).mpr ⟨?_, ?_⟩ |>.imp fun g part hboth => ⟨hboth.2, hboth.1⟩
    · rintro ⟨t, g⟩ hg p hp
      obtain ⟨rfl, -⟩ := (Dict.mem_groupBy _).mp hg
      simpa using (List.mem_filter.mp hp).2
    · exact (mapM_eq_ok.mp hparts).imp fun g part hdecided => decideGroup_decided hdecided
  have hnd : ((groupByTarget ps).map (·.1)).Nodup := Dict.nodup_groupBy _ ps
  rcases flatten_at hall (fun g part hboth e he => hboth.1.target_eq hboth.2 he) hnd t with
    ⟨hno, hnil⟩ | ⟨g, part, hg, ⟨hdecided, -⟩, heq⟩
  · have hempty : (ps.filter fun p => p.target = t) = [] := by
      rw [List.filter_eq_nil_iff]
      intro p hp htarget
      obtain rfl : p.target = t := by simpa using htarget
      exact hno (mem_keys_groupByTarget hp)
    exact .empty hempty hnil
  · obtain ⟨rfl, -⟩ := (Dict.mem_groupBy _).mp hg
    rw [heq]
    exact hdecided

theorem GroupDecided.ne_nil {t : String} {group : List Proposal} {es : List Entry}
    (h : GroupDecided py policy accepted t group es) : es = [] ↔ group = [] := by
  cases h with
  | one p e hdec _ hes =>
      have hne : group ≠ [] := by
        rintro rfl
        simp [deciders, signatureCount] at hdec
      simp [hes, hne]
  | flagged action _ _ hes => simp [hes, contradictingSources]
  | empty hgroup hes => simp [hgroup, hes]

/-- An entry at a target that only ordinary proposals address comes from their group, or is the
prune of a fact that nothing addresses. -/
theorem entry_of_ordinary {proposals : List Proposal} {report : Report}
    (h : reconcile lib policy accepted proposals = .ok report) {e : Entry} (he : e ∈ report)
    (honly : ∀ p ∈ proposals, p.target = e.target → isOrdinary p = true) :
    (∃ es, GroupDecided lib.py policy accepted e.target (groupAt proposals e.target) es ∧
      groupAt proposals e.target ≠ [] ∧ e ∈ es) ∨
    (e.decision = .prune ∧ ∃ f ∈ accepted.facts, f.frozen = false ∧ f.provenance = .inferred ∧
      e.target = f.target ∧ ∀ p ∈ proposals, p.target ≠ f.target) := by
  obtain ⟨decided, hdecided, h⟩ := bind_eq_ok.mp h
  obtain ⟨pages, hpages, h⟩ := bind_eq_ok.mp h
  obtain ⟨pageDecided, hpageDecided, h⟩ := bind_eq_ok.mp h
  obtain ⟨resolved, hresolved, h⟩ := bind_eq_ok.mp h
  obtain rfl := pure_eq_ok.mp h
  -- an entry comes from the groups, the pages, the candidates or the pruning
  rcases List.mem_append.mp he with he | he
  · rcases List.mem_append.mp he with he | he
    · rcases List.mem_append.mp he with he | he
      · obtain ⟨t, g, es, hg, hes, hmem⟩ := (mem_decideGroups hdecided).mp he
        obtain ⟨rfl, hne⟩ := (Dict.mem_groupBy _).mp hg
        have htarget : e.target = t := (decideGroup_decided hes).target_eq
          (fun p hp => target_of_mem_groupAt hp) hmem
        subst htarget
        exact .inl ⟨es, decideGroup_decided hes, hne, hmem⟩
      · -- a page is rendered from a draft at its target
        obtain ⟨t, g, es, hg, hes, hmem⟩ := (mem_decideGroups hpageDecided).mp he
        obtain ⟨rfl, hne⟩ := (Dict.mem_groupBy _).mp hg
        have hat : ∀ p ∈ pages.filter (fun p => p.target = t), p.target = t := fun p hp => by
          simpa using (List.mem_filter.mp hp).2
        have htarget : e.target = t := (decideGroup_decided hes).target_eq hat hmem
        obtain ⟨page, hpage⟩ := List.exists_mem_of_ne_nil _ hne
        obtain ⟨draft, hdraft, hrender⟩ :=
          forall₂_mem_right (mapM_eq_ok.mp hpages) (List.mem_of_mem_filter hpage)
        obtain ⟨hin, hmarked⟩ := List.mem_filter.mp hdraft
        have hord := honly draft hin (by
          rw [htarget, ← hat page hpage, (renderPageDraft_eq_ok hrender).1])
        simp [isOrdinary, hmarked] at hord
    · obtain ⟨p, hp, hone⟩ := resolveRounds_decided hresolved he
      obtain ⟨hin, hmarked⟩ := List.mem_filter.mp hp
      have htarget : p.target = e.target := by
        rcases hone.outcome with ⟨-, -, htarget⟩ | ⟨-, hnew⟩
        · exact htarget.symm
        · exact (reconcileOne_decided hnew).1.symm
      have hord := honly p hin htarget
      simp [isOrdinary, hmarked] at hord
  · obtain ⟨f, hf, hfrozen, hinferred, hgone, htarget, hd, -⟩ := mem_pruneDisappeared he
    refine .inr ⟨hd, f, hf, hfrozen, hinferred, htarget, fun p hp heq => hgone ?_⟩
    rw [← heq]
    exact mem_addressed hpages hp

/-- The proposals of a run's contradictions, which a drafter may choose from. -/
theorem contradiction_proposal {proposals : List Proposal} {report : Report}
    (h : reconcile lib policy accepted proposals = .ok report) {c : Entry} (hc : c ∈ report)
    (hd : c.decision = .contradiction) :
    c.proposal.target = c.target ∧ Decider lib accepted proposals c.proposal := by
  cases reconcile_origin h hc with
  | decided p hp hone =>
      obtain ⟨htarget, hdecided⟩ := reconcileOne_decided hone
      cases hdecided with
      | contradiction _ _ hown => exact ⟨by rw [hown, htarget], by rw [hown]; exact hp⟩
      | noOp hd' _ _ => simp [hd'] at hd
      | add _ _ hd' _ _ => simp [hd'] at hd
      | edit _ _ _ _ _ _ hd' _ _ => simp [hd'] at hd
      | merge _ _ _ _ _ hd' _ _ => simp [hd'] at hd
  | flagged p hp _ _ hown htarget => exact ⟨by rw [hown, htarget], by rw [hown]; exact hp⟩
  | skipped _ _ _ _ hd' _ => simp [hd'] at hd
  | prune f _ _ _ _ _ hd' _ => simp [hd'] at hd

/-- A flagged group has two entries or more at its target. -/
theorem two_le_contradictions {report : Report} {target action : String} {group : List Proposal}
    (hsig : 1 < signatureCount py group)
    (hsub : ∀ e ∈ contradictingSources target group action, e ∈ report) :
    2 ≤ (report.filter fun x => x.decision = .contradiction ∧ x.target = target).length := by
  obtain ⟨p, hp, q, hq, hne⟩ := one_lt_signatureCount.mp hsig
  have hside : ∀ r ∈ group, flaggedSide target action r ∈
      report.filter fun x => x.decision = .contradiction ∧ x.target = target := by
    intro r hr
    exact List.mem_filter.mpr ⟨hsub _ (List.mem_map_of_mem hr), by simp [flaggedSide]⟩
  by_contra hlt
  have hpq : p = q := by
    have hp' := hside p hp
    have hq' := hside q hq
    rcases hfilter : report.filter fun x => x.decision = .contradiction ∧ x.target = target with
      _ | ⟨a, _ | ⟨b, rest⟩⟩
    · rw [hfilter] at hp'
      simp at hp'
    · rw [hfilter, List.mem_singleton] at hp' hq'
      exact congrArg (·.proposal) (hp'.trans hq'.symm)
    · rw [hfilter] at hlt
      simp at hlt
  exact hne (by rw [hpq])

/-! ## Refined reports -/

/-- An entry of a refined report was in the report and is no contradiction that was settled, or it
is the replacement of a target. -/
theorem mem_replaceSettled {replacements : Dict Entry} {emitted : List String}
    {report : List Entry} {e : Entry} (h : e ∈ replaceSettled replacements emitted report) :
    (e ∈ report ∧ (e.decision = .contradiction → Dict.get replacements e.target = none)) ∨
      ∃ t, Dict.get replacements t = some e := by
  induction report generalizing emitted with
  | nil => simp [replaceSettled] at h
  | cons c rest ih =>
      have hrest : ∀ {emitted : List String}, e ∈ replaceSettled replacements emitted rest →
          (e ∈ c :: rest ∧ (e.decision = .contradiction →
            Dict.get replacements e.target = none)) ∨
            ∃ t, Dict.get replacements t = some e := fun h =>
        (ih h).imp (fun hmem => ⟨List.mem_cons_of_mem c hmem.1, hmem.2⟩) id
      have hkeep : ∀ {emitted : List String},
          (c.decision = .contradiction → Dict.get replacements c.target = none) →
          e ∈ c :: replaceSettled replacements emitted rest →
          (e ∈ c :: rest ∧ (e.decision = .contradiction →
            Dict.get replacements e.target = none)) ∨
            ∃ t, Dict.get replacements t = some e := by
        intro emitted hc h
        rcases List.mem_cons.mp h with rfl | h
        · exact .inl ⟨List.mem_cons_self, hc⟩
        · exact hrest h
      rw [replaceSettled] at h
      split at h
      · cases hget : Dict.get replacements c.target with
        | none =>
            rw [hget] at h
            exact hkeep (fun _ => hget) h
        | some r =>
            rw [hget] at h
            simp only at h
            split at h
            · exact hrest h
            · rcases List.mem_cons.mp h with rfl | h
              · exact .inr ⟨c.target, hget⟩
              · exact hrest h
      · rename_i hc
        exact hkeep (fun hd => absurd hd hc) h

theorem replacement_eq_some {drafter : ReconcileDrafter} {group : String × List Entry}
    {r : String × Entry} (h : replacement py policy drafter accepted group = .ok (some r)) :
    r.1 = group.1 ∧ ∃ c ∈ group.2,
      reconcileOne py policy c.proposal (accepted.get group.1) = .ok r.2 := by
  unfold replacement at h
  split at h
  · simp at h
  · obtain ⟨index, hindex, h⟩ := bind_eq_ok.mp h
    cases hd : drafted (group.2.map (·.proposal)) index with
    | none => simp [hd] at h
    | some winning =>
        simp only [hd] at h
        obtain ⟨e, he, h⟩ := bind_eq_ok.mp h
        obtain rfl := Option.some.inj (pure_eq_ok.mp h)
        refine ⟨rfl, ?_⟩
        have hmem : winning ∈ group.2.map (·.proposal) := by
          unfold drafted at hd
          split at hd
          · exact List.mem_of_getElem? hd
          · simp at hd
        obtain ⟨c, hc, rfl⟩ := List.mem_map.mp hmem
        exact ⟨c, hc, he⟩

theorem refine_origin {drafter : ReconcileDrafter} {report report' : Report}
    (h : refine py policy drafter accepted report = .ok report') {e : Entry} (he : e ∈ report') :
    e ∈ report ∨ ∃ c ∈ report, c.decision = .contradiction ∧
      reconcileOne py policy c.proposal (accepted.get c.target) = .ok e := by
  obtain ⟨replacements, hreplacements, h⟩ := bind_eq_ok.mp h
  obtain rfl := pure_eq_ok.mp h
  rcases mem_replaceSettled he with ⟨he, -⟩ | ⟨t, hr⟩
  · exact .inl he
  · obtain ⟨o, ho, hid⟩ := List.mem_filterMap.mp (Dict.get_eq_some_mem hr)
    obtain rfl : o = some (t, e) := hid
    obtain ⟨⟨t', group⟩, hgroup, hone⟩ := forall₂_mem_right (mapM_eq_ok.mp hreplacements) ho
    obtain ⟨rfl, c, hc, hdecided⟩ := replacement_eq_some hone
    obtain ⟨rfl, -⟩ := (Dict.mem_groupBy _).mp hgroup
    obtain ⟨hmem, htarget⟩ := List.mem_filter.mp hc
    obtain ⟨hreport, hcontra⟩ := List.mem_filter.mp hmem
    obtain rfl : c.target = t := by simpa using htarget
    exact .inr ⟨c, hreport, by simpa using hcontra, hdecided⟩

/-- A report without contradictions stays as it is. -/
theorem replaceSettled_settled {replacements : Dict Entry} {emitted : List String}
    {report : List Entry} (h : ∀ e ∈ report, e.decision ≠ .contradiction) :
    replaceSettled replacements emitted report = report := by
  induction report with
  | nil => rfl
  | cons e rest ih =>
      rw [replaceSettled, if_neg (h e List.mem_cons_self),
        ih fun x hx => h x (List.mem_cons_of_mem e hx)]

/-- What stands after the last contradiction of a report stays in place. -/
theorem replaceSettled_append {replacements : Dict Entry} {emitted : List String}
    {front back : List Entry} (hback : ∀ e ∈ back, e.decision ≠ .contradiction) :
    replaceSettled replacements emitted (front ++ back) =
      replaceSettled replacements emitted front ++ back := by
  induction front generalizing emitted with
  | nil => rw [List.nil_append, replaceSettled_settled hback, replaceSettled, List.nil_append]
  | cons c front ih =>
      rw [List.cons_append, replaceSettled, replaceSettled]
      split
      · split
        · split
          · exact ih
          · rw [ih, List.cons_append]
        · rw [ih, List.cons_append]
      · rw [ih, List.cons_append]

theorem refine_append {drafter : ReconcileDrafter} {front back report' : Report}
    (hback : ∀ e ∈ back, e.decision ≠ .contradiction)
    (h : refine py policy drafter accepted (front ++ back) = .ok report') :
    ∃ front', report' = front' ++ back := by
  obtain ⟨replacements, -, h⟩ := bind_eq_ok.mp h
  obtain rfl := pure_eq_ok.mp h
  exact ⟨_, replaceSettled_append hback⟩

theorem replaceSettled_nil (emitted : List String) (report : List Entry) :
    replaceSettled [] emitted report = report := by
  induction report generalizing emitted with
  | nil => rfl
  | cons e rest ih =>
      rw [replaceSettled, ih]
      simp [Dict.get]

/-- Without a drafter a report stays as it is. -/
theorem refine_nullDrafter (report : Report) :
    refine py policy nullDrafter accepted report = .ok report := by
  have hnone : ∀ g : String × List Entry,
      replacement py policy nullDrafter accepted g = .ok none := by
    intro g
    unfold replacement
    split
    · rfl
    · rfl
  have hmap : ∀ groups : Dict (List Entry),
      groups.mapM (replacement py policy nullDrafter accepted) =
        .ok (groups.map fun _ => none) := by
    intro groups
    rw [mapM_eq_ok, List.forall₂_map_right_iff, List.forall₂_same]
    exact fun g _ => hnone g
  have hempty : ∀ groups : Dict (List Entry),
      (groups.map fun _ => (none : Option (String × Entry))).filterMap id = [] := by
    intro groups
    simp [List.filterMap_map]
  rw [refine, hmap, ok_bind, hempty, replaceSettled_nil]
  rfl

/-- The drafter that chooses one proposal at one target and nothing elsewhere. -/
def choosing (target : String) (p : Proposal) : ReconcileDrafter := fun t proposals =>
  .ok (if t = target then some (.ofNat (proposals.idxOf p)) else none)

theorem drafted_idxOf {proposals : List Proposal} {p : Proposal} (h : p ∈ proposals) :
    drafted proposals (some (.ofNat (proposals.idxOf p))) = some p := by
  have hlt : proposals.idxOf p < proposals.length := List.idxOf_lt_length_of_mem h
  simp [drafted, List.getElem?_eq_getElem hlt]

/-- The replacement of a target is put in the place of its first contradiction. -/
theorem mem_replaceSettled_of_get {replacements : Dict Entry} {emitted : List String}
    {report : List Entry} {c r : Entry} (hc : c ∈ report) (hd : c.decision = .contradiction)
    (hget : Dict.get replacements c.target = some r) (hnew : c.target ∉ emitted) :
    r ∈ replaceSettled replacements emitted report := by
  induction report generalizing emitted with
  | nil => simp at hc
  | cons e rest ih =>
      rw [replaceSettled]
      by_cases het : e.decision = .contradiction ∧ e.target = c.target
      · rw [if_pos het.1, het.2, hget]
        simp [hnew]
      · have hrest : c ∈ rest := by
          rcases List.mem_cons.mp hc with rfl | hrest
          · exact absurd ⟨hd, rfl⟩ het
          · exact hrest
        split
        · rename_i hed
          have hne : c.target ≠ e.target := fun heq => het ⟨hed, heq.symm⟩
          split
          · split
            · exact ih hrest hnew
            · exact List.mem_cons_of_mem _ (ih hrest (by simp [hne, hnew]))
          · exact List.mem_cons_of_mem _ (ih hrest hnew)
        · exact List.mem_cons_of_mem _ (ih hrest hnew)

/-- A drafter can have any proposal of a flagged group decided, and no contradiction is left at its
target. -/
theorem exists_refine {report : Report} {c e : Entry} (hc : c ∈ report)
    (hd : c.decision = .contradiction)
    (hsides : 2 ≤ (report.filter fun x =>
      x.decision = .contradiction ∧ x.target = c.target).length)
    (hone : reconcileOne py policy c.proposal (accepted.get c.target) = .ok e) :
    ∃ report', refine py policy (choosing c.target c.proposal) accepted report = .ok report' ∧
      e ∈ report' ∧ ∀ x ∈ report', x.target = c.target →
        x = e ∨ (x ∈ report ∧ x.decision ≠ .contradiction) := by
  have hreplace : ∀ g ∈ Dict.groupBy (·.target)
      (report.filter fun x => x.decision = .contradiction),
      replacement py policy (choosing c.target c.proposal) accepted g =
        .ok (if g.1 = c.target then some (c.target, e) else none) := by
    rintro ⟨t, g⟩ hg
    obtain ⟨rfl, -⟩ := (Dict.mem_groupBy _).mp hg
    unfold replacement
    by_cases ht : t = c.target
    · subst ht
      have hlen : ¬ ((report.filter fun x => x.decision = .contradiction).filter
          fun x => x.target = c.target).length < 2 := by
        rw [List.filter_filter, Nat.not_lt]
        simpa only [Bool.decide_and, Bool.and_comm] using hsides
      have hmem : c.proposal ∈ (((report.filter fun x => x.decision = .contradiction).filter
          fun x => x.target = c.target).map (·.proposal)) :=
        List.mem_map_of_mem (by simp [hc, hd])
      simp only [if_neg hlen, choosing, if_true, ok_bind, drafted_idxOf hmem, hone]
      rfl
    · simp only [choosing, if_neg ht, ok_bind, drafted]
      split
      · rfl
      · rfl
  have hmap : (Dict.groupBy (·.target) (report.filter fun x => x.decision = .contradiction)).mapM
      (replacement py policy (choosing c.target c.proposal) accepted) =
      .ok ((Dict.groupBy (·.target) (report.filter fun x => x.decision = .contradiction)).map
        fun g => if g.1 = c.target then some (c.target, e) else none) := by
    rw [mapM_eq_ok, List.forall₂_map_right_iff, List.forall₂_same]
    exact hreplace
  set replacements := (((Dict.groupBy (·.target)
      (report.filter fun x => x.decision = .contradiction)).map
        fun g => if g.1 = c.target then some (c.target, e) else none).filterMap id) with hdef
  -- the replacements hold one entry, at the chosen target
  have honly : ∀ t r, (t, r) ∈ replacements → r = e := by
    intro t r hmem
    obtain ⟨o, ho, hid⟩ := List.mem_filterMap.mp hmem
    obtain ⟨g, -, hg⟩ := List.mem_map.mp ho
    obtain rfl : o = some (t, r) := hid
    split at hg
    · exact (Prod.mk.inj (Option.some.inj hg)).2.symm
    · simp at hg
  have hin : c.target ∈ replacements.map (·.1) := by
    have hg : (c.target, (report.filter fun x => x.decision = .contradiction).filter
        fun x => x.target = c.target) ∈ Dict.groupBy (·.target)
          (report.filter fun x => x.decision = .contradiction) :=
      (Dict.mem_groupBy _).mpr ⟨rfl, List.ne_nil_of_mem
        (List.mem_filter.mpr ⟨List.mem_filter.mpr ⟨hc, by simpa using hd⟩, by simp⟩)⟩
    refine List.mem_map.mpr ⟨(c.target, e), List.mem_filterMap.mpr ⟨some (c.target, e), ?_, rfl⟩,
      rfl⟩
    exact List.mem_map.mpr ⟨_, hg, by simp⟩
  have hget : Dict.get replacements c.target = some e := by
    obtain ⟨r, hr⟩ := Dict.get_isSome_of_mem hin
    rw [hr, honly _ r (Dict.get_eq_some_mem hr)]
  refine ⟨replaceSettled replacements [] report, by rw [refine, hmap, ok_bind]; rfl,
    mem_replaceSettled_of_get hc hd hget (by simp), ?_⟩
  intro x hx hxt
  rcases mem_replaceSettled hx with ⟨hmem, hopen⟩ | ⟨t, hr⟩
  · refine .inr ⟨hmem, fun hxd => ?_⟩
    have hnone := hopen hxd
    rw [hxt, hget] at hnone
    simp at hnone
  · exact .inl (honly t x (Dict.get_eq_some_mem hr))

/-- An entry of a refined report that writes a file is the decision for a proposal that can decide
its target. -/
theorem refined_decided {proposals : List Proposal} {report report' : Report}
    {drafter : ReconcileDrafter} (h : reconcile lib policy accepted proposals = .ok report)
    (h' : refine lib.py policy drafter accepted report = .ok report') {e : Entry}
    (he : e ∈ report') (hadd : e.decision.isAdding = true) :
    ∃ p, Decider lib accepted proposals p ∧
      reconcileOne lib.py policy p (accepted.get p.target) = .ok e := by
  rcases refine_origin h' he with he | ⟨c, hc, hd, hone⟩
  · cases reconcile_origin h he with
    | decided p hp hone => exact ⟨p, hp, hone⟩
    | flagged _ _ hd _ _ _ => simp [hd, Decision.isAdding] at hadd
    | skipped _ _ _ _ hd _ => simp [hd, Decision.isAdding] at hadd
    | prune _ _ _ _ _ _ hd _ => simp [hd, Decision.isAdding] at hadd
  · obtain ⟨htarget, hp⟩ := contradiction_proposal h hc hd
    exact ⟨c.proposal, hp, by rw [htarget]; exact hone⟩

/-- Some drafter makes a proposal that can decide a target do so, where only ordinary proposals
address it: its decision is then the only entry there. -/
theorem exists_refined_only {proposals : List Proposal} {report : Report}
    (h : reconcile lib policy accepted proposals = .ok report) {target : String} {p : Proposal}
    (hp : p ∈ deciders lib.py (groupAt proposals target))
    (honly : ∀ q ∈ proposals, q.target = target → isOrdinary q = true) {e : Entry}
    (hone : reconcileOne lib.py policy p (accepted.get target) = .ok e) :
    ∃ drafter report', refine lib.py policy drafter accepted report = .ok report' ∧ e ∈ report' ∧
      ∀ x ∈ report', x.target = target → x = e := by
  have hgroup : p ∈ groupAt proposals target := mem_of_mem_deciders hp
  obtain ⟨es, hdecided, hsub⟩ := exists_decided_groupAt h (List.ne_nil_of_mem hgroup)
  have hat : ∀ x ∈ report, x.target = target → ∃ es,
      GroupDecided lib.py policy accepted target (groupAt proposals target) es ∧ x ∈ es := by
    rintro x hx rfl
    rcases entry_of_ordinary h hx honly with ⟨es, hes, -, hmem⟩ | ⟨-, f, -, -, -, htarget, hgone⟩
    · exact ⟨es, hes, hmem⟩
    · have hpin : p ∈ proposals := List.mem_of_mem_filter (List.mem_of_mem_filter hgroup)
      exact absurd ((target_of_mem_groupAt hgroup).trans htarget) (hgone p hpin)
  cases hdecided with
  | one p' e' hdec hone' hes =>
      obtain rfl : p = p' := by simpa [hdec] using hp
      obtain rfl := Except.ok.inj (hone.symm.trans hone')
      refine ⟨nullDrafter, report, refine_nullDrafter report, hsub e (by simp [hes]), ?_⟩
      intro x hx hxt
      obtain ⟨es', hdecided', hmem⟩ := hat x hx hxt
      cases hdecided' with
      | one q e' hdec' hq hes' =>
          obtain rfl : p = q := by simpa [hdec] using hdec'
          obtain rfl := Except.ok.inj (hone.symm.trans hq)
          simpa [hes'] using hmem
      | flagged _ hall hsig _ =>
          rw [← hall, hdec] at hsig
          exact absurd hsig (not_one_lt_signatureCount_singleton p)
      | empty _ hes' => simp [hes'] at hmem
  | flagged action hall hsig hes =>
      -- the drafter chooses the proposal among the contradictions
      rw [hes] at hsub
      have hside : flaggedSide target action p ∈ report := hsub _ (List.mem_map_of_mem hgroup)
      obtain ⟨report', hrefine, hmem, hrest⟩ :=
        exists_refine hside rfl (two_le_contradictions hsig hsub) hone
      refine ⟨_, report', hrefine, hmem, ?_⟩
      intro x hx hxt
      rcases hrest x hx hxt with rfl | ⟨hxin, hxd⟩
      · rfl
      · obtain ⟨es', hdecided', hmem'⟩ := hat x hxin hxt
        cases hdecided' with
        | one q _ hdec' _ _ =>
            rw [← hall, hdec'] at hsig
            exact absurd hsig (not_one_lt_signatureCount_singleton q)
        | flagged _ _ _ hes' =>
            rw [hes'] at hmem'
            obtain ⟨q, -, rfl⟩ := List.mem_map.mp hmem'
            exact absurd rfl hxd
        | empty _ hes' => simp [hes'] at hmem'
  | empty hnil _ => simp [hnil] at hgroup

end Canonic
