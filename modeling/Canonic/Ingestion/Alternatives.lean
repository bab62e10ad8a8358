import Canonic.Ingestion.Builder
import Canonic.Ingestion.Decisions

set_option autoImplicit false

/-! # Deprecated alternatives

A run may propose any number of deprecated alternatives to one binding. Each is a patch that appends
one entry, but the proposals of a target are compared first as if they were versions of its file,
and only the one that decides the target reaches the merge.
-/

namespace Canonic

variable {lib : ReconcileLib} {py : PyLib} {policy : AutoApplyConfig}
  {accepted accepted' : AcceptedStore}

/-! ## The proposals and the merged content -/

/-- The entry that a proposal of an alternative appends. -/
def Proposal.fragment (p : Proposal) : Content :=
  match Dict.get p.content daSentinel with
  | some (.obj fragment) => fragment
  | _ => []

/-- A proposal as the builder drafts it for an alternative: nothing but the marked entry. -/
def IsAlternative (p : Proposal) : Prop := p.content = [(daSentinel, .obj p.fragment)]

/-- The reference of an entry of `deprecated_alternatives`. -/
def alternativeRef (py : PyLib) (entry : Content) : String :=
  py.str (Dict.getD entry "ref" (.str ""))

/-- The proposals of a run for a target. -/
def proposalsAt (proposals : List Proposal) (target : String) : List Proposal :=
  proposals.filter fun p => p.target = target

/-- The content of an accepted file after the report is applied. -/
def Report.applied (report : Report) (f : ExistingFact) : Content :=
  match report.find? fun e => e.target = f.target && e.decision.isAdding with
  | some e => e.proposal.content
  | none => f.content

/-- A content is the former one, with the missing references appended once each. -/
structure MergedOnce (py : PyLib) (before after : Content) (ps : List Proposal) : Prop where
  frame : ∀ key, key ≠ "deprecated_alternatives" → Dict.get after key = Dict.get before key
  appended : ∃ das added : List Content,
    deprecatedAlternatives before = .ok (das.map .obj) ∧
      deprecatedAlternatives after = .ok ((das ++ added).map .obj) ∧
      (∀ a ∈ added, ∃ p ∈ ps, a = p.fragment) ∧ (added.map (alternativeRef py)).Nodup ∧
      ∀ r, r ∈ added.map (alternativeRef py) ↔
        r ∈ ps.map (fun p => alternativeRef py p.fragment) ∧ r ∉ das.map (alternativeRef py)

/-- Nothing is decided for a target but no-ops. A file that no proposal addresses may be pruned,
whatever the alternatives are. -/
def IsNoOp (report : Report) (target : String) (ps : List Proposal) : Prop :=
  ∀ e ∈ report, e.target = target → e.decision = .noOp ∨ (ps = [] ∧ e.decision = .prune)

/-- The proposal that decides a list: the first, where all have one signature, or the first of the
modeling tier, where these have one and the others are of lower tiers. -/
def DecidesFor (py : PyLib) (ps : List Proposal) (d : Proposal) : Prop :=
  signatureCount py ps ≤ 1 ∧ ps.head? = some d ∨
    1 < signatureCount py ps ∧ losersOf ps ≠ [] ∧ signatureCount py (winnersOf ps) = 1 ∧
      (winnersOf ps).head? = some d

/-- One proposal decides the list, and only its own reference may be missing; where it is, the
fingerprint of the proposal is not the one of the binding. -/
def OnlyDecidersMissing (py : PyLib) (f : ExistingFact) (das : List Content)
    (ps : List Proposal) : Prop :=
  ps = [] ∨ ∃ d, DecidesFor py ps d ∧ ∀ p ∈ ps,
    alternativeRef py p.fragment ∉ das.map (alternativeRef py) →
      alternativeRef py p.fragment = alternativeRef py d.fragment ∧
        fingerprintsMatch py f d = false

/-! ## One alternative -/

theorem IsAlternative.isOrdinary {p : Proposal} (h : IsAlternative p) : isOrdinary p = true := by
  simp [Canonic.isOrdinary, isCandidate, isPageDraft, Dict.has, show p.content = _ from h,
    daSentinel, candidateSentinel, pageDraftSentinel]

theorem hasRef_map (r : String) (das : List Content) :
    hasRef py r (das.map .obj) = .ok (decide (r ∈ das.map (alternativeRef py))) := by
  induction das with
  | nil => rfl
  | cons da das ih =>
      show (if alternativeRef py da = r then Except.ok true else hasRef py r (das.map .obj)) = _
      by_cases h : alternativeRef py da = r
      · rw [if_pos h]
        simp [h]
      · rw [if_neg h, ih]
        simp [Ne.symm h]

/-- An alternative is merged where its reference is missing. -/
theorem reconcileOne_alternative {p : Proposal} (hp : IsAlternative p) {f : ExistingFact}
    (hfrozen : f.frozen = false) {das : List Content}
    (hdas : deprecatedAlternatives f.content = .ok (das.map .obj)) :
    reconcileOne py policy p (some f) = .ok
      (if fingerprintsMatch py f p = true ∨
          alternativeRef py p.fragment ∈ das.map (alternativeRef py) then
        Entry.against .noOp p f
      else { Entry.against .edit (mergedProposal p f (das.map .obj) p.fragment) f with
        autoApply := autoApplyEligible policy (mergedProposal p f (das.map .obj) p.fragment)
          (some f) }) := by
  have hcontent : p.content = [(daSentinel, .obj p.fragment)] := hp
  have hflag : Dict.has p.content answerOutcomeSentinel = false := by
    simp [hcontent, Dict.has, daSentinel, answerOutcomeSentinel]
  have hmarked : Dict.has p.content daSentinel = true := by
    simp [hcontent, Dict.has]
  have hitem : Dict.item p.content daSentinel = .ok (.obj p.fragment) := by
    rw [hcontent]
    simp [Dict.item, Dict.get]
  have hown : mergeDeprecatedAlternative py policy p f = .ok
      (if alternativeRef py p.fragment ∈ das.map (alternativeRef py) then
        Entry.against .noOp p f
      else { Entry.against .edit (mergedProposal p f (das.map .obj) p.fragment) f with
        autoApply := autoApplyEligible policy (mergedProposal p f (das.map .obj) p.fragment)
          (some f) }) := by
    rw [mergeDeprecatedAlternative, hfrozen, if_neg (by decide), hitem]
    show (deprecatedAlternatives f.content >>= _) = _
    rw [hdas]
    show (hasRef py (alternativeRef py p.fragment) (das.map .obj) >>= _) = _
    rw [hasRef_map]
    by_cases h : alternativeRef py p.fragment ∈ das.map (alternativeRef py)
    · rw [if_pos h, decide_eq_true h]
      rfl
    · rw [if_neg h, decide_eq_false h]
      rfl
  rw [reconcileOne, hflag, if_neg (by decide)]
  simp only
  by_cases hmatch : fingerprintsMatch py f p = true
  · rw [if_pos hmatch, if_pos (Or.inl hmatch)]
    rfl
  · rw [if_neg hmatch, if_pos hmarked, hown]
    simp [hmatch]

/-! ## A list of alternatives -/

/-- Alternatives declare no columns, so they do not disagree on a type. -/
theorem hasTypeConflict_alternative {p : Proposal} (hp : IsAlternative p) (others : List Proposal) :
    hasTypeConflict p others = .ok false := by
  have hcontent : p.content = [(daSentinel, .obj p.fragment)] := hp
  have hcolumns : Dict.get p.content "columns" = none := by
    simp [hcontent, Dict.get, List.lookup_cons, daSentinel]
  rw [hasTypeConflict, columnTypes, hcolumns]
  rfl

theorem deciders_eq_singleton_iff {ps : List Proposal} (hps : ∀ p ∈ ps, IsAlternative p)
    {d : Proposal} : deciders py ps = [d] ↔ DecidesFor py ps d := by
  unfold deciders DecidesFor
  by_cases hsig : 1 < signatureCount py ps
  · have hmany : ps ≠ [d] := by
      rintro rfl
      exact not_one_lt_signatureCount_singleton d hsig
    have hle : ¬ signatureCount py ps ≤ 1 := by omega
    rw [if_pos hsig]
    simp only [hsig, hle, false_and, false_or, true_and]
    unfold preferred
    cases hw : winnersOf ps with
    | nil => simp [hmany]
    | cons w rest =>
        have hwin : w ∈ winnersOf ps := by simp [hw]
        have hcond : (!(losersOf ps).isEmpty && signatureCount py (w :: rest) == 1 &&
            (hasTypeConflict w (losersOf ps)).toOption == some false) = true ↔
              losersOf ps ≠ [] ∧ signatureCount py (w :: rest) = 1 := by
          rw [hasTypeConflict_alternative (hps w (List.mem_of_mem_filter hwin))]
          simp [Except.toOption]
        simp only [List.head?_cons, Option.some.injEq]
        by_cases hpref : losersOf ps ≠ [] ∧ signatureCount py (w :: rest) = 1
        · rw [if_pos (hcond.mpr hpref)]
          simp [hpref]
        · rw [if_neg fun h => hpref (hcond.mp h)]
          simp only [hmany, false_iff]
          exact fun h => hpref ⟨h.1, h.2.1⟩
  · have hle : signatureCount py ps ≤ 1 := by omega
    rw [if_neg hsig]
    simp only [hsig, hle, false_and, or_false, true_and]
    cases ps <;> simp

/-- Only alternatives are proposed for a target: they are its group. -/
theorem groupAt_alternatives {proposals : List Proposal} {target : String}
    (honly : ∀ p ∈ proposalsAt proposals target, IsAlternative p) :
    groupAt proposals target = proposalsAt proposals target := by
  rw [groupAt, proposalsAt, List.filter_filter]
  apply List.filter_congr
  intro p hp
  by_cases htarget : p.target = target
  · have hin : p ∈ proposalsAt proposals target := List.mem_filter.mpr ⟨hp, by simpa using htarget⟩
    simp [(honly p hin).isOrdinary]
  · simp [htarget]

/-- What a report has for a target that only alternatives are proposed for. -/
inductive AlternativesDecided (py : PyLib) (policy : AutoApplyConfig) (accepted : AcceptedStore)
    (report : Report) (target : String) (ps : List Proposal) : Prop where
  | one (d : Proposal) (e : Entry) (decides : DecidesFor py ps d) (mem : d ∈ ps)
      (decided : reconcileOne py policy d (accepted.get target) = .ok e) (own : e.target = target)
      (present : e ∈ report) (only : ∀ e' ∈ report, e'.target = target → e' = e)
  | flagged (undecided : ∀ d, ¬ DecidesFor py ps d) (nonempty : ps ≠ [])
      (present : ∃ e ∈ report, e.target = target)
      (only : ∀ e ∈ report, e.target = target → e.decision = .contradiction)
  | empty (nil : ps = []) (only : ∀ e ∈ report, e.target = target → e.decision = .prune)

theorem reconcile_alternatives {proposals : List Proposal} {report : Report}
    (h : reconcile lib policy accepted proposals = .ok report) {target : String}
    (honly : ∀ p ∈ proposalsAt proposals target, IsAlternative p) :
    AlternativesDecided lib.py policy accepted report target (proposalsAt proposals target) := by
  have hgroup := groupAt_alternatives honly
  have hordinary : ∀ p ∈ proposals, p.target = target → isOrdinary p = true := by
    intro p hp htarget
    exact (honly p (List.mem_filter.mpr ⟨hp, by simpa using htarget⟩)).isOrdinary
  -- an entry at the target is decided with the group, or prunes where there is none
  have hentry : ∀ e ∈ report, e.target = target →
      (∃ es, GroupDecided lib.py policy accepted target (proposalsAt proposals target) es ∧
        proposalsAt proposals target ≠ [] ∧ e ∈ es) ∨
      (e.decision = .prune ∧ proposalsAt proposals target = []) := by
    rintro e he rfl
    rcases entry_of_ordinary h he hordinary with
      ⟨es, hes, hne, hmem⟩ | ⟨hprune, f, -, -, -, ht, hgone⟩
    · rw [hgroup] at hes hne
      exact Or.inl ⟨es, hes, hne, hmem⟩
    · refine Or.inr ⟨hprune, List.filter_eq_nil_iff.mpr fun p hp => ?_⟩
      simpa [ht] using hgone p hp
  by_cases hne : proposalsAt proposals target = []
  · refine .empty hne fun e he htarget => ?_
    rcases hentry e he htarget with ⟨-, -, hne', -⟩ | ⟨hprune, -⟩
    · exact absurd hne hne'
    · exact hprune
  · obtain ⟨es, hes, hsub⟩ := exists_decided_groupAt h (by rw [hgroup]; exact hne)
    rw [hgroup] at hes
    have hat : ∀ p ∈ proposalsAt proposals target, p.target = target := by
      intro p hp
      simpa using (List.mem_filter.mp hp).2
    cases hes with
    | one d e hdec hone hes =>
        have hdecides := (deciders_eq_singleton_iff honly).mp hdec
        have hmem : d ∈ proposalsAt proposals target :=
          @mem_of_mem_deciders lib.py _ _ (by rw [hdec]; exact List.mem_singleton.mpr rfl)
        have hown : e.target = target := by
          rw [(reconcileOne_decided hone).1, hat d hmem]
        refine .one d e hdecides hmem hone hown (hsub e (by simp [hes])) fun e' he' htarget => ?_
        rcases hentry e' he' htarget with ⟨es', hes', -, hin⟩ | ⟨-, hnil⟩
        · cases hes' with
          | one d' e'' hdec' hone' hes' =>
              obtain rfl : d = d' := by simpa [hdec] using hdec'
              rw [hone] at hone'
              rw [hes', List.mem_singleton] at hin
              rw [hin, Except.ok.inj hone']
          | flagged action hall hsig hes' =>
              rw [hdec] at hall
              rw [← hall] at hsig
              exact absurd hsig (not_one_lt_signatureCount_singleton d)
          | empty hnil _ => exact absurd hnil hne
        · exact absurd hnil hne
    | flagged action hall hsig hes =>
        have hundecided : ∀ d, ¬ DecidesFor lib.py (proposalsAt proposals target) d := by
          intro d hd
          have hdec := (deciders_eq_singleton_iff honly).mpr hd
          rw [hall] at hdec
          rw [hdec] at hsig
          exact not_one_lt_signatureCount_singleton d hsig
        obtain ⟨p, hp⟩ := List.exists_mem_of_ne_nil _ hne
        refine .flagged hundecided hne ⟨flaggedSide target action p, hsub _ ?_, rfl⟩ ?_
        · rw [hes]
          exact List.mem_map_of_mem hp
        · intro e he htarget
          rcases hentry e he htarget with ⟨es', hes', -, hin⟩ | ⟨-, hnil⟩
          · cases hes' with
            | one d e'' hdec' _ _ =>
                exact absurd ((deciders_eq_singleton_iff honly).mp hdec') (hundecided d)
            | flagged action' _ _ hes' =>
                rw [hes'] at hin
                obtain ⟨q, -, rfl⟩ := List.mem_map.mp hin
                rfl
            | empty hnil _ => exact absurd hnil hne
          · exact absurd hnil hne
    | empty hnil _ => exact absurd hnil hne

/-! ## Applying the report -/

/-- What is not written stays as it was. -/
theorem Report.applied_of_not_adding {report : Report} {f : ExistingFact}
    (h : ∀ e ∈ report, e.target = f.target → e.decision.isAdding = false) :
    report.applied f = f.content := by
  have hnone : report.find? (fun e => e.target = f.target && e.decision.isAdding) = none := by
    rw [List.find?_eq_none]
    intro e he
    by_cases htarget : e.target = f.target
    · simp [h e he htarget]
    · simp [htarget]
  rw [Report.applied, hnone]

/-- The one entry for a target is applied. -/
theorem Report.applied_of_only {report : Report} {f : ExistingFact} {e : Entry} (hmem : e ∈ report)
    (hown : e.target = f.target) (honly : ∀ e' ∈ report, e'.target = f.target → e' = e)
    (hadding : e.decision.isAdding = true) : report.applied f = e.proposal.content := by
  cases hfind : report.find? (fun e => e.target = f.target && e.decision.isAdding) with
  | none =>
      rw [List.find?_eq_none] at hfind
      exact absurd (by simp [hown, hadding]) (hfind e hmem)
  | some e' =>
      have hgood := List.find?_some hfind
      simp only [Bool.and_eq_true, decide_eq_true_eq] at hgood
      rw [Report.applied, hfind]
      exact congrArg (·.proposal.content)
        (honly e' (List.mem_of_find?_eq_some hfind) hgood.1)

section

variable {content : Content} {das : List Content} {ps : List Proposal}

theorem deprecatedAlternatives_set (content : Content) {entries : List Json} (h : entries ≠ []) :
    deprecatedAlternatives (Dict.set content "deprecated_alternatives" (.arr entries)) =
      .ok entries := by
  rw [deprecatedAlternatives, Dict.getD, Dict.get_set, if_pos rfl]
  simp [Json.truthy, Json.loop, Json.iter, h]

/-- A content that stays as it was has every reference already. -/
theorem mergedOnce_self_iff (hdas : deprecatedAlternatives content = .ok (das.map .obj)) :
    MergedOnce py content content ps ↔
      ∀ p ∈ ps, alternativeRef py p.fragment ∈ das.map (alternativeRef py) := by
  constructor
  · rintro ⟨-, das', added, hbefore, hafter, -, -, hrefs⟩ p hp
    obtain rfl : das = das' :=
      (List.map_injective_iff.mpr fun a b => Json.obj.inj) (Except.ok.inj (hdas.symm.trans hbefore))
    have hlen := congrArg List.length (Except.ok.inj (hdas.symm.trans hafter))
    simp only [List.length_map, List.length_append] at hlen
    obtain rfl : added = [] := List.eq_nil_of_length_eq_zero (by omega)
    by_contra hmissing
    have hin := (hrefs (alternativeRef py p.fragment)).mpr
      ⟨List.mem_map.mpr ⟨p, hp, rfl⟩, hmissing⟩
    exact absurd hin (by simp)
  · intro hall
    refine ⟨fun _ _ => rfl, das, [], hdas, by simpa using hdas, by simp, by simp, fun r => ?_⟩
    simp only [List.map_nil, List.not_mem_nil, false_iff, not_and, not_not]
    intro hr
    obtain ⟨p, hp, rfl⟩ := List.mem_map.mp hr
    exact hall p hp

/-- A content that one entry is appended to has no other reference missing. -/
theorem mergedOnce_append_iff (hdas : deprecatedAlternatives content = .ok (das.map .obj))
    {d : Proposal} (hd : d ∈ ps)
    (hmissing : alternativeRef py d.fragment ∉ das.map (alternativeRef py)) :
    MergedOnce py content
        (Dict.set content "deprecated_alternatives" (.arr (das.map .obj ++ [.obj d.fragment]))) ps ↔
      ∀ p ∈ ps, alternativeRef py p.fragment ∉ das.map (alternativeRef py) →
        alternativeRef py p.fragment = alternativeRef py d.fragment := by
  have hset : deprecatedAlternatives
      (Dict.set content "deprecated_alternatives" (.arr (das.map .obj ++ [.obj d.fragment]))) =
        .ok (das.map .obj ++ [.obj d.fragment]) :=
    deprecatedAlternatives_set content (by simp)
  constructor
  · rintro ⟨-, das', added, hbefore, hafter, -, -, hrefs⟩ p hp hp'
    obtain rfl : das = das' :=
      (List.map_injective_iff.mpr fun a b => Json.obj.inj) (Except.ok.inj (hdas.symm.trans hbefore))
    have hsame := Except.ok.inj (hset.symm.trans hafter)
    rw [List.map_append, List.append_cancel_left_eq] at hsame
    obtain rfl : added = [d.fragment] := by
      apply List.map_injective_iff.mpr fun a b => Json.obj.inj
      exact hsame.symm
    have hin := (hrefs (alternativeRef py p.fragment)).mpr ⟨List.mem_map.mpr ⟨p, hp, rfl⟩, hp'⟩
    simpa using hin
  · intro hall
    refine ⟨fun key hkey => ?_, das, [d.fragment], hdas, ?_, ?_, by simp, fun r => ?_⟩
    · rw [Dict.get_set, if_neg hkey]
    · rw [hset, List.map_append]
      rfl
    · intro a ha
      exact ⟨d, hd, List.mem_singleton.mp ha⟩
    · rw [List.map_singleton, List.mem_singleton]
      constructor
      · rintro rfl
        exact ⟨List.mem_map.mpr ⟨d, hd, rfl⟩, hmissing⟩
      · rintro ⟨hr, hr'⟩
        obtain ⟨p, hp, rfl⟩ := List.mem_map.mp hr
        exact hall p hp hr'

end

/-- At most one proposal decides a list. -/
theorem DecidesFor.unique {ps : List Proposal} (hps : ∀ p ∈ ps, IsAlternative p) {d d' : Proposal}
    (h : DecidesFor py ps d) (h' : DecidesFor py ps d') : d' = d := by
  have hdec := (deciders_eq_singleton_iff hps).mpr h
  rw [(deciders_eq_singleton_iff hps).mpr h'] at hdec
  simpa using hdec

/-- A list is a no-op where the proposal that decides it is recorded. -/
theorem AlternativesDecided.isNoOp {report : Report} {f : ExistingFact} {ps : List Proposal}
    (h : AlternativesDecided py policy accepted report f.target ps)
    (hps : ∀ p ∈ ps, IsAlternative p)
    (hget : accepted.get f.target = some f) (hfrozen : f.frozen = false) {das : List Content}
    (hdas : deprecatedAlternatives f.content = .ok (das.map .obj)) {d : Proposal} (hd : d ∈ ps)
    (hdecides : DecidesFor py ps d) (hkept : fingerprintsMatch py f d = true ∨
      alternativeRef py d.fragment ∈ das.map (alternativeRef py)) : IsNoOp report f.target ps := by
  intro e he htarget
  cases h with
  | one d' e' hdecides' _ hone _ _ honly =>
      rw [hget, hdecides.unique hps hdecides', reconcileOne_alternative (hps d hd) hfrozen hdas,
        if_pos hkept] at hone
      rw [honly e he htarget, ← Except.ok.inj hone]
      exact Or.inl rfl
  | flagged hundecided _ _ _ => exact absurd hdecides (hundecided d)
  | empty hnil _ => exact absurd hnil (List.ne_nil_of_mem hd)

section

variable {f : ExistingFact} {das : List Content} {ps : List Proposal} {d : Proposal}
  {report report' : Report}

/-- A deciding proposal that changes nothing now changes nothing again. -/
theorem merged_iff_of_kept (hps : ∀ p ∈ ps, IsAlternative p) (hfrozen : f.frozen = false)
    (hdas : deprecatedAlternatives f.content = .ok (das.map .obj)) (hd : d ∈ ps)
    (hdecides : DecidesFor py ps d) (hkept : fingerprintsMatch py f d = true ∨
      alternativeRef py d.fragment ∈ das.map (alternativeRef py))
    (happlied : report.applied f = f.content)
    (hget' : accepted'.get f.target = some { f with content := report.applied f })
    (hsecond : AlternativesDecided py policy accepted' report' f.target ps) :
    (MergedOnce py f.content (report.applied f) ps ∧ IsNoOp report' f.target ps) ↔
      OnlyDecidersMissing py f das ps := by
  have hnoOp : IsNoOp report' f.target ps := by
    rw [happlied] at hget'
    exact hsecond.isNoOp hps hget' hfrozen hdas hd hdecides hkept
  rw [happlied, mergedOnce_self_iff hdas, OnlyDecidersMissing]
  constructor
  · rintro ⟨hall, -⟩
    exact Or.inr ⟨d, hdecides, fun p hp hmissing => absurd (hall p hp) hmissing⟩
  · rintro (hnil | ⟨d', hd', hrest⟩)
    · exact absurd hnil (List.ne_nil_of_mem hd)
    · obtain rfl := hdecides.unique hps hd'
      refine ⟨fun p hp => ?_, hnoOp⟩
      by_contra hmissing
      obtain ⟨hsame, hchanged⟩ := hrest p hp hmissing
      rcases hkept with hmatch | hrecorded
      · rw [hmatch] at hchanged
        cases hchanged
      · rw [hsame] at hmissing
        exact hmissing hrecorded

/-- The entry of a deciding proposal is appended, and is there the next time. -/
theorem merged_iff_of_appended (hps : ∀ p ∈ ps, IsAlternative p) (hfrozen : f.frozen = false)
    (hdas : deprecatedAlternatives f.content = .ok (das.map .obj)) (hd : d ∈ ps)
    (hdecides : DecidesFor py ps d) (hchanged : fingerprintsMatch py f d = false)
    (hmissing : alternativeRef py d.fragment ∉ das.map (alternativeRef py))
    (happlied : report.applied f = Dict.set f.content "deprecated_alternatives"
      (.arr (das.map .obj ++ [.obj d.fragment])))
    (hget' : accepted'.get f.target = some { f with content := report.applied f })
    (hsecond : AlternativesDecided py policy accepted' report' f.target ps) :
    (MergedOnce py f.content (report.applied f) ps ∧ IsNoOp report' f.target ps) ↔
      OnlyDecidersMissing py f das ps := by
  have hdas' : deprecatedAlternatives (report.applied f) =
      .ok ((das ++ [d.fragment]).map .obj) := by
    rw [happlied, deprecatedAlternatives_set _ (by simp), List.map_append]
    rfl
  have hnoOp : IsNoOp report' f.target ps :=
    @AlternativesDecided.isNoOp _ _ _ _ { f with content := report.applied f } _ hsecond hps
      hget' hfrozen _ hdas' d hd hdecides (Or.inr (by simp))
  rw [happlied, mergedOnce_append_iff hdas hd hmissing, OnlyDecidersMissing]
  constructor
  · rintro ⟨hall, -⟩
    exact Or.inr ⟨d, hdecides, fun p hp h => ⟨hall p hp h, hchanged⟩⟩
  · rintro (hnil | ⟨d', hd', hrest⟩)
    · exact absurd hnil (List.ne_nil_of_mem hd)
    · obtain rfl := hdecides.unique hps hd'
      exact ⟨fun p hp h => (hrest p hp h).1, hnoOp⟩

end

/-- An applied list of alternatives is recorded, and proposing it again is a no-op, exactly when one
of its proposals decides the list and no other reference was missing. -/
theorem alternatives_merged_iff {proposals proposals' : List Proposal} {report report' : Report}
    {f : ExistingFact} {das : List Content} (hget : accepted.get f.target = some f)
    (hfrozen : f.frozen = false) (hdas : deprecatedAlternatives f.content = .ok (das.map .obj))
    (honly : ∀ p ∈ proposalsAt proposals f.target, IsAlternative p)
    (hreport : reconcile lib policy accepted proposals = .ok report)
    (hget' : accepted'.get f.target = some { f with content := report.applied f })
    (hagain : proposalsAt proposals' f.target = proposalsAt proposals f.target)
    (hreport' : reconcile lib policy accepted' proposals' = .ok report') :
    (MergedOnce lib.py f.content (report.applied f) (proposalsAt proposals f.target) ∧
      IsNoOp report' f.target (proposalsAt proposals f.target)) ↔
        OnlyDecidersMissing lib.py f das (proposalsAt proposals f.target) := by
  have hfirst := reconcile_alternatives hreport honly
  have hsecond := reconcile_alternatives hreport' (hagain ▸ honly)
  rw [hagain] at hsecond
  -- in the first run nothing is proposed, no proposal decides, or one does
  cases hfirst with
  | empty hnil hprune =>
      have happlied : report.applied f = f.content := by
        apply Report.applied_of_not_adding
        intro e he htarget
        rw [hprune e he htarget]
        rfl
      rw [happlied, hnil, mergedOnce_self_iff hdas]
      refine iff_of_true ⟨by simp, fun e he htarget => Or.inr ⟨rfl, ?_⟩⟩ (Or.inl rfl)
      cases hsecond with
      | one d _ _ hd _ _ _ _ => simp [hnil] at hd
      | flagged _ hne _ _ => exact absurd hnil hne
      | empty _ hprune' => exact hprune' e he htarget
  | flagged hundecided hne hpresent hflag =>
      refine iff_of_false ?_ ?_
      · rintro ⟨-, hnoOp⟩
        cases hsecond with
        | one d _ hdecides _ _ _ _ _ => exact hundecided d hdecides
        | flagged _ _ hpresent' hflag' =>
            obtain ⟨e, he, htarget⟩ := hpresent'
            rcases hnoOp e he htarget with h | ⟨hnil, -⟩
            · rw [hflag' e he htarget] at h
              cases h
            · exact hne hnil
        | empty hnil _ => exact hne hnil
      · rintro (hnil | ⟨d, hdecides, -⟩)
        · exact hne hnil
        · exact hundecided d hdecides
  | one d e hdecides hd hone hown hpresent honly' =>
      rw [hget, reconcileOne_alternative (honly d hd) hfrozen hdas] at hone
      have he := Except.ok.inj hone
      by_cases hkept : fingerprintsMatch lib.py f d = true ∨
          alternativeRef lib.py d.fragment ∈ das.map (alternativeRef lib.py)
      · rw [if_pos hkept] at he
        refine merged_iff_of_kept honly hfrozen hdas hd hdecides hkept ?_ hget' hsecond
        apply Report.applied_of_not_adding
        intro e' he' htarget
        rw [honly' e' he' htarget, ← he]
        rfl
      · rw [if_neg hkept] at he
        rw [not_or, Bool.not_eq_true] at hkept
        refine merged_iff_of_appended honly hfrozen hdas hd hdecides hkept.1 hkept.2 ?_ hget'
          hsecond
        rw [Report.applied_of_only hpresent hown honly' (by rw [← he]; rfl), ← he]
        rfl

/-! ### Two alternatives to one binding -/

/-- The library on plain values; pages are not rendered. -/
def ReconcileLib.plain : ReconcileLib where
  py := .plain
  render _ _ _ := .ok ⟨"", "", []⟩

private def revenueBinding : ExistingFact where
  target := "contracts/metrics/revenue.yaml"
  content := [("metric", .str "revenue"), ("deprecated_alternatives", .arr [])]
  provenance := .humanCurated

private def revenueAccepted : AcceptedStore where
  facts := [revenueBinding]

private def alternativeTo (ref : String) : Proposal where
  target := "contracts/metrics/revenue.yaml"
  op := .edit
  content := [(daSentinel,
    .obj [("source", .str "bi"), ("ref", .str ref), ("reason", .str "Revenue")])]
  confidence := .one
  anchoredTo := [ref]

/-- One alternative is merged, whatever the tier of the binding. -/
theorem alternatives_merged_one : ∃ report report',
    reconcile .plain { minConfidence := .one } revenueAccepted [alternativeTo "a"] = .ok report ∧
      MergedOnce .plain revenueBinding.content (report.applied revenueBinding)
        (proposalsAt [alternativeTo "a"] revenueBinding.target) ∧
      IsNoOp report' revenueBinding.target
        (proposalsAt [alternativeTo "a"] revenueBinding.target) := by
  obtain ⟨report, hreport, happlied⟩ : ∃ report, reconcile .plain { minConfidence := .one }
      revenueAccepted [alternativeTo "a"] = .ok report ∧
      decide (report.applied revenueBinding = [("metric", .str "revenue"),
        ("deprecated_alternatives", .arr [.obj (alternativeTo "a").fragment])]) = true :=
    exists_ok_of_any (by decide +kernel)
  have happlied := of_decide_eq_true happlied
  let applied : AcceptedStore := { facts := [{ revenueBinding with content :=
    [("metric", .str "revenue"),
      ("deprecated_alternatives", .arr [.obj (alternativeTo "a").fragment])] }] }
  obtain ⟨report', hreport'⟩ : ∃ report', reconcile .plain { minConfidence := .one } applied
      [alternativeTo "a"] = .ok report' := exists_ok_of_isOk (by decide +kernel)
  have honly : ∀ p ∈ proposalsAt [alternativeTo "a"] revenueBinding.target, IsAlternative p := by
    intro p hp
    rw [List.mem_singleton.mp (List.mem_of_mem_filter hp)]
    rfl
  refine ⟨report, report', hreport, ?_⟩
  have hget : applied.get revenueBinding.target =
      some { revenueBinding with content := report.applied revenueBinding } := by
    rw [happlied]
    decide
  refine (@alternatives_merged_iff .plain { minConfidence := .one } revenueAccepted applied
    _ _ _ _ _ [] (by decide) rfl rfl honly hreport hget rfl hreport').mpr ?_
  -- it decides the list, and the binding has another fingerprint
  have hdecides : DecidesFor .plain (proposalsAt [alternativeTo "a"] revenueBinding.target)
      (alternativeTo "a") := Or.inl ⟨by decide +kernel, rfl⟩
  refine Or.inr ⟨_, hdecides, fun p hp _ => ?_⟩
  rw [List.mem_singleton.mp (List.mem_of_mem_filter hp)]
  exact ⟨rfl, by decide +kernel⟩

/-- Two alternatives are flagged as a contradiction, and neither is recorded. -/
theorem alternatives_merged_counterexample : ∃ report,
    reconcile .plain { minConfidence := .one } revenueAccepted
        [alternativeTo "a", alternativeTo "b"] = .ok report ∧
      (∀ e ∈ report, e.decision = .contradiction) ∧
      report.applied revenueBinding = revenueBinding.content ∧
      ¬ MergedOnce .plain revenueBinding.content (report.applied revenueBinding)
        [alternativeTo "a", alternativeTo "b"] := by
  obtain ⟨report, hreport, hrun⟩ : ∃ report, reconcile .plain { minConfidence := .one }
      revenueAccepted [alternativeTo "a", alternativeTo "b"] = .ok report ∧
      (report.all (fun e => decide (e.decision = .contradiction)) &&
        decide (report.applied revenueBinding = revenueBinding.content)) = true :=
    exists_ok_of_any (by decide +kernel)
  simp only [Bool.and_eq_true, decide_eq_true_eq, List.all_eq_true] at hrun
  refine ⟨report, hreport, hrun.1, hrun.2, fun hmerged => ?_⟩
  rw [hrun.2] at hmerged
  have hrecorded := (@mergedOnce_self_iff _ _ [] _ rfl).mp hmerged (alternativeTo "a")
    List.mem_cons_self
  simp at hrecorded

end Canonic
