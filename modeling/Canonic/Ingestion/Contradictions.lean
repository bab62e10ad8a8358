import Canonic.Ingestion.Builder
import Canonic.Ingestion.Contested

set_option autoImplicit false

/-! # Contradictions

Whether the decisions of a run depend on the order of its proposals: the groups of a target, the
sources the run leaves, the pages rendered against them and the candidates resolved against them are
the same in any order, where a signature stands for one fact.

`no_silent_winner` puts this beside the targets that are flagged. -/

namespace Canonic

variable {lib : ReconcileLib} {py : PyLib} {policy : AutoApplyConfig} {accepted : AcceptedStore}

/-! ## Proposals that stand for one fact -/

/-- Two proposals that state one fact. -/
structure SameFact (p q : Proposal) : Prop where
  content : p.content = q.content
  provenance : p.provenance = q.provenance

/-- Proposals of one target that share a signature state one fact. -/
def SignaturesSound (py : PyLib) (ps : List Proposal) : Prop :=
  ∀ p ∈ ps, ∀ q ∈ ps, p.target = q.target → signature py p = signature py q → SameFact p q

theorem SignaturesSound.perm {ps ps' : List Proposal} (h : SignaturesSound py ps)
    (hperm : ps.Perm ps') : SignaturesSound py ps' := fun p hp q hq =>
  h p (hperm.mem_iff.mpr hp) q (hperm.mem_iff.mpr hq)

theorem definitionFingerprint_congr {p q : Proposal} (h : p.content = q.content) :
    proposalDefinitionFingerprint py p = proposalDefinitionFingerprint py q := by
  rw [proposalDefinitionFingerprint, proposalDefinitionFingerprint, h]

theorem fingerprint_signature_ne (a : String) (content : Content) (b : String) :
    s!"fp:{a}|def:{b}" ≠ "content:" ++ py.dumps content := by
  intro h
  have hchars := congrArg String.toList h
  simp [toString] at hchars

/-- The signature of a content tells its fingerprint. -/
theorem fingerprint_of_signature {p q : Proposal} (hcontent : p.content = q.content)
    (h : signature py p = signature py q) :
    proposalFingerprint py p = proposalFingerprint py q := by
  have hdef : proposalDefinitionFingerprint py p = proposalDefinitionFingerprint py q :=
    definitionFingerprint_congr hcontent
  cases hp : proposalFingerprint py p with
  | none =>
      cases hq : proposalFingerprint py q with
      | none => rfl
      | some b =>
          simp only [signature, hp, hq] at h
          exact absurd h.symm (fingerprint_signature_ne _ _ _)
  | some a =>
      cases hq : proposalFingerprint py q with
      | none =>
          simp only [signature, hp, hq] at h
          exact absurd h (fingerprint_signature_ne _ _ _)
      | some b =>
          simp only [signature, hp, hq, hdef] at h
          have hchars := congrArg String.toList h
          simp only [toString, String.toList_append, List.append_cancel_right_eq,
            List.append_cancel_left_eq] at hchars
          rw [String.toList_inj.mp hchars]

/-- What an entry decides, and the content it decides on. -/
def Entry.outcome (e : Entry) : Decision × Content := (e.decision, e.proposal.content)

section SameFact

variable {p q : Proposal}

theorem SameFact.outcome_against (h : SameFact p q) (d : Decision) (f : ExistingFact) :
    (Entry.against d p f).outcome = (Entry.against d q f).outcome :=
  congrArg (Prod.mk d) h.content

theorem SameFact.outcome_flagAnswer (h : SameFact p q) (existing : Option ExistingFact) :
    (flagAnswerOutcome p existing).outcome = (flagAnswerOutcome q existing).outcome :=
  congrArg (Prod.mk Decision.contradiction) h.content

theorem SameFact.fingerprintsMatch_eq (h : SameFact p q) (hsig : signature py p = signature py q)
    (f : ExistingFact) : fingerprintsMatch py f p = fingerprintsMatch py f q := by
  rw [fingerprintsMatch, fingerprintsMatch, fingerprint_of_signature h.content hsig,
    definitionFingerprint_congr h.content]

theorem SameFact.merge_eq (h : SameFact p q) (f : ExistingFact) :
    (mergeDeprecatedAlternative py policy p f).map Entry.outcome =
      (mergeDeprecatedAlternative py policy q f).map Entry.outcome := by
  rw [mergeDeprecatedAlternative, mergeDeprecatedAlternative, h.content]
  split
  · exact congrArg Except.ok (h.outcome_against .contradiction f)
  · simp only [except_map_bind]
    refine bind_congr fun value => bind_congr fun fragment => bind_congr fun das =>
      bind_congr fun known => ?_
    cases known with
    | true => exact congrArg Except.ok (h.outcome_against .noOp f)
    | false => rfl

/-- Proposals that state one fact are decided alike, with the same content. -/
theorem SameFact.outcome_eq (h : SameFact p q) (hsig : signature py p = signature py q)
    {existing : Option ExistingFact} {e e' : Entry}
    (he : reconcileOne py policy p existing = .ok e)
    (he' : reconcileOne py policy q existing = .ok e') : e.outcome = e'.outcome := by
  have key : (reconcileOne py policy p existing).map Entry.outcome =
      (reconcileOne py policy q existing).map Entry.outcome := by
    unfold reconcileOne
    rw [h.content, h.provenance]
    split
    · exact congrArg Except.ok (h.outcome_flagAnswer existing)
    · cases existing with
      | none => exact congrArg (fun c => Except.ok (Decision.add, c)) h.content
      | some f =>
          simp only [h.fingerprintsMatch_eq hsig f]
          split
          · exact congrArg Except.ok (h.outcome_against .noOp f)
          · split
            · exact h.merge_eq f
            · split
              · exact congrArg Except.ok (h.outcome_against .contradiction f)
              · split
                · exact congrArg Except.ok (h.outcome_against .contradiction f)
                · exact congrArg Except.ok (h.outcome_against .edit f)
  rw [he, he'] at key
  exact Except.ok.inj key

end SameFact

/-! ## Any order of a group -/

theorem check_eq_false {winnerTypes : List (Json × Json)} {others : List Proposal} :
    hasTypeConflict.check winnerTypes others = .ok false ↔
      ∀ o ∈ others, ∃ types, columnTypes o.content = .ok types ∧
        typesDiffer winnerTypes types = false := by
  induction others with
  | nil => simp [hasTypeConflict.check]
  | cons o others ih =>
      rw [hasTypeConflict.check, bind_eq_ok, List.forall_mem_cons, ← ih]
      constructor
      · rintro ⟨types, htypes, h⟩
        split at h
        · simp at h
        · rename_i hsame
          exact ⟨⟨types, htypes, by simpa using hsame⟩, h⟩
      · rintro ⟨⟨types, htypes, hsame⟩, h⟩
        exact ⟨types, htypes, by simpa [hsame] using h⟩

/-- No column type speaks against a winner: this is read off its content, and off the others in any
order. -/
theorem hasTypeConflict_eq_false {winner : Proposal} {others : List Proposal} :
    hasTypeConflict winner others = .ok false ↔
      ∃ types, columnTypes winner.content = .ok types ∧
        (types = [] ∨ hasTypeConflict.check types others = .ok false) := by
  rw [hasTypeConflict, bind_eq_ok]
  refine exists_congr fun types => and_congr_right fun _ => ?_
  by_cases hnil : types = []
  · simp [hnil]
  · have hne : types.isEmpty = false := by simpa using hnil
    simp [hne, hnil]

section GroupOrder

variable {group group' : List Proposal}

theorem maxRank_perm (h : group.Perm group') : maxRank group = maxRank group' := by
  unfold maxRank
  exact (h.map Proposal.rank).foldl_eq 0

theorem signatureCount_perm (h : group.Perm group') :
    signatureCount py group = signatureCount py group' :=
  (h.map (signature py)).dedup.length_eq

theorem winnersOf_perm (h : group.Perm group') : (winnersOf group).Perm (winnersOf group') := by
  rw [winnersOf, winnersOf, maxRank_perm h]
  exact h.filter _

theorem losersOf_perm (h : group.Perm group') : (losersOf group).Perm (losersOf group') := by
  rw [losersOf, losersOf, maxRank_perm h]
  exact h.filter _

/-- The proposals of one signature in a group state one fact. -/
def GroupSound (py : PyLib) (group : List Proposal) : Prop :=
  ∀ p ∈ group, ∀ q ∈ group, signature py p = signature py q → SameFact p q

/-- Two proposals that stand for one fact and share a signature. -/
def Interchangeable (py : PyLib) (p q : Proposal) : Prop :=
  SameFact p q ∧ signature py p = signature py q

theorem preferred_perm (hperm : group.Perm group') (hsound : GroupSound py group) {w : Proposal}
    (h : preferred py group = some w) :
    ∃ w', preferred py group' = some w' ∧ Interchangeable py w w' := by
  unfold preferred at h
  cases hw : winnersOf group with
  | nil => simp [hw] at h
  | cons v rest =>
      simp only [hw] at h
      split at h
      · rename_i hcond
        obtain rfl := Option.some.inj h
        rw [← hw] at hcond
        simp only [Bool.and_eq_true, Bool.not_eq_true', beq_iff_eq] at hcond
        obtain ⟨⟨hlosers, hcount⟩, hconflict⟩ := hcond
        -- the winners are the same in every order, and the first one may be another
        have hwinners := winnersOf_perm hperm
        obtain ⟨w', rest', hw'⟩ : ∃ w' rest', winnersOf group' = w' :: rest' := by
          refine List.exists_cons_of_ne_nil fun hnil => ?_
          rw [hnil, hw] at hwinners
          exact absurd hwinners.length_eq (by simp)
        have hv : v ∈ winnersOf group := by simp [hw]
        have hv' : w' ∈ winnersOf group := hwinners.mem_iff.mpr (by simp [hw'])
        have hsig : signature py v = signature py w' := by
          by_contra hne
          have hlt : 1 < signatureCount py (winnersOf group) :=
            one_lt_signatureCount.mpr ⟨v, hv, w', hv', hne⟩
          omega
        have hsame : SameFact v w' :=
          hsound v (List.mem_of_mem_filter hv) w' (List.mem_of_mem_filter hv') hsig
        have hfalse : hasTypeConflict w' (losersOf group') = .ok false := by
          have hok : hasTypeConflict v (losersOf group) = .ok false := by
            cases hc : hasTypeConflict v (losersOf group) with
            | error e => simp [hc, Except.toOption] at hconflict
            | ok b => simpa [hc, Except.toOption] using hconflict
          obtain ⟨types, htypes, hcheck⟩ := hasTypeConflict_eq_false.mp hok
          refine hasTypeConflict_eq_false.mpr ⟨types, by rw [← hsame.content]; exact htypes, ?_⟩
          refine hcheck.imp_right fun hcheck => check_eq_false.mpr fun o ho => ?_
          exact check_eq_false.mp hcheck o ((losersOf_perm hperm).mem_iff.mpr ho)
        refine ⟨w', ?_, hsame, hsig⟩
        have hlosers' : (losersOf group').isEmpty = false := by
          rw [← hlosers, List.isEmpty_eq_false_iff_exists_mem.mpr, hlosers]
          obtain ⟨x, hx⟩ := List.isEmpty_eq_false_iff_exists_mem.mp hlosers
          exact ⟨x, (losersOf_perm hperm).mem_iff.mp hx⟩
        have hcount' : signatureCount py (w' :: rest') = 1 := by
          rw [← hw', ← signatureCount_perm hwinners, hcount]
        simp [preferred, hw', hlosers', hcount', hfalse, Except.toOption]
      · simp at h

/-- The deciders of a group are the same in any order, up to the fact they state. -/
inductive DecidersAgree (py : PyLib) (group group' : List Proposal) : Prop where
  | one (p p' : Proposal) (left : deciders py group = [p]) (right : deciders py group' = [p'])
      (same : Interchangeable py p p')
  | all (left : deciders py group = group) (right : deciders py group' = group')
      (several : 1 < signatureCount py group)
  | empty (left : group = []) (right : group' = [])

theorem decidersAgree_of_perm (hperm : group.Perm group') (hsound : GroupSound py group) :
    DecidersAgree py group group' := by
  have hcount : signatureCount py group = signatureCount py group' := signatureCount_perm hperm
  have hsound' : GroupSound py group' := fun p hp q hq =>
    hsound p (hperm.mem_iff.mpr hp) q (hperm.mem_iff.mpr hq)
  by_cases hsig : 1 < signatureCount py group
  · have hsig' : 1 < signatureCount py group' := by omega
    cases hpref : preferred py group with
    | some w =>
        obtain ⟨w', hw', hsame⟩ := preferred_perm hperm hsound hpref
        exact .one w w' (by rw [deciders, if_pos hsig, hpref])
          (by rw [deciders, if_pos hsig', hw']) hsame
    | none =>
        have hnone : preferred py group' = none := by
          cases hpref' : preferred py group' with
          | none => rfl
          | some w' =>
              obtain ⟨w, hw, -⟩ := preferred_perm hperm.symm hsound' hpref'
              rw [hpref] at hw
              simp at hw
        exact .all (by rw [deciders, if_pos hsig, hpref]) (by rw [deciders, if_pos hsig', hnone])
          hsig
  · have hsig' : ¬ 1 < signatureCount py group' := by omega
    rcases group with _ | ⟨p, rest⟩
    · exact .empty rfl hperm.nil_eq.symm
    · obtain ⟨p', rest', rfl⟩ : ∃ p' rest', group' = p' :: rest' :=
        List.exists_cons_of_ne_nil fun hnil => by simp [hnil] at hperm
      have hp' : p' ∈ p :: rest := hperm.mem_iff.mpr List.mem_cons_self
      have hsame : signature py p = signature py p' := by
        by_contra hne
        exact hsig (one_lt_signatureCount.mpr ⟨p, List.mem_cons_self, p', hp', hne⟩)
      exact .one p p' (by rw [deciders, if_neg hsig]; rfl) (by rw [deciders, if_neg hsig']; rfl)
        ⟨hsound p List.mem_cons_self p' hp' hsame, hsame⟩

/-- Two entries that decide alike, and leave the same content where they leave one. -/
structure DecidedAlike (e e' : Entry) : Prop where
  target : e.target = e'.target
  decision : e.decision = e'.decision
  content : e.decision.isAdding = true → e.proposal.content = e'.proposal.content

/-- The entries of a group do not depend on its order. -/
theorem GroupDecided.entry_perm {target : String} {es es' : List Entry}
    (hperm : group.Perm group') (hsound : GroupSound py group)
    (hgroup : ∀ p ∈ group, p.target = target)
    (h : GroupDecided py policy accepted target group es)
    (h' : GroupDecided py policy accepted target group' es') {e : Entry} (he : e ∈ es) :
    ∃ e' ∈ es', DecidedAlike e e' := by
  have hcount : signatureCount py group = signatureCount py group' := signatureCount_perm hperm
  have htarget := h.target_eq hgroup he
  have htarget' {e' : Entry} (he' : e' ∈ es') : e'.target = target :=
    h'.target_eq (fun p hp => hgroup p (hperm.mem_iff.mpr hp)) he'
  -- one proposal decides in both orders, or all of them do, or there is none
  cases decidersAgree_of_perm hperm hsound with
  | one p p' hleft hright hsame =>
      cases h with
      | one q e₁ hq hone hes =>
          obtain rfl : e = e₁ := by simpa [hes] using he
          obtain rfl : p = q := by simpa [hleft] using hq
          cases h' with
          | one q' e' hq' hone' hes' =>
              obtain rfl : p' = q' := by simpa [hright] using hq'
              have hmem : e' ∈ es' := by simp [hes']
              obtain ⟨hd, hcontent⟩ := Prod.mk.inj (hsame.1.outcome_eq hsame.2 hone hone')
              exact ⟨e', hmem, htarget.trans (htarget' hmem).symm, hd, fun _ => hcontent⟩
          | flagged action hall hsig _ =>
              rw [hall] at hright
              exact absurd (hright ▸ hsig) (not_one_lt_signatureCount_singleton p')
          | empty hnil _ => simp [hnil, deciders, signatureCount] at hright
      | flagged action hall hsig _ =>
          rw [hall] at hleft
          exact absurd (hleft ▸ hsig) (not_one_lt_signatureCount_singleton p)
      | empty _ hes => simp [hes] at he
  | all hleft hright hsig =>
      cases h with
      | one q _ hq _ _ =>
          rw [hleft] at hq
          exact absurd (hq ▸ hsig) (not_one_lt_signatureCount_singleton q)
      | flagged action _ _ hes =>
          rw [hes] at he
          obtain ⟨p, hp, rfl⟩ := List.mem_map.mp he
          cases h' with
          | one q _ hq _ _ =>
              rw [hright] at hq
              rw [hcount, hq] at hsig
              exact absurd hsig (not_one_lt_signatureCount_singleton q)
          | flagged action' _ _ hes' =>
              refine ⟨flaggedSide target action' p, ?_, rfl, rfl, fun _ => rfl⟩
              rw [hes']
              exact List.mem_map_of_mem (hperm.mem_iff.mp hp)
          | empty hnil _ =>
              rw [hnil] at hperm
              simp [hperm.eq_nil] at hp
      | empty _ hes => simp [hes] at he
  | empty hnil _ =>
      cases h with
      | one q _ hq _ _ => simp [hnil, deciders, signatureCount] at hq
      | flagged _ _ hsig _ => simp [hnil, signatureCount] at hsig
      | empty _ hes => simp [hes] at he

end GroupOrder

theorem decideGroups_perm {ps ps' : List Proposal} {es es' : List Entry} (hperm : ps.Perm ps')
    (hsound : SignaturesSound py ps)
    (h : decideGroups py policy accepted (groupByTarget ps) = .ok es)
    (h' : decideGroups py policy accepted (groupByTarget ps') = .ok es') {e : Entry}
    (he : e ∈ es) : ∃ e' ∈ es', DecidedAlike e e' := by
  obtain ⟨gs, hdecided, hgs⟩ := exists_decided_at h e.target
  obtain ⟨gs', hdecided', hgs'⟩ := exists_decided_at h' e.target
  have hat : ∀ p ∈ ps.filter (fun p => p.target = e.target), p ∈ ps ∧ p.target = e.target := by
    intro p hp
    exact ⟨List.mem_of_mem_filter hp, by simpa using (List.mem_filter.mp hp).2⟩
  have hgsound : GroupSound py (ps.filter fun p => p.target = e.target) := fun p hp q hq =>
    hsound p (hat p hp).1 q (hat q hq).1 ((hat p hp).2.trans (hat q hq).2.symm)
  obtain ⟨e', he', hsame⟩ := hdecided.entry_perm (hperm.filter _) hgsound
    (fun p hp => (hat p hp).2) hdecided' ((hgs e).mpr ⟨he, rfl⟩)
  exact ⟨e', ((hgs' e').mp he').1, hsame⟩

/-! ## The sources a run leaves -/

/-- A source that lands. -/
structure Lands (entries : List Entry) (e : Entry) : Prop where
  mem : e ∈ entries
  semantic : startsWith e.target "semantics/" = true
  adding : e.decision.isAdding = true

theorem finalSources_get {entries : List Entry} (k : String) :
    (finalSources py accepted entries).get k =
      (((accepted.facts.filter fun f => startsWith f.target "semantics/").map (·.content) ++
        (entries.filter fun e => startsWith e.target "semantics/" && e.decision.isAdding).map
          (·.proposal.content)).filter fun c => sourceName py c = k).getLast? :=
  Dict.get_indexBy (sourceName py) _ k

/-- Where the sources that land under one name have one content, these contents are all that
matters. -/
theorem finalSources_perm {entries entries' : List Entry}
    (hmem : ∀ c, (∃ e, Lands entries e ∧ e.proposal.content = c) ↔
      ∃ e, Lands entries' e ∧ e.proposal.content = c)
    (hname : ∀ e e', Lands entries e → Lands entries e' →
      sourceName py e.proposal.content = sourceName py e'.proposal.content →
        e.proposal.content = e'.proposal.content) :
    (finalSources py accepted entries).Perm (finalSources py accepted entries') := by
  have hlanded {es : List Entry} {c : Content} : c ∈ (es.filter fun e =>
      startsWith e.target "semantics/" && e.decision.isAdding).map (·.proposal.content) ↔
      ∃ e, Lands es e ∧ e.proposal.content = c := by
    simp only [List.mem_map, List.mem_filter, Bool.and_eq_true]
    exact exists_congr fun e => and_congr_left fun _ =>
      ⟨fun h => ⟨h.1, h.2.1, h.2.2⟩, fun h => ⟨h.mem, h.semantic, h.adding⟩⟩
  have hget (k : String) : (finalSources py accepted entries).get k =
      (finalSources py accepted entries').get k := by
    rw [finalSources_get, finalSources_get, List.filter_append, List.filter_append]
    cases hl : ((entries.filter fun e => startsWith e.target "semantics/" &&
        e.decision.isAdding).map (·.proposal.content)).filter (fun c => sourceName py c = k) with
    | nil =>
        have hl' : ((entries'.filter fun e => startsWith e.target "semantics/" &&
            e.decision.isAdding).map (·.proposal.content)).filter
              (fun c => sourceName py c = k) = [] := by
          rw [List.filter_eq_nil_iff] at hl ⊢
          exact fun c hc => hl c (hlanded.mpr ((hmem c).mpr (hlanded.mp hc)))
        rw [hl']
    | cons c rest =>
        -- the last source of the name that lands is the only content of the name
        have hone {es : List Entry} (hes : ∀ d, (∃ e, Lands es e ∧ e.proposal.content = d) →
            ∃ e, Lands entries e ∧ e.proposal.content = d)
            (hne : ((es.filter fun e => startsWith e.target "semantics/" &&
              e.decision.isAdding).map (·.proposal.content)).filter
                (fun c => sourceName py c = k) ≠ []) :
            (((es.filter fun e => startsWith e.target "semantics/" &&
              e.decision.isAdding).map (·.proposal.content)).filter
                (fun c => sourceName py c = k)).getLast? = some c := by
          rw [List.getLast?_eq_some_getLast hne, Option.some.injEq]
          obtain ⟨hin, hk⟩ := List.mem_filter.mp (List.getLast_mem hne)
          obtain ⟨hin', hk'⟩ := List.mem_filter.mp (hl ▸ List.mem_cons_self : c ∈ _)
          obtain ⟨e, he, hec⟩ := hes _ (hlanded.mp hin)
          obtain ⟨e', he', hec'⟩ := hlanded.mp hin'
          rw [← hec, ← hec']
          refine hname e e' he he' ?_
          rw [hec, hec']
          simp only [decide_eq_true_eq] at hk hk'
          rw [hk, hk']
        have hne' : ((entries'.filter fun e => startsWith e.target "semantics/" &&
            e.decision.isAdding).map (·.proposal.content)).filter
              (fun c => sourceName py c = k) ≠ [] := by
          obtain ⟨hin, hk⟩ := List.mem_filter.mp (hl ▸ List.mem_cons_self : c ∈ _)
          exact List.ne_nil_of_mem (List.mem_filter.mpr
            ⟨hlanded.mpr ((hmem c).mp (hlanded.mp hin)), hk⟩)
        have hne : ((entries.filter fun e => startsWith e.target "semantics/" &&
            e.decision.isAdding).map (·.proposal.content)).filter
              (fun c => sourceName py c = k) ≠ [] := by
          rw [hl]
          simp
        rw [← hl, List.getLast?_append_of_ne_nil _ hne, List.getLast?_append_of_ne_nil _ hne',
          hone (fun _ => id) hne, hone (fun d => (hmem d).mpr) hne']
  have hkeyed : ∀ entries, Keyed py (finalSources py accepted entries) := finalSources_keyed
  have hnd := (hkeyed entries).nodup
  have hnd' := (hkeyed entries').nodup
  refine (List.perm_ext_iff_of_nodup hnd.of_map hnd'.of_map).mpr fun p => ?_
  constructor
  · intro hp
    exact Dict.get_eq_some_mem ((hget p.1).symm.trans (Dict.get_of_mem hnd hp))
  · intro hp
    exact Dict.get_eq_some_mem ((hget p.1).trans (Dict.get_of_mem hnd' hp))

/-! ## The candidates of a run, in any order -/

theorem readable_perm {entries entries' : List Entry}
    (h : (finalSources py accepted entries).Perm (finalSources py accepted entries')) :
    Readable py accepted (finalSources py accepted entries) =
      Readable py accepted (finalSources py accepted entries') := by
  have hmem : ∀ source, source ∈ (finalSources py accepted entries).map (·.2) ↔
      source ∈ (finalSources py accepted entries').map (·.2) := fun source => (h.map _).mem_iff
  funext c
  refine propext (and_congr_right fun _ => forall₂_congr fun r _ => ?_)
  cases r with
  | source s => simp only [Reference.ExistsIn, hmem]
  | listed s fields n => simp only [Reference.ExistsIn, hmem]
  | dimension n => simp only [Reference.ExistsIn, hmem]
  | column n => simp only [Reference.ExistsIn, hmem]

/-- What the resolver finds does not depend on the order of the sources and the candidates. -/
theorem foundByResolver_perm {entries entries' : List Entry} {cs cs' : List Candidate}
    (hsources : (finalSources py accepted entries).Perm (finalSources py accepted entries'))
    (hcs : cs.Perm cs') {c : Candidate} : FoundByResolver py accepted entries cs c ↔
      FoundByResolver py accepted entries' cs' c := by
  rw [FoundByResolver, FoundByResolver, readable_perm hsources]
  exact Closure.canFire_perm hcs

/-- No candidate is in a circle, or needs what one in a circle gives. -/
def Acyclic (cs : List Candidate) : Prop :=
  ∀ c ∈ cs, ¬ Closure.Stuck Candidate.metric (fun c => c.binding.needs) cs c

theorem Acyclic.perm {cs cs' : List Candidate} (h : Acyclic cs) (hperm : cs.Perm cs') :
    Acyclic cs' := fun c hc hstuck =>
  h c (hperm.mem_iff.mpr hc) (hstuck.mono fun _ hd => hperm.mem_iff.mpr hd)

section Resolved

variable {entries entries' : List Entry} {cs cs' : List Candidate} {es es' : List Entry}

/-- Where no candidates need each other in a circle, one is added if the resolver finds everything
it refers to, and is a no-op otherwise. -/
theorem resolveCandidates_found (hnd : DistinctTargets py cs) (hacyclic : Acyclic cs)
    (h : resolveCandidates py accepted entries (fun p => reconcileOne py policy p none)
      (cs.map (·.proposal py)) = .ok es) {c : Candidate} (hc : c ∈ cs) :
    (∃ e ∈ es, e.target = c.target py) ∧ ∀ e ∈ es, e.target = c.target py →
      (FoundByResolver py accepted entries cs c → e.decision = .add) ∧
      (¬ FoundByResolver py accepted entries cs c → e.decision = .noOp) := by
  let _ := Classical.decPred (Readable py accepted (finalSources py accepted entries))
  have hinj : ∀ c ∈ cs, ∀ d ∈ cs, c.metric = d.metric → c = d := fun c hc d hd heq =>
    hnd.eq_of_target hc hd (congrArg (bindingTarget py) heq)
  have hno : NoCircularNeed py accepted entries cs := fun c hc _ _ _ hstuck =>
    absurd hstuck (hacyclic c hc)
  have hfires := (Closure.fires_in_every_order_iff hnd.nodup hinj).mpr
    ⟨fun d _ => Iff.rfl, hno⟩ cs (.refl cs) c hc
  obtain ⟨hex, hdecided⟩ := resolveCandidates_fires h hnd hc
  refine ⟨hex, fun e he htarget => ?_⟩
  obtain ⟨hadd, hskip⟩ := hdecided e he htarget
  exact ⟨fun hyes => hadd (hfires.mpr hyes), fun hnot => hskip fun hyes => hnot (hfires.mp hyes)⟩

theorem resolveCandidates_perm (hnd : DistinctTargets py cs) (hacyclic : Acyclic cs)
    (hsources : (finalSources py accepted entries).Perm (finalSources py accepted entries'))
    (hcs : cs.Perm cs')
    (h : resolveCandidates py accepted entries (fun p => reconcileOne py policy p none)
      (cs.map (·.proposal py)) = .ok es)
    (h' : resolveCandidates py accepted entries' (fun p => reconcileOne py policy p none)
      (cs'.map (·.proposal py)) = .ok es') {e : Entry} (he : e ∈ es) :
    ∃ e' ∈ es', e'.target = e.target ∧ e'.decision = e.decision := by
  have hnd' : DistinctTargets py cs' := (hcs.map _).nodup_iff.mp hnd
  obtain ⟨⟨c, hc, htarget⟩, -⟩ := resolveCandidates_entry hnd h he
  obtain ⟨hadd, hskip⟩ := (resolveCandidates_found hnd hacyclic h hc).2 e he htarget
  obtain ⟨⟨e', he', htarget'⟩, hdecided⟩ :=
    resolveCandidates_found hnd' (hacyclic.perm hcs) h' (hcs.mem_iff.mp hc)
  obtain ⟨hadd', hskip'⟩ := hdecided e' he' htarget'
  refine ⟨e', he', htarget'.trans htarget.symm, ?_⟩
  have hfound := foundByResolver_perm (c := c) hsources hcs
  by_cases hyes : FoundByResolver py accepted entries cs c
  · rw [hadd hyes, hadd' (hfound.mp hyes)]
  · rw [hskip hyes, hskip' fun hyes' => hyes (hfound.mpr hyes')]

end Resolved

/-! ## Any order of a run -/

/-- A run whose decisions do not depend on the order of its proposals: a signature stands for one
fact, no two targets give one source, and no candidates need each other in a circle. -/
structure OrderSound (py : PyLib) (pages proposals : List Proposal) (cs : List Candidate) :
    Prop where
  ordinary : SignaturesSound py (proposals.filter isOrdinary)
  pages : SignaturesSound py pages
  acyclic : Acyclic cs
  /-- Where the sources are read, drafts of pages are no sources, nor are alternatives. -/
  placed : ∀ p ∈ proposals, startsWith p.target "semantics/" = true →
    isPageDraft p = false ∧ Dict.has p.content daSentinel = false
  named : (∃ d ∈ proposals, isOrdinary d = false) → ∀ p ∈ proposals.filter isOrdinary,
    ∀ q ∈ proposals.filter isOrdinary, startsWith p.target "semantics/" = true →
      startsWith q.target "semantics/" = true →
        sourceName py p.content = sourceName py q.content → p.target = q.target

namespace Parts

variable {proposals proposals' : List Proposal} {report report' : Report} {cs : List Candidate}
  (s : Parts lib policy accepted proposals report)
  (s' : Parts lib policy accepted proposals' report')

include s

/-- One entry at most lands at a target, and it has the content of a proposal. -/
theorem landed_own (hplaced : ∀ p ∈ proposals, startsWith p.target "semantics/" = true →
      isPageDraft p = false ∧ Dict.has p.content daSentinel = false) {e : Entry}
    (he : Lands s.decided e) :
    (∃ p ∈ proposals.filter isOrdinary, p.target = e.target ∧ e.proposal = p) ∧
      ∀ e' ∈ s.decided, e'.target = e.target → e' = e := by
  obtain ⟨es, hdecided, hes⟩ := exists_decided_at s.decided_eq e.target
  have hmem := (hes e).mpr ⟨he.mem, rfl⟩
  cases hdecided with
  | one p e₁ hone hp hentries =>
      obtain rfl : e = e₁ := by simpa [hentries] using hmem
      have hpin : p ∈ (proposals.filter isOrdinary).filter fun p => p.target = e.target :=
        mem_of_mem_deciders (hone ▸ List.mem_singleton_self p)
      obtain ⟨hord, htarget⟩ := List.mem_filter.mp hpin
      have htarget : p.target = e.target := by simpa using htarget
      constructor
      · refine ⟨p, hord, htarget, ?_⟩
        cases (reconcileOne_decided hp).2 with
        | contradiction _ _ own => exact own
        | noOp _ _ own => exact own
        | add _ _ _ _ own => exact own
        | edit _ _ _ _ _ _ _ _ own => exact own
        | merge f das fragment _ merges _ _ _ =>
            have hno := (hplaced p (List.mem_of_mem_filter hord) (htarget ▸ he.semantic)).2
            rw [merges.marked] at hno
            cases hno
      · intro e' he' htarget'
        simpa [hentries] using (hes e').mpr ⟨he', htarget'⟩
  | flagged action _ _ hentries =>
      rw [hentries] at hmem
      obtain ⟨p, -, hp⟩ := List.mem_map.mp hmem
      have hadding := he.adding
      rw [← hp] at hadding
      cases hadding
  | empty _ hentries => simp [hentries] at hmem

/-- The pages do not land among the sources. -/
theorem lands_iff (hplaced : ∀ p ∈ proposals, startsWith p.target "semantics/" = true →
      isPageDraft p = false ∧ Dict.has p.content daSentinel = false) {e : Entry} :
    Lands (s.decided ++ s.pageDecided) e ↔ Lands s.decided e := by
  constructor
  · rintro ⟨hmem, hsemantic, hadding⟩
    refine ⟨(List.mem_append.mp hmem).resolve_right fun hpage => ?_, hsemantic, hadding⟩
    obtain ⟨es, hdecided, hes⟩ := exists_decided_at s.pageDecided_eq e.target
    obtain ⟨p, hp⟩ := List.exists_mem_of_ne_nil _ (hdecided.ne_nil.not.mp
      (List.ne_nil_of_mem ((hes e).mpr ⟨hpage, rfl⟩)))
    obtain ⟨hp, htarget⟩ := List.mem_filter.mp hp
    obtain ⟨d, hd, hmarked, hsame⟩ := s.pages_target hp
    have htarget : d.target = e.target := by rw [← hsame]; simpa using htarget
    rw [(hplaced d hd (htarget ▸ hsemantic)).1] at hmarked
    cases hmarked
  · exact fun h => ⟨List.mem_append_left _ h.mem, h.semantic, h.adding⟩

include s'

variable (hperm : proposals.Perm proposals')

include hperm

theorem landed_perm (hsound : SignaturesSound lib.py (proposals.filter isOrdinary)) {e : Entry}
    (he : Lands s.decided e) :
    ∃ e', Lands s'.decided e' ∧ e'.proposal.content = e.proposal.content := by
  obtain ⟨e', he', hsame⟩ := decideGroups_perm (hperm.filter _) hsound s.decided_eq s'.decided_eq
    he.mem
  exact ⟨e', ⟨he', hsame.target ▸ he.semantic, hsame.decision ▸ he.adding⟩,
    (hsame.content he.adding).symm⟩

/-- The runs leave the same sources. -/
theorem sources_perm (h : OrderSound lib.py s.pages proposals cs)
    (hother : ∃ d ∈ proposals, isOrdinary d = false) :
    (finalSources lib.py accepted s.decided).Perm (finalSources lib.py accepted s'.decided) ∧
      (finalSources lib.py accepted (s.decided ++ s.pageDecided)).Perm
        (finalSources lib.py accepted (s'.decided ++ s'.pageDecided)) := by
  have hplaced' : ∀ p ∈ proposals', startsWith p.target "semantics/" = true →
      isPageDraft p = false ∧ Dict.has p.content daSentinel = false := fun p hp =>
    h.placed p (hperm.mem_iff.mpr hp)
  have hname : ∀ e e', Lands s.decided e → Lands s.decided e' →
      sourceName lib.py e.proposal.content = sourceName lib.py e'.proposal.content →
        e.proposal.content = e'.proposal.content := by
    intro e e' he he' hsame
    obtain ⟨⟨p, hp, hpt, hpe⟩, -⟩ := s.landed_own h.placed he
    obtain ⟨⟨q, hq, hqt, hqe⟩, hone⟩ := s.landed_own h.placed he'
    have htarget := h.named hother p hp q hq (hpt ▸ he.semantic) (hqt ▸ he'.semantic)
      (by rw [← hpe, ← hqe]; exact hsame)
    rw [hone e he.mem (by rw [← hpt, htarget, hqt])]
  have hmem : ∀ c, (∃ e, Lands s.decided e ∧ e.proposal.content = c) ↔
      ∃ e, Lands s'.decided e ∧ e.proposal.content = c := by
    intro c
    constructor
    · rintro ⟨e, he, rfl⟩
      exact s.landed_perm s' hperm h.ordinary he
    · rintro ⟨e, he, rfl⟩
      exact s'.landed_perm s hperm.symm (h.ordinary.perm (hperm.filter _)) he
  refine ⟨finalSources_perm hmem hname, finalSources_perm (fun c => ?_) fun e e' he he' => ?_⟩
  · simp only [s.lands_iff h.placed, s'.lands_iff hplaced']
    exact hmem c
  · exact hname e e' ((s.lands_iff h.placed).mp he) ((s.lands_iff h.placed).mp he')

end Parts

/-- The text of a page does not depend on the order in which the sources are listed. -/
def RendersByName (lib : ReconcileLib) : Prop :=
  ∀ target doc ss ss', (ss.map (·.1)).Nodup → ss.Perm ss' →
    lib.render target doc ss = lib.render target doc ss'

/-- The pages of a run do not depend on the order of its proposals. -/
theorem Parts.pages_perm {proposals proposals' : List Proposal} {report report' : Report}
    {cs : List Candidate} (s : Parts lib policy accepted proposals report)
    (s' : Parts lib policy accepted proposals' report') (hrender : RendersByName lib)
    (hperm : proposals.Perm proposals') (h : OrderSound lib.py s.pages proposals cs) :
    s.pages.Perm s'.pages := by
  have hdrafts : (proposals.filter isPageDraft).Perm (proposals'.filter isPageDraft) :=
    hperm.filter _
  have hpages := mapM_eq_ok.mp s.pages_eq
  by_cases hnil : proposals.filter isPageDraft = []
  · have hnil' : proposals'.filter isPageDraft = [] := by
      rw [hnil] at hdrafts
      exact hdrafts.symm.eq_nil
    have hpages' := mapM_eq_ok.mp s'.pages_eq
    rw [hnil, List.forall₂_nil_left_iff] at hpages
    rw [hnil', List.forall₂_nil_left_iff] at hpages'
    rw [hpages, hpages']
  · obtain ⟨d, hd⟩ := List.exists_mem_of_ne_nil _ hnil
    obtain ⟨hmem, hdraft⟩ := List.mem_filter.mp hd
    have hsources := (s.sources_perm s' hperm h ⟨d, hmem, by simp [isOrdinary, hdraft]⟩).1
    have hsame : ∀ draft, renderPageDraft lib (finalSources lib.py accepted s.decided) draft =
        renderPageDraft lib (finalSources lib.py accepted s'.decided) draft := by
      intro draft
      refine bind_congr fun doc => ?_
      rw [hrender _ _ _ _ (finalSources_keyed s.decided).nodup hsources]
    obtain ⟨pages', hpages', hp⟩ := List.perm_comp_forall₂ hdrafts.symm hpages
    have heq : pages' = s'.pages := Except.ok.inj <| (mapM_eq_ok.mpr <|
      hpages'.imp fun draft page hpage => (hsame draft).symm.trans hpage).symm.trans s'.pages_eq
    rw [← heq]
    exact hp.symm

/-- In another order the candidates of a run are those of the list in another order. -/
theorem BuiltCandidates.of_perm {proposals proposals' : List Proposal} {cs : List Candidate}
    (h : BuiltCandidates py proposals cs) (hperm : proposals.Perm proposals') :
    ∃ cs', cs.Perm cs' ∧ BuiltCandidates py proposals' cs' := by
  have hof : List.Forall₂ (fun p c => p = Candidate.proposal py c) (cs.map (·.proposal py)) cs :=
    List.forall₂_map_left_iff.mpr (List.forall₂_same.mpr fun _ _ => rfl)
  have hcandidates : (proposals'.filter isCandidate).Perm (cs.map (·.proposal py)) := by
    rw [← h.proposals_eq]
    exact (hperm.filter _).symm
  obtain ⟨cs', hproposals, hperm'⟩ := List.perm_comp_forall₂ hcandidates hof
  rw [← List.forall₂_map_right_iff, List.forall₂_eq_eq_eq] at hproposals
  exact ⟨cs', hperm'.symm, (hperm'.symm.map _).nodup_iff.mp h.distinct, hproposals⟩

/-- A decision of a run is made in every order of its proposals. -/
theorem Parts.decision_perm {proposals proposals' : List Proposal} {report report' : Report}
    {cs : List Candidate} (s : Parts lib policy accepted proposals report)
    (s' : Parts lib policy accepted proposals' report')
    (h' : reconcile lib policy accepted proposals' = .ok report') (hrender : RendersByName lib)
    (hcs : BuiltCandidates lib.py proposals cs) (hperm : proposals.Perm proposals')
    (h : OrderSound lib.py s.pages proposals cs) {e : Entry} (he : e ∈ report) :
    ∃ e' ∈ report', e'.target = e.target ∧ e'.decision = e.decision := by
  rcases s.mem_report.mp he with he | he | he | he
  · obtain ⟨e', he', hsame⟩ := decideGroups_perm (hperm.filter _) h.ordinary s.decided_eq
      s'.decided_eq he
    exact ⟨e', s'.mem_report.mpr (.inl he'), hsame.target.symm, hsame.decision.symm⟩
  · obtain ⟨e', he', hsame⟩ := decideGroups_perm (s.pages_perm s' hrender hperm h) h.pages
      s.pageDecided_eq s'.pageDecided_eq he
    exact ⟨e', s'.mem_report.mpr (.inr (.inl he')), hsame.target.symm, hsame.decision.symm⟩
  · obtain ⟨cs', hperm', hcs'⟩ := hcs.of_perm hperm
    have hresolved := s.resolved_eq
    have hresolved' := s'.resolved_eq
    rw [hcs.proposals_eq] at hresolved
    rw [hcs'.proposals_eq] at hresolved'
    obtain ⟨⟨c, hc, -⟩, -⟩ := resolveCandidates_entry hcs.distinct hresolved he
    obtain ⟨hmem, hcandidate⟩ := List.mem_filter.mp <|
      (hcs.proposals_eq ▸ List.mem_map_of_mem hc : c.proposal lib.py ∈ proposals.filter isCandidate)
    have hsources := (s.sources_perm s' hperm h ⟨_, hmem, by simp [isOrdinary, hcandidate]⟩).2
    obtain ⟨e', he', hsame⟩ := resolveCandidates_perm hcs.distinct h.acyclic hsources hperm'
      hresolved hresolved' he
    exact ⟨e', s'.mem_report.mpr (.inr (.inr (.inl he'))), hsame⟩
  · obtain ⟨f, hf, hfrozen, hinferred, hgone, htarget, hprune, -⟩ := mem_pruneDisappeared he
    obtain ⟨e', he', htarget', hprune'⟩ := exists_prune h' hf hfrozen hinferred
      fun p hp heq => hgone <| by
        rw [← heq]
        exact mem_addressed s.pages_eq (hperm.mem_iff.mpr hp)
    exact ⟨e', he', htarget'.trans htarget.symm, hprune'.trans hprune.symm⟩

theorem OrderSound.perm {proposals proposals' pages pages' : List Proposal}
    {cs cs' : List Candidate} (h : OrderSound py pages proposals cs)
    (hperm : proposals.Perm proposals') (hpages : pages.Perm pages') (hcs : cs.Perm cs') :
    OrderSound py pages' proposals' cs' where
  ordinary := h.ordinary.perm (hperm.filter _)
  pages := h.pages.perm hpages
  acyclic := h.acyclic.perm hcs
  placed p hp := h.placed p (hperm.mem_iff.mpr hp)
  named hother p hp q hq :=
    h.named (hother.imp fun _ => And.imp_left hperm.mem_iff.mpr) p
      ((hperm.filter _).mem_iff.mpr hp) q ((hperm.filter _).mem_iff.mpr hq)

private def ordersIn (relation : String) : RelationSchema :=
  let column := if relation = "legacy.orders" then "town" else "city"
  let columns : List ColumnInfo :=
    [{ name := column, type := "string", nullable := false, position := some 1 }]
  { connection := "warehouse"
    relation := relation
    columns := columns
    primaryKey := [column]
    acquisitionTier := .live
    sourceFingerprint := some (computeFingerprint Json.render columns [column] []) }

private def ordersLib : BuilderLib where
  py := .plain
  schema payload := match Dict.get payload "relation" with
    | some (.str relation) => .ok (ordersIn relation)
    | _ => raise "ValidationError"
  usage _ := raise "ValidationError"
  doc _ := .error "Field required"
  definitions _ _ := .ok { forRelation := fun _ => {} }
  columnsOf _ := .ok []
  definitionDigest _ := ""
  titleDigest _ := ""
  isWordChar c := c.isAlphanum || c == '_'
  drafter := nullLLMDrafter

private def ordersItem (relation : String) : EvidenceItem where
  source := "warehouse"
  kind := "relation_schema"
  acquisitionTier := .live
  payload := [("relation", .str relation)]
  sourceFingerprint := (ordersIn relation).sourceFingerprint.getD ""

/-- The draft of a relation, from its column and its fingerprint. -/
private def ordersDraft (relation column fingerprint : String) : Proposal where
  target := "semantics/warehouse/orders.yaml"
  op := .add
  content := [("name", .str "orders"), ("connection", .str "warehouse"), ("table", .str relation),
    ("grain", .texts [column]),
    ("columns", .arr [.obj [("name", .str column), ("type", .str "string"),
      ("nullable", .bool false)]]),
    ("measures", .arr [.obj [("name", .str "row_count"), ("expr", .str "count(*)"),
      ("additivity", .str "additive")]]),
    ("dimensions", .arr [.obj [("name", .str column), ("column", .str column)]]),
    ("joins", .arr []), ("meta", .obj [("source_fingerprint", .str fingerprint)])]
  confidence := .one
  anchoredTo := [fingerprint]

private def draftOf (relation : String) : Proposal :=
  ordersDraft relation (if relation = "legacy.orders" then "town" else "city")
    (ordersItem relation).sourceFingerprint

private def nothingAccepted : AcceptedStore where
  facts := []
  nodup := List.nodup_nil

private def unrendered : ReconcileLib where
  py := .plain
  render _ _ _ := .ok ⟨"", "", []⟩

end Canonic
