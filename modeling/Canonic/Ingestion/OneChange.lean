import Canonic.Ingestion.PageRefs
import Canonic.Ingestion.Sentinels

set_option autoImplicit false

/-! # One change for a target

Five passes put entries into a report: the groups of ordinary proposals, the pages, the candidates,
the enrichment with examples and the check of page references. Here the entries of one target are
followed through all of them.

Enrichment reads the report back by target, so afterwards the entries of a target are equal, and the
diffs can be applied in any order. But it writes the edit for changed examples into the place of
*every* entry of the binding: two sides of a disagreement become two edits. A candidate is decided
without a look at the entries there already are, so it is a second one for its target. -/

namespace Canonic

/-- Whether a decision changes a file. -/
def Decision.changes (d : Decision) : Bool := d.op.isSome

/-- At most one change for a target, no contradiction beside it, and any selection of the diffs
applied in any order leaves what each of them says. -/
structure OneChange (lib : EmitLib) (report : Report) : Prop where
  single : ∀ t, ((report.filter fun e => e.target = t).filter (·.decision.changes)).length ≤ 1
  settled : ∀ e ∈ report, e.decision.changes = true → ∀ e' ∈ report, e'.target = e.target →
    e'.decision ≠ .contradiction
  anyOrder : ∀ tree ds, (∀ d ∈ ds, d ∈ emitDiffs lib report) →
    (∀ ds', ds.Perm ds' → writeEmittedDiffs tree ds = writeEmittedDiffs tree ds') ∧
      ∀ d ∈ ds, writeEmittedDiffs tree ds d.target = d.outcome

section Conditions

variable (lib : IngestLib) (policy : AutoApplyConfig) (drafter : ReconcileDrafter)
  (accepted : AcceptedStore) (files : ProjectFiles) (evidence : List EvidenceItem)
  (proposals : List Proposal) (cs : List Candidate)

/-- The target is the file of a binding whose examples the run changes. -/
def ExamplesChange (t : String) : Prop :=
  ∃ b ∈ files.bindings, bindingTarget lib.py b.binding.metric = t ∧
    ∃ xs, examplesOf lib.py files.bindings files.assertions evidence b = .ok xs ∧
      b.isCurrent xs = false

/-- The proposals of a target disagree, none is preferred, and the drafter leaves it at that. -/
def LeftOpen (t : String) (group : List Proposal) : Prop :=
  1 < signatureCount lib.py group ∧ preferred lib.py group = none ∧
    ∃ index, drafter t group = .ok index ∧ drafted group index = none

/-- A candidate without an accepted file, whose sources, measures and dimensions are there and whose
metrics are bound when its turn comes. -/
def AddedInTurn (c : Candidate) : Prop :=
  ∃ decided, decideGroups lib.py policy accepted
      (groupByTarget (proposals.filter isOrdinary)) = .ok decided ∧
    Readable lib.py accepted (finalSources lib.py accepted decided) c ∧
    ∃ pre post, turns cs.length cs = pre ++ c :: post ∧ ∀ k ∈ c.binding.needs,
      k ∈ boundAfter lib.py accepted (finalSources lib.py accepted decided)
        (acceptedBound lib.py accepted) pre

/-- The passes keep apart: a candidate that shares its target with another proposal is not added,
and neither such a target nor one with an open disagreement is a binding's whose examples change. -/
structure KeepApart : Prop where
  shared : ∀ c ∈ cs, groupAt proposals (c.target lib.py) ≠ [] →
    ¬ AddedInTurn lib policy accepted proposals cs c ∧
      ¬ ExamplesChange lib files evidence (c.target lib.py)
  undecided : ∀ t, LeftOpen lib drafter t (groupAt proposals t) →
    ¬ ExamplesChange lib files evidence t

end Conditions

/-! ## Refinement at a target -/

variable {py : PyLib} {policy : AutoApplyConfig} {accepted : AcceptedStore}

/-- A target is replaced without regard to the others. -/
theorem filter_replaceSettled {replacements : Dict Entry} {report : List Entry} {t : String}
    (htarget : ∀ k r, Dict.get replacements k = some r → r.target = k)
    {emitted emitted' : List String} (hemitted : t ∈ emitted ↔ t ∈ emitted') :
    (replaceSettled replacements emitted report).filter (fun e => e.target = t) =
      replaceSettled replacements emitted' (report.filter fun e => e.target = t) := by
  induction report generalizing emitted emitted' with
  | nil => rfl
  | cons e rest ih =>
      by_cases ht : e.target = t
      · rw [List.filter_cons_of_pos (by simpa using ht), replaceSettled, replaceSettled]
        split
        · cases hget : Dict.get replacements e.target with
          | none =>
              simp only
              rw [List.filter_cons_of_pos (by simpa using ht), ih hemitted]
          | some r =>
              simp only [ht, hemitted]
              split
              · rename_i hmem
                exact ih hemitted
              · rw [List.filter_cons_of_pos (by simpa [ht] using htarget _ _ hget),
                  ih (show t ∈ _ :: emitted ↔ t ∈ t :: emitted' by simp)]
        · rw [List.filter_cons_of_pos (by simpa using ht), ih hemitted]
      · rw [List.filter_cons_of_neg (by simpa using ht), replaceSettled]
        split
        · cases hget : Dict.get replacements e.target with
          | none =>
              simp only
              rw [List.filter_cons_of_neg (by simpa using ht), ih hemitted]
          | some r =>
              have hr : ¬ r.target = t := by rwa [htarget _ _ hget]
              simp only
              split
              · exact ih hemitted
              · rw [List.filter_cons_of_neg (by simpa using hr)]
                exact ih (by simpa [Ne.symm ht] using hemitted)
        · rw [List.filter_cons_of_neg (by simpa using ht), ih hemitted]

/-- A target that no replacement is for stays as it is. -/
theorem replaceSettled_of_none {replacements : Dict Entry} {emitted : List String}
    {es : List Entry} {t : String} (hes : ∀ e ∈ es, e.target = t)
    (hget : Dict.get replacements t = none) : replaceSettled replacements emitted es = es := by
  induction es generalizing emitted with
  | nil => rfl
  | cons e rest ih =>
      rw [replaceSettled, hes e List.mem_cons_self, hget,
        ih fun x hx => hes x (List.mem_cons_of_mem e hx)]
      simp

/-- The contradictions at the front of a target's entries make way for the replacement. -/
theorem replaceSettled_front {replacements : Dict Entry} {front back : List Entry} {t : String}
    {r : Entry} (hfront : ∀ e ∈ front, e.target = t ∧ e.decision = .contradiction)
    (hne : front ≠ []) (hback : ∀ e ∈ back, e.decision ≠ .contradiction)
    (hget : Dict.get replacements t = some r) :
    replaceSettled replacements [] (front ++ back) = r :: back := by
  have hrest : ∀ (es : List Entry) (emitted : List String), t ∈ emitted →
      (∀ e ∈ es, e.target = t ∧ e.decision = .contradiction) →
      replaceSettled replacements emitted es = [] := by
    intro es
    induction es with
    | nil => exact fun _ _ _ => rfl
    | cons e es ih =>
        intro emitted hmem hall
        obtain ⟨htarget, hd⟩ := hall e List.mem_cons_self
        rw [replaceSettled, if_pos hd, htarget, hget]
        simp only [hmem, if_true]
        exact ih emitted hmem fun x hx => hall x (List.mem_cons_of_mem e hx)
  rw [replaceSettled_append hback]
  cases front with
  | nil => exact absurd rfl hne
  | cons e es =>
      obtain ⟨htarget, hd⟩ := hfront e List.mem_cons_self
      rw [replaceSettled, if_pos hd, htarget, hget]
      simp only [List.not_mem_nil, if_false]
      rw [hrest es [t] (by simp) fun x hx => hfront x (List.mem_cons_of_mem e hx)]
      rfl

/-- What the drafter makes of the contradictions of a target: they stay, or one entry is left. -/
inductive RefinedTo (py : PyLib) (drafter : ReconcileDrafter) (t : String)
    (front back : List Entry) (es : List Entry) : Prop where
  | kept (eq : es = front ++ back)
      (undrafted : 2 ≤ front.length → ∃ index, drafter t (front.map (·.proposal)) = .ok index ∧
        drafted (front.map (·.proposal)) index = none)
  | settled (r : Entry) (eq : es = r :: back) (many : 2 ≤ front.length)
      (chosen : ∃ index, drafter t (front.map (·.proposal)) = .ok index ∧
        drafted (front.map (·.proposal)) index ≠ none)

/-- The replacement of a target, if there is one. -/
theorem get_replacements {drafter : ReconcileDrafter} {groups : Dict (List Entry)}
    {replacements : List (Option (String × Entry))}
    (h : groups.mapM (replacement py policy drafter accepted) = .ok replacements) (t : String) :
    (Dict.get (replacements.filterMap id) t = none ∧ ∀ g, (t, g) ∈ groups →
        replacement py policy drafter accepted (t, g) = .ok none) ∨
      ∃ r g, Dict.get (replacements.filterMap id) t = some r ∧ (t, g) ∈ groups ∧
        replacement py policy drafter accepted (t, g) = .ok (some (t, r)) := by
  have hall := mapM_eq_ok.mp h
  cases hget : Dict.get (replacements.filterMap id) t with
  | none =>
      refine .inl ⟨rfl, fun g hg => ?_⟩
      obtain ⟨o, ho, hone⟩ := forall₂_mem_left hall hg
      cases o with
      | none => exact hone
      | some p =>
          obtain ⟨hkey, -⟩ := replacement_eq_some hone
          have hmem : t ∈ (replacements.filterMap id).map (·.1) :=
            List.mem_map.mpr ⟨p, List.mem_filterMap.mpr ⟨_, ho, rfl⟩, hkey⟩
          obtain ⟨r, hr⟩ := Dict.get_isSome_of_mem hmem
          rw [hget] at hr
          cases hr
  | some r =>
      obtain ⟨o, ho, hid⟩ := List.mem_filterMap.mp (Dict.get_eq_some_mem hget)
      obtain rfl : o = some (t, r) := hid
      obtain ⟨⟨t', g⟩, hg, hone⟩ := forall₂_mem_right hall ho
      obtain ⟨rfl, -⟩ := replacement_eq_some hone
      exact .inr ⟨r, g, rfl, hg, hone⟩

theorem refine_at {drafter : ReconcileDrafter} {report report' : Report}
    (h : refine py policy drafter accepted report = .ok report') {t : String}
    (front : List Entry) {back : List Entry}
    (hsplit : report.filter (fun e => e.target = t) = front ++ back)
    (hfront : ∀ e ∈ front, e.decision = .contradiction)
    (hback : ∀ e ∈ back, e.decision ≠ .contradiction)
    (hown : ∀ e ∈ report, e.decision = .contradiction → e.proposal.target = e.target) :
    RefinedTo py drafter t front back (report'.filter fun e => e.target = t) := by
  obtain ⟨replacements, hreplacements, h⟩ := bind_eq_ok.mp h
  obtain rfl := pure_eq_ok.mp h
  have hat : ∀ e ∈ front ++ back, e.target = t := by
    intro e he
    rw [← hsplit] at he
    simpa using (List.mem_filter.mp he).2
  have hgroup : (report.filter fun e => e.decision = .contradiction).filter
      (fun e => e.target = t) = front := by
    rw [List.filter_comm, hsplit, List.filter_append]
    have hall : front.filter (fun e => e.decision = .contradiction) = front := by
      rw [List.filter_eq_self]
      exact fun e he => by simpa using hfront e he
    have hnone : back.filter (fun e => e.decision = .contradiction) = [] := by
      rw [List.filter_eq_nil_iff]
      exact fun e he => by simpa using hback e he
    rw [hall, hnone, List.append_nil]
  -- a replacement stands under the target of the contradictions it settles
  have hkeys : ∀ k r, Dict.get (replacements.filterMap id) k = some r → r.target = k := by
    intro k r hget
    rcases get_replacements hreplacements k with ⟨hnone, -⟩ | ⟨r', g, hget', hg, hone⟩
    · rw [hnone] at hget
      cases hget
    · obtain rfl := Option.some.inj (hget.symm.trans hget')
      obtain ⟨-, c, hc, hdecided⟩ := replacement_eq_some hone
      obtain ⟨rfl, -⟩ := (Dict.mem_groupBy _).mp hg
      obtain ⟨hmem, htarget⟩ := List.mem_filter.mp hc
      obtain ⟨hreport, hd⟩ := List.mem_filter.mp hmem
      rw [(reconcileOne_decided hdecided).1, hown c hreport (by simpa using hd)]
      simpa using htarget
  rw [filter_replaceSettled hkeys (show t ∈ [] ↔ t ∈ [] by simp), hsplit]
  rcases get_replacements hreplacements t with ⟨hget, hno⟩ | ⟨r, g, hget, hg, hone⟩
  · refine .kept (replaceSettled_of_none hat hget) fun hlen => ?_
    have hne : front ≠ [] := by
      rintro rfl
      simp at hlen
    have hnone := hno front ((Dict.mem_groupBy _).mpr ⟨hgroup.symm, hne⟩)
    rw [replacement, if_neg (show ¬ (t, front).2.length < 2 from Nat.not_lt.mpr hlen)] at hnone
    obtain ⟨index, hindex, hnone⟩ := bind_eq_ok.mp hnone
    refine ⟨index, hindex, ?_⟩
    by_contra hsome
    obtain ⟨winning, hwin⟩ := Option.ne_none_iff_exists'.mp hsome
    simp only [hwin] at hnone
    obtain ⟨e, -, hnone⟩ := bind_eq_ok.mp hnone
    cases pure_eq_ok.mp hnone
  · obtain ⟨rfl, hne⟩ := (Dict.mem_groupBy _).mp hg
    rw [hgroup] at hone hne
    have hlen : ¬ (t, front).2.length < 2 := by
      intro hlt
      rw [replacement, if_pos hlt] at hone
      cases pure_eq_ok.mp hone
    rw [replacement, if_neg hlen] at hone
    obtain ⟨index, hindex, hone⟩ := bind_eq_ok.mp hone
    refine .settled r (replaceSettled_front (fun e he => ⟨hat e (by simp [he]), hfront e he⟩)
      hne hback hget) (Nat.not_lt.mp hlen) ⟨index, hindex, fun hdrafted => ?_⟩
    simp only [hdrafted] at hone
    cases pure_eq_ok.mp hone

theorem map_proposal_contradictingSources (t action : String) (group : List Proposal) :
    (contradictingSources t group action).map (·.proposal) = group := by
  rw [contradictingSources, List.map_map]
  exact List.map_id' group

/-- What is left of a group in a refined report. -/
structure GroupRefined (lib : IngestLib) (drafter : ReconcileDrafter) (t : String)
    (group : List Proposal) (es : List Entry) : Prop where
  nil_iff : es = [] ↔ group = []
  many : LeftOpen lib drafter t group → 2 ≤ es.length
  undecided : 2 ≤ es.length → LeftOpen lib drafter t group ∧ ∀ e ∈ es, e.decision = .contradiction

/-- A group that is decided by one proposal is not left open. -/
theorem not_leftOpen_of_singleton {lib : IngestLib} {drafter : ReconcileDrafter} {t : String}
    {group : List Proposal} {p : Proposal} (hdec : deciders lib.py group = [p]) :
    ¬ LeftOpen lib drafter t group := by
  rintro ⟨hsig, hpref, -⟩
  rw [deciders, if_pos hsig, hpref] at hdec
  simp only at hdec
  rw [hdec] at hsig
  exact not_one_lt_signatureCount_singleton p hsig

theorem refined_group {lib : IngestLib} {drafter : ReconcileDrafter} {report report' : Report}
    (h : refine lib.py policy drafter accepted report = .ok report') {t : String}
    {group : List Proposal} {es back : List Entry}
    (hgroup : GroupDecided lib.py policy accepted t group es)
    (hsplit : report.filter (fun e => e.target = t) = es ++ back)
    (hback : ∀ e ∈ back, e.decision ≠ .contradiction)
    (hown : ∀ e ∈ report, e.decision = .contradiction → e.proposal.target = e.target) :
    ∃ es', report'.filter (fun e => e.target = t) = es' ++ back ∧
      GroupRefined lib drafter t group es' := by
  have hnil := hgroup.ne_nil
  cases hgroup with
  | one p e hdec _ hes =>
      have hopen : ¬ LeftOpen lib drafter t group := not_leftOpen_of_singleton hdec
      have hrefined : GroupRefined lib drafter t group es :=
        ⟨hnil, fun ho => absurd ho hopen, fun hlen => by simp [hes] at hlen⟩
      subst hes
      by_cases hd : e.decision = .contradiction
      · cases refine_at h [e] hsplit (by simpa using hd) hback hown with
        | kept heq _ => exact ⟨[e], heq, hrefined⟩
        | settled r _ hmany _ => simp at hmany
      · have hall : ∀ x ∈ [e] ++ back, x.decision ≠ .contradiction := by
          intro x hx
          rcases List.mem_cons.mp hx with rfl | hx
          · exact hd
          · exact hback x hx
        cases refine_at h [] hsplit (by simp) hall hown with
        | kept heq _ => exact ⟨[e], heq, hrefined⟩
        | settled r _ hmany _ => simp at hmany
  | flagged action hdec hsig hes =>
      have hfront : ∀ e ∈ es, e.decision = .contradiction := by
        rw [hes]
        intro e he
        obtain ⟨p, -, rfl⟩ := List.mem_map.mp he
        rfl
      have hproposals : es.map (·.proposal) = group := by
        rw [hes, map_proposal_contradictingSources]
      -- several signatures make several proposals, so the drafter is asked
      have hlen : 2 ≤ es.length := by
        have hlen := (List.dedup_sublist (group.map (signature lib.py))).length_le
        rw [signatureCount] at hsig
        rw [← List.length_map (f := (·.proposal)), hproposals]
        rw [List.length_map] at hlen
        omega
      have hpref : preferred lib.py group = none := by
        cases hpref : preferred lib.py group with
        | none => rfl
        | some winner =>
            rw [deciders, if_pos hsig, hpref] at hdec
            simp only at hdec
            rw [← hdec] at hsig
            exact absurd hsig (not_one_lt_signatureCount_singleton winner)
      cases refine_at h _ hsplit hfront hback hown with
      | kept heq hno =>
          obtain ⟨index, hindex, hdrafted⟩ := hno hlen
          rw [hproposals] at hindex hdrafted
          refine ⟨es, heq, hnil, fun _ => hlen,
            fun _ => ⟨⟨hsig, hpref, index, hindex, hdrafted⟩, hfront⟩⟩
      | settled r heq _ hchosen =>
          obtain ⟨index, hindex, hdrafted⟩ := hchosen
          rw [hproposals] at hindex hdrafted
          refine ⟨[r], heq, ?_, ?_, fun hlen => by simp at hlen⟩
          · rw [← hnil]
            simp only [List.cons_ne_nil, false_iff]
            rintro rfl
            simp at hlen
          · rintro ⟨-, -, index', hindex', hdrafted'⟩
            obtain rfl := Except.ok.inj (hindex.symm.trans hindex')
            exact absurd hdrafted' hdrafted
  | empty hgroup hes =>
      subst hgroup hes
      cases refine_at h [] hsplit (by simp) hback hown with
      | kept heq _ =>
          exact ⟨[], heq, by simp, fun ho => by simp [LeftOpen, signatureCount] at ho,
            fun hlen => by simp at hlen⟩
      | settled r _ hmany _ => simp at hmany

/-! ## The targets of the builder's proposals -/

theorem startsWith_append {a start : String} (b : String) (h : startsWith a start = true) :
    startsWith (a ++ b) start = true := by
  rw [startsWith, List.isPrefixOf_iff_prefix] at h ⊢
  rw [String.toList_append]
  exact h.trans (List.prefix_append _ _)

/-- A path with another first letter. -/
theorem not_startsWith {a start : String} {c d : Char} (b : String)
    (ha : a.toList.head? = some c) (hs : start.toList.head? = some d) (hne : c ≠ d) :
    startsWith (a ++ b) start = false := by
  rw [startsWith, String.toList_append]
  cases hac : a.toList with
  | nil => simp [hac] at ha
  | cons x xs =>
      cases hsc : start.toList with
      | nil => simp [hsc] at hs
      | cons y ys =>
          obtain rfl : x = c := by simpa [hac] using ha
          obtain rfl : y = d := by simpa [hsc] using hs
          simp [List.isPrefixOf_cons_cons, Ne.symm hne]

theorem metrics_not_knowledge (rest : String) :
    startsWith ("contracts/metrics/" ++ rest) "knowledge/" = false :=
  not_startsWith (c := 'c') (d := 'k') rest (by decide +kernel) (by decide +kernel) (by decide)

theorem bindingTarget_not_knowledge (py : PyLib) (metric : String) :
    startsWith (bindingTarget py metric) "knowledge/" = false := by
  unfold bindingTarget
  rw [String.append_assoc]
  exact metrics_not_knowledge _

theorem metricTarget_not_knowledge (py : PyLib) (metric : String) :
    startsWith (metricTarget py metric) "knowledge/" = false := by
  unfold metricTarget
  rw [String.append_assoc]
  exact metrics_not_knowledge _

/-- Only pages are below `knowledge/`. -/
def Placed (p : Proposal) : Prop := startsWith p.target "knowledge/" = isPageDraft p

theorem Placed.of_keys {p : Proposal} (hstart : startsWith p.target "knowledge/" = false)
    (hkeys : pageDraftSentinel ∉ p.content.map (·.1)) : Placed p := by
  rw [Placed, hstart, isPageDraft, eq_comm, Bool.eq_false_iff, Ne, Dict.has_iff]
  exact hkeys

theorem draftPage_target (lib : BuilderLib) (item : EvidenceItem) (doc : DocEvidence) :
    startsWith (draftPage lib item doc).target "knowledge/" = true := by
  have hglobal : startsWith "knowledge/global/" "knowledge/" = true := by decide +kernel
  unfold draftPage
  rw [String.append_assoc]
  exact startsWith_append _ hglobal

theorem buildItem_placed {lib : BuilderLib} {relations : Dict RelationSchema}
    {index : DefinitionIndex} {item : EvidenceItem} {p : Proposal}
    (h : buildItem lib relations index item = .ok (.proposal p)) : Placed p := by
  unfold buildItem at h
  split at h
  · simp at h
  · split at h
    · obtain ⟨schema, -, h⟩ := bind_eq_ok.mp h
      obtain ⟨q, hq, h⟩ := bind_eq_ok.mp h
      obtain rfl := Built.proposal.inj (pure_eq_ok.mp h)
      refine .of_keys ?_ fun hmem => ?_
      · obtain ⟨grain, -, hq⟩ := bind_eq_ok.mp hq
        obtain ⟨dimensions, -, hq⟩ := bind_eq_ok.mp hq
        obtain ⟨covered, -, hq⟩ := bind_eq_ok.mp hq
        obtain ⟨drafts, -, hq⟩ := bind_eq_ok.mp hq
        obtain ⟨confidence, -, hq⟩ := bind_eq_ok.mp hq
        obtain rfl := pure_eq_ok.mp hq
        show startsWith ("semantics/" ++ _ ++ _ ++ _ ++ _) "knowledge/" = false
        rw [String.append_assoc, String.append_assoc, String.append_assoc]
        exact not_startsWith (c := 's') (d := 'k') _ (by decide +kernel) (by decide +kernel)
          (by decide)
      -- a drafted source has none of the marks
      · have hsource := buildRelationSchema_keys hq _ hmem
        revert hsource
        decide
    · split at h
      · obtain ⟨u, -, h⟩ := bind_eq_ok.mp h
        obtain rfl := Built.proposal.inj (pure_eq_ok.mp h)
        cases hrole : u.role with
        | alternative =>
            simp only [buildUsageEvidence, hrole]
            exact .of_keys (metricTarget_not_knowledge lib.py u.title)
              (by simp [anchored, daSentinel, pageDraftSentinel])
        | trustedExample =>
            simp only [buildUsageEvidence, hrole]
            refine .of_keys ?_ (by simp [anchored, pageDraftSentinel])
            show startsWith ("contracts/assertions/" ++ _ ++ _) "knowledge/" = false
            rw [String.append_assoc]
            exact not_startsWith (c := 'c') (d := 'k') _ (by decide +kernel) (by decide +kernel)
              (by decide)
      · split at h
        · obtain ⟨q, hq, h⟩ := bind_eq_ok.mp h
          obtain rfl := Built.proposal.inj (pure_eq_ok.mp h)
          obtain ⟨value, -, hq⟩ := bind_eq_ok.mp hq
          obtain ⟨refs, -, hq⟩ := bind_eq_ok.mp hq
          obtain rfl := pure_eq_ok.mp hq
          exact .of_keys (metricTarget_not_knowledge lib.py _)
            (by simp [anchored, answerOutcomeSentinel, pageDraftSentinel])
        · split at h
          · split at h
            · rename_i doc _
              obtain rfl := Built.proposal.inj (pure_eq_ok.mp h)
              exact draftPage_target lib item doc
            · simp at h
          · split at h
            · simp at h
            · simp at h

theorem candidate_placed (py : PyLib) (c : Candidate) : Placed (c.proposal py) := by
  refine .of_keys (bindingTarget_not_knowledge py c.metric) ?_
  simp only [Candidate.proposal, List.map_append, List.mem_append, not_or]
  refine ⟨by simp [candidateSentinel, pageDraftSentinel], ?_⟩
  split
  · simp
  · simp [pageDraftSentinel]

theorem build_placed {lib : BuilderLib} {evidence : List EvidenceItem} {built : BuildResult}
    (h : build lib evidence = .ok built) : ∀ p ∈ built.proposals, Placed p := by
  obtain ⟨relations, -, h⟩ := bind_eq_ok.mp h
  obtain ⟨index, -, h⟩ := bind_eq_ok.mp h
  obtain ⟨items, hitems, h⟩ := bind_eq_ok.mp h
  obtain rfl := pure_eq_ok.mp h
  intro p hp
  rcases List.mem_append.mp hp with hp | hp
  · obtain ⟨b, hb, hbp⟩ := List.mem_filterMap.mp hp
    obtain ⟨item, -, hone⟩ := forall₂_mem_right (mapM_eq_ok.mp hitems) hb
    cases b with
    | proposal q =>
        obtain rfl := Option.some.inj hbp
        exact buildItem_placed hone
    | skipped _ => cases hbp
    | folded => cases hbp
  · obtain ⟨c, -, rfl⟩ := List.mem_map.mp hp
    exact candidate_placed lib.py c

/-! ## The other entries of a target -/

theorem eq_of_length_le_one {es : List Entry} (h : es.length ≤ 1) {e e' : Entry} (he : e ∈ es)
    (he' : e' ∈ es) : e = e' := by
  obtain ⟨x, rfl⟩ : ∃ x, es = [x] :=
    List.length_eq_one_iff.mp (Nat.le_antisymm h (List.length_pos_of_mem he))
  rw [List.mem_singleton.mp he, List.mem_singleton.mp he']

/-- Where the keys are distinct, a key has one entry. -/
theorem filter_target_of_mem {es : List Entry} (hnd : (es.map (·.target)).Nodup) {e : Entry}
    (he : e ∈ es) : es.filter (fun x => x.target = e.target) = [e] := by
  refine eq_singleton_of_nodup ((hnd.of_map _).filter _) (by simp [he]) fun x hx => ?_
  obtain ⟨hmem, htarget⟩ := List.mem_filter.mp hx
  exact List.inj_on_of_nodup_map hnd hmem he (by simpa using htarget)

theorem length_filter_target_le {es : List Entry} (hnd : (es.map (·.target)).Nodup) (t : String) :
    (es.filter fun e => e.target = t).length ≤ 1 := by
  by_cases h : ∃ e ∈ es, e.target = t
  · obtain ⟨e, he, rfl⟩ := h
    simp [filter_target_of_mem hnd he]
  · have hnil : es.filter (fun e => e.target = t) = [] := by
      rw [List.filter_eq_nil_iff]
      exact fun e he htarget => h ⟨e, he, by simpa using htarget⟩
    simp [hnil]

theorem resolveReady_map_target {sources : Dict Content} {bound bound' : List String}
    {cs : List Candidate} {es : List Entry}
    (h : resolveReady py accepted sources (fun p => reconcileOne py policy p none) bound
      (cs.map (·.proposal py)) = .ok (es, bound')) :
    es.map (·.target) = cs.map (·.target py) := by
  induction cs generalizing bound es with
  | nil =>
      obtain ⟨rfl, -⟩ := Prod.mk.inj (Except.ok.inj h)
      rfl
  | cons c cs ih =>
      obtain ⟨⟨e, mid⟩, hone, h⟩ := bind_eq_ok.mp h
      obtain ⟨⟨es', last⟩, hrest, h⟩ := bind_eq_ok.mp h
      obtain ⟨rfl, rfl⟩ := Prod.mk.inj (pure_eq_ok.mp h)
      rw [List.map_cons, List.map_cons, ih hrest, (resolveCandidate_decided hone).entry.1]

/-- The entry of a candidate. -/
structure CandidateAt (lib : IngestLib) (policy : AutoApplyConfig) (accepted : AcceptedStore)
    (proposals : List Proposal) (cs : List Candidate) (c : Candidate) (e : Entry) : Prop where
  target : e.target = c.target lib.py
  either : e.decision = .add ∨ e.decision = .noOp
  added_iff : e.decision = .add ↔ AddedInTurn lib policy accepted proposals cs c

/-- Pages are no sources, so the resolver reads those the ordinary proposals leave. -/
theorem finalSources_pages {decided pageDecided : List Entry}
    (hpages : ∀ e ∈ pageDecided, startsWith e.target "knowledge/" = true) :
    finalSources py accepted (decided ++ pageDecided) = finalSources py accepted decided := by
  have hnone : pageDecided.filter (fun e =>
      startsWith e.target "semantics/" && e.decision.isAdding) = [] := by
    rw [List.filter_eq_nil_iff]
    intro e he
    have hpage := hpages e he
    rw [startsWith, List.isPrefixOf_iff_prefix] at hpage
    obtain ⟨rest, hrest⟩ := hpage
    have hno : startsWith e.target "semantics/" = false := by
      rw [startsWith, ← hrest]
      simp [List.isPrefixOf_cons_cons]
    simp [hno]
  rw [finalSources, finalSources, List.filter_append, hnone, List.append_nil]

/-- The entry a candidate gets in its turn is added exactly if it is added in turn. -/
theorem CandidateAt.of_entry {lib : IngestLib} {proposals : List Proposal} {decided : List Entry}
    {cs : List Candidate} (hnd : DistinctTargets lib.py cs)
    (hdecided : decideGroups lib.py policy accepted
      (groupByTarget (proposals.filter isOrdinary)) = .ok decided)
    {pre post : List Candidate} {c : Candidate} (hsplit : turns cs.length cs = pre ++ c :: post)
    {e : Entry} (he : CandidateEntry lib.py accepted (finalSources lib.py accepted decided)
      (boundAfter lib.py accepted (finalSources lib.py accepted decided)
        (acceptedBound lib.py accepted) pre) c e) :
    CandidateAt lib policy accepted proposals cs c e := by
  have heither : e.decision = .add ∨ e.decision = .noOp := by
    by_cases hyes : Readable lib.py accepted (finalSources lib.py accepted decided) c ∧
        ∀ k ∈ c.binding.needs, k ∈ boundAfter lib.py accepted
          (finalSources lib.py accepted decided) (acceptedBound lib.py accepted) pre
    · exact .inl (he.added hyes.1 hyes.2)
    · exact .inr (he.skipped hyes)
  refine ⟨he.target, heither, ?_, ?_⟩
  · intro hadd
    by_contra hno
    have hskip := he.skipped fun hyes =>
      hno ⟨decided, hdecided, hyes.1, pre, post, hsplit, hyes.2⟩
    rw [hadd] at hskip
    cases hskip
  · rintro ⟨decided', hdecided', hreadable, pre', post', hsplit', hneeds⟩
    obtain rfl := Except.ok.inj (hdecided.symm.trans hdecided')
    -- a candidate has one turn
    obtain rfl : pre = pre' := by
      have hnd' : (pre ++ c :: post).Nodup := by
        rw [← hsplit]
        exact (Closure.turns_perm _ cs).nodup_iff.mpr hnd.nodup
      have hnot : c ∉ pre ++ post := (List.nodup_cons.mp (List.nodup_middle.mp hnd')).1
      rw [List.mem_append, not_or] at hnot
      rw [hsplit] at hsplit'
      exact ((List.append_cons_inj_of_notMem hnot.1 hnot.2).mp hsplit').1
    exact he.added hreadable hneeds

theorem resolved_at {lib : IngestLib} {proposals : List Proposal} {decided pageDecided : List Entry}
    {cs : List Candidate} {es : List Entry} (hnd : DistinctTargets lib.py cs)
    (hdecided : decideGroups lib.py policy accepted
      (groupByTarget (proposals.filter isOrdinary)) = .ok decided)
    (hpages : ∀ e ∈ pageDecided, startsWith e.target "knowledge/" = true)
    (h : resolveCandidates lib.py accepted (decided ++ pageDecided)
      (fun p => reconcileOne lib.py policy p none) (cs.map (·.proposal lib.py)) = .ok es)
    (t : String) :
    (∀ c ∈ cs, c.target lib.py = t → ∃ e, es.filter (fun e => e.target = t) = [e] ∧
        CandidateAt lib policy accepted proposals cs c e) ∧
      ((∀ c ∈ cs, c.target lib.py ≠ t) → es.filter (fun e => e.target = t) = []) ∧
      ∀ e ∈ es, e.decision = .add ∨ e.decision = .noOp := by
  rw [resolveCandidates, finalSources_pages hpages, List.length_map] at h
  obtain ⟨bound', hready⟩ := resolveRounds_turns (Nat.le_refl _) hnd h
  have htargets := resolveReady_map_target hready
  have hperm : (turns cs.length cs).Perm cs := Closure.turns_perm _ cs
  have hnodup : (es.map (·.target)).Nodup := by
    rw [htargets]
    exact (hperm.map _).nodup_iff.mpr hnd
  obtain ⟨hall, hentries⟩ := resolveReady_entry (finalSources_keyed decided) hready
  refine ⟨?_, ?_, ?_⟩
  · rintro c hc rfl
    obtain ⟨pre, post, hsplit⟩ := List.append_of_mem (hperm.mem_iff.mpr hc)
    obtain ⟨e, he, hentry⟩ := hall pre c post hsplit
    have hcandidate := CandidateAt.of_entry hnd hdecided hsplit hentry
    refine ⟨e, ?_, hcandidate⟩
    rw [← hcandidate.target]
    exact filter_target_of_mem hnodup he
  · intro hno
    rw [List.filter_eq_nil_iff]
    intro e he htarget
    have hmem : e.target ∈ (turns cs.length cs).map (·.target lib.py) := by
      rw [← htargets]
      exact List.mem_map_of_mem he
    obtain ⟨c, hc, hct⟩ := List.mem_map.mp hmem
    exact hno c (hperm.mem_iff.mp hc) (by rw [hct]; simpa using htarget)
  · intro e he
    obtain ⟨pre, c, post, hsplit, hentry⟩ := hentries e he
    exact (CandidateAt.of_entry hnd hdecided hsplit hentry).either

theorem prunes_at (addressed : List String) (t : String) :
    ((pruneDisappeared accepted addressed).filter fun e => e.target = t).length ≤ 1 ∧
      (t ∈ addressed → (pruneDisappeared accepted addressed).filter
        (fun e => e.target = t) = []) := by
  constructor
  · refine length_filter_target_le ?_ t
    have hmap : (pruneDisappeared accepted addressed).map (·.target) =
        ((accepted.facts.filter fun f => decide (f.target ∉ addressed) && !f.frozen &&
          f.provenance == .inferred).insertionSort fun a b => a.target ≤ b.target).map
            (·.target) := by
      rw [pruneDisappeared, List.map_map]
      rfl
    rw [hmap]
    refine ((List.perm_insertionSort _ _).map _).nodup_iff.mpr ?_
    exact accepted.nodup.sublist (List.filter_sublist.map _)
  · intro haddressed
    rw [List.filter_eq_nil_iff]
    intro e he htarget
    obtain ⟨f, -, -, -, hgone, hft, -⟩ := mem_pruneDisappeared he
    obtain rfl : e.target = t := by simpa using htarget
    exact hgone (hft ▸ haddressed)

/-! ## A target after refinement -/

/-- The entries of a target in a refined report: what is left of the group of its proposals, the
entry of a candidate, and the prune of a fact that nothing addressed. -/
structure RefinedAt (lib : IngestLib) (policy : AutoApplyConfig) (drafter : ReconcileDrafter)
    (accepted : AcceptedStore) (proposals : List Proposal) (cs : List Candidate) (t : String)
    (group resolved prunes : List Entry) : Prop where
  grouped : groupAt proposals t ≠ [] → group ≠ []
  open_ : LeftOpen lib drafter t (groupAt proposals t) → 2 ≤ group.length
  undecided : 2 ≤ group.length → (∀ e ∈ group, e.decision = .contradiction) ∧
    (startsWith t "knowledge/" = true ∨ LeftOpen lib drafter t (groupAt proposals t))
  candidate : ∀ c ∈ cs, c.target lib.py = t → (group ≠ [] → groupAt proposals t ≠ []) ∧
    ∃ e, resolved = [e] ∧ CandidateAt lib policy accepted proposals cs c e
  none_ : (∀ c ∈ cs, c.target lib.py ≠ t) → resolved = []
  prunes_le : prunes.length ≤ 1
  pruned : prunes ≠ [] → group = [] ∧ resolved = []

/-- What a report holds for a target behind its groups. -/
structure RestAt (lib : IngestLib) (policy : AutoApplyConfig) (accepted : AcceptedStore)
    (proposals : List Proposal) (cs : List Candidate) (t : String) (resolved prunes : List Entry) :
    Prop where
  candidate : ∀ c ∈ cs, c.target lib.py = t →
    ∃ e, resolved = [e] ∧ CandidateAt lib policy accepted proposals cs c e
  none_ : (∀ c ∈ cs, c.target lib.py ≠ t) → resolved = []
  decided : ∀ e ∈ resolved ++ prunes, e.decision ≠ .contradiction
  prunes_le : prunes.length ≤ 1
  unaddressed : prunes ≠ [] → (∀ p ∈ proposals, p.target ≠ t) ∧ resolved = []

section AtTarget

variable {lib : IngestLib} {drafter : ReconcileDrafter} {proposals : List Proposal}
  {cs : List Candidate} {t : String}

theorem rest_at {decided pageDecided resolved : List Entry} {addressed : List String}
    (hnd : DistinctTargets lib.py cs)
    (hcs : proposals.filter isCandidate = cs.map (·.proposal lib.py))
    (hdecided : decideGroups lib.py policy accepted
      (groupByTarget (proposals.filter isOrdinary)) = .ok decided)
    (hpages : ∀ e ∈ pageDecided, startsWith e.target "knowledge/" = true)
    (hresolved : resolveCandidates lib.py accepted (decided ++ pageDecided)
      (fun p => reconcileOne lib.py policy p none) (cs.map (·.proposal lib.py)) = .ok resolved)
    (haddressed : ∀ p ∈ proposals, p.target ∈ addressed) (t : String) :
    RestAt lib policy accepted proposals cs t (resolved.filter fun e => e.target = t)
      ((pruneDisappeared accepted addressed).filter fun e => e.target = t) := by
  obtain ⟨hone, hnone, hdecision⟩ := resolved_at hnd hdecided hpages hresolved t
  obtain ⟨hprunesLe, hprunes⟩ := @prunes_at accepted addressed t
  refine ⟨hone, hnone, fun e he hd => ?_, hprunesLe, fun hne => ?_⟩
  · rcases List.mem_append.mp he with he | he
    · rcases hdecision e (List.mem_of_mem_filter he) with hadd | hno
      · rw [hd] at hadd
        cases hadd
      · rw [hd] at hno
        cases hno
    · obtain ⟨f, -, -, -, -, -, hprune, -⟩ := mem_pruneDisappeared (List.mem_of_mem_filter he)
      rw [hd] at hprune
      cases hprune
  · have hno : ∀ p ∈ proposals, p.target ≠ t := by
      intro p hp htarget
      exact hne (hprunes (htarget ▸ haddressed p hp))
    refine ⟨hno, hnone fun c hc htarget => hno (c.proposal lib.py) ?_ htarget⟩
    have hmem : c.proposal lib.py ∈ proposals.filter isCandidate := by
      rw [hcs]
      exact List.mem_map_of_mem hc
    exact List.mem_of_mem_filter hmem

/-- A target that ordinary proposals address. -/
theorem RestAt.ordinary {group resolved prunes : List Entry}
    (hrest : RestAt lib policy accepted proposals cs t resolved prunes)
    (hat : groupAt proposals t ≠ [])
    (hrefined : GroupRefined lib drafter t (groupAt proposals t) group) :
    RefinedAt lib policy drafter accepted proposals cs t group resolved prunes where
  grouped hne := hrefined.nil_iff.not.mpr hne
  open_ := hrefined.many
  undecided hlen := ⟨(hrefined.undecided hlen).2, .inr (hrefined.undecided hlen).1⟩
  candidate c hc htarget := ⟨fun _ => hat, hrest.candidate c hc htarget⟩
  none_ := hrest.none_
  prunes_le := hrest.prunes_le
  pruned hne := by
    obtain ⟨q, hq⟩ := List.exists_mem_of_ne_nil _ hat
    have hmem := List.mem_of_mem_filter (List.mem_of_mem_filter hq)
    exact absurd (target_of_mem_groupAt hq) ((hrest.unaddressed hne).1 q hmem)

/-- A target that no ordinary proposal addresses: what is grouped for it are drafts of a page. -/
theorem RestAt.pages {drafts : List Proposal} {group resolved prunes : List Entry}
    (hrest : RestAt lib policy accepted proposals cs t resolved prunes)
    (hat : groupAt proposals t = [])
    (hdrafts : ∀ p ∈ drafts, startsWith t "knowledge/" = true ∧ ∃ q ∈ proposals, q.target = t)
    (hrefined : GroupRefined lib drafter t drafts group) :
    RefinedAt lib policy drafter accepted proposals cs t group resolved prunes := by
  have hopen : ¬ LeftOpen lib drafter t (groupAt proposals t) := by
    rw [hat]
    simp [LeftOpen, signatureCount]
  have hknowledge : group ≠ [] → startsWith t "knowledge/" = true := by
    intro hne
    obtain ⟨p, hp⟩ := List.exists_mem_of_ne_nil _ (hrefined.nil_iff.not.mp hne)
    exact (hdrafts p hp).1
  exact
    { grouped := fun hne => absurd hat hne
      open_ := fun ho => absurd ho hopen
      undecided := fun hlen => by
        refine ⟨(hrefined.undecided hlen).2, .inl (hknowledge ?_)⟩
        rintro rfl
        simp at hlen
      candidate := fun c hc htarget => by
        refine ⟨fun hne => ?_, hrest.candidate c hc htarget⟩
        -- a binding is no page
        have hstart := hknowledge hne
        rw [← htarget, Candidate.target, bindingTarget_not_knowledge] at hstart
        cases hstart
      none_ := hrest.none_
      prunes_le := hrest.prunes_le
      pruned := fun hne => by
        obtain ⟨hno, hnil⟩ := hrest.unaddressed hne
        refine ⟨hrefined.nil_iff.mpr (List.eq_nil_iff_forall_not_mem.mpr fun p hp => ?_), hnil⟩
        obtain ⟨-, q, hq, hsame⟩ := hdrafts p hp
        exact hno q hq hsame }

theorem refined_at {report report' : Report} (hplaced : ∀ p ∈ proposals, Placed p)
    (hnd : DistinctTargets lib.py cs)
    (hcs : proposals.filter isCandidate = cs.map (·.proposal lib.py))
    (h : reconcile lib.reconcileLib policy accepted proposals = .ok report)
    (h' : refine lib.py policy drafter accepted report = .ok report') (t : String) :
    ∃ group resolved prunes,
      report'.filter (fun e => e.target = t) = group ++ resolved ++ prunes ∧
      RefinedAt lib policy drafter accepted proposals cs t group resolved prunes := by
  have hown : ∀ e ∈ report, e.decision = .contradiction → e.proposal.target = e.target :=
    fun e he hd => (contradiction_proposal h he hd).1
  obtain ⟨decided, hdecided, h⟩ := bind_eq_ok.mp h
  obtain ⟨pages, hpages, h⟩ := bind_eq_ok.mp h
  obtain ⟨pageDecided, hpageDecided, h⟩ := bind_eq_ok.mp h
  obtain ⟨resolved, hresolved, h⟩ := bind_eq_ok.mp h
  obtain rfl := pure_eq_ok.mp h
  -- a page is rendered from a draft at its target
  have hpage : ∀ p ∈ pages, startsWith p.target "knowledge/" = true ∧
      ∃ draft ∈ proposals, draft.target = p.target := by
    intro p hp
    obtain ⟨draft, hdraft, hrender⟩ := forall₂_mem_right (mapM_eq_ok.mp hpages) hp
    obtain ⟨hmem, hmarked⟩ := List.mem_filter.mp hdraft
    have htarget := (renderPageDraft_eq_ok hrender).1
    exact ⟨by rw [htarget, hplaced draft hmem, hmarked], draft, hmem, htarget.symm⟩
  have hordinary : ∀ p ∈ groupAt proposals t, startsWith t "knowledge/" = false := by
    intro p hp
    obtain ⟨hmem, hord⟩ := List.mem_filter.mp (List.mem_of_mem_filter hp)
    rw [← target_of_mem_groupAt hp, hplaced p hmem]
    simp only [isOrdinary, Bool.and_eq_true, Bool.not_eq_true'] at hord
    exact hord.2
  have hpageEntries : ∀ e ∈ pageDecided, startsWith e.target "knowledge/" = true := by
    intro e he
    have hne := (decideGroups_at hpageDecided e.target).ne_nil.not.mp
      (List.ne_nil_of_mem (List.mem_filter.mpr ⟨he, by simp⟩))
    obtain ⟨p, hp⟩ := List.exists_mem_of_ne_nil _ hne
    obtain ⟨hmem, htarget⟩ := List.mem_filter.mp hp
    have htarget' : p.target = e.target := by simpa using htarget
    rw [← htarget']
    exact (hpage p hmem).1
  have haddressed : ∀ p ∈ proposals, p.target ∈
      (groupByTarget (proposals.filter isOrdinary)).map (·.1) ++ (groupByTarget pages).map (·.1) ++
        (proposals.filter isCandidate).map (·.target) := fun p hp => mem_addressed hpages hp
  rw [hcs] at hresolved
  have hrest := rest_at hnd hcs hdecided hpageEntries hresolved haddressed t
  set prunes := pruneDisappeared accepted _
  have hsplit : (decided ++ pageDecided ++ resolved ++ prunes).filter (fun e => e.target = t) =
      (decided.filter (fun e => e.target = t) ++ pageDecided.filter (fun e => e.target = t)) ++
        (resolved.filter (fun e => e.target = t) ++ prunes.filter (fun e => e.target = t)) := by
    simp only [List.filter_append, List.append_assoc]
  have hgroup := decideGroups_at hdecided t
  by_cases hat : groupAt proposals t = []
  · have hnil : decided.filter (fun e => e.target = t) = [] := hgroup.ne_nil.mpr hat
    rw [hnil, List.nil_append] at hsplit
    obtain ⟨es, hes, hrefined⟩ :=
      refined_group h' (decideGroups_at hpageDecided t) hsplit hrest.decided hown
    rw [← List.append_assoc] at hes
    refine ⟨es, _, _, hes, hrest.pages hat (fun p hp => ?_) hrefined⟩
    obtain ⟨hmem, htarget⟩ := List.mem_filter.mp hp
    have htarget' : p.target = t := by simpa using htarget
    exact htarget' ▸ hpage p hmem
  · obtain ⟨q, hq⟩ := List.exists_mem_of_ne_nil _ hat
    have hnil : pageDecided.filter (fun e => e.target = t) = [] := by
      rw [List.filter_eq_nil_iff]
      intro e he htarget
      have hpage' := hpageEntries e he
      have htarget' : e.target = t := by simpa using htarget
      rw [htarget', hordinary q hq] at hpage'
      cases hpage'
    rw [hnil, List.append_nil] at hsplit
    obtain ⟨es, hes, hrefined⟩ := refined_group h' hgroup hsplit hrest.decided hown
    rw [← List.append_assoc] at hes
    exact ⟨es, _, _, hes, hrest.ordinary hat hrefined⟩

end AtTarget

/-! ## Enrichment at a target -/

section Enriched

variable {lib : IngestLib} {files : ProjectFiles} {evidence : List EvidenceItem} {report : Report}
  {updated : Dict Entry}

theorem Updates.readBack_target
    (h : Updates lib.py files.bindings files.assertions evidence report updated) {e : Entry}
    (he : e ∈ report) : (readBack (byTarget report) updated e).target = e.target := by
  obtain ⟨l, hl⟩ := exists_lastAt he
  have htarget := (mem_of_lastAt hl).2
  rcases h.readBack_eq hl with ⟨hplace, -⟩ | ⟨b, -, xs, hbt, -, hrev⟩
  · rw [hplace, htarget]
  · rcases revise_eq_some hrev with ⟨l', hl', -, hplace⟩ | ⟨-, -, hplace⟩
    · obtain rfl := Option.some.inj hl'
      rw [hplace]
      exact htarget
    · rw [hplace]
      exact hbt

/-- The entries of a target are read back as one. -/
theorem readBack_congr {e e' : Entry} (he : e ∈ report) (htarget : e'.target = e.target) :
    readBack (byTarget report) updated e' = readBack (byTarget report) updated e := by
  obtain ⟨l, hl⟩ := exists_lastAt he
  rw [readBack, readBack, htarget, byTarget_get, hl]
  cases Dict.get updated e.target with
  | none => rfl
  | some x => rfl

/-- The place of an entry holds a change if the last entry of its target is one, or the examples on
the file of its binding change. -/
theorem Updates.readBack_changes
    (h : Updates lib.py files.bindings files.assertions evidence report updated) {e l : Entry}
    (hl : lastAt report e.target = some l) :
    (readBack (byTarget report) updated e).decision.changes = true ↔
      l.decision.changes = true ∨ ExamplesChange lib files evidence e.target := by
  have hadding : ∀ d : Decision, d.isAdding = true → d.changes = true := by
    intro d hd
    cases d with
    | add | edit => rfl
    | contradiction | noOp | prune => cases hd
  rcases h.readBack_eq hl with ⟨hplace, hno⟩ | ⟨b, hb, xs, hbt, hxs, hrev⟩
  · rw [hplace]
    refine ⟨.inl, ?_⟩
    rintro (hchanges | ⟨b, hb, hbt, xs, hxs, hcur⟩)
    · exact hchanges
    · exfalso
      by_cases hadd : l.decision.isAdding = true
      · refine hno b hb (l.withExamples xs) ⟨hbt, xs, hxs, ?_⟩
        rw [byTarget_get, hl, revise]
        simp [hadd]
      · refine hno b hb (examplesEdit lib.py b xs) ⟨hbt, xs, hxs, ?_⟩
        rw [byTarget_get, hl]
        exact revise_of_not_current (by simpa using hadd) hcur
  · rcases revise_eq_some hrev with ⟨l', hl', hadd, hplace⟩ | ⟨-, hcur, hplace⟩
    · obtain rfl := Option.some.inj hl'
      rw [hplace]
      exact ⟨fun _ => .inl (hadding _ hadd), fun _ => hadding _ hadd⟩
    · rw [hplace]
      exact ⟨fun _ => .inr ⟨b, hb, hbt, xs, hxs, hcur⟩, fun _ => rfl⟩

/-- The entries of a target in the enriched report: those there were, each read back, or at most one
new edit. -/
theorem Updates.enriched_at
    (h : Updates lib.py files.bindings files.assertions evidence report updated) {out : Report}
    (hout : out = report.map (readBack (byTarget report) updated) ++
      (updated.filter fun p => p.1 ∉ report.map (·.target)).map (·.2)) (t : String) :
    (report.filter (fun e => e.target = t) = [] ∧
        (out.filter fun e => e.target = t).length ≤ 1) ∨
      ∃ e ∈ report, e.target = t ∧ out.filter (fun e => e.target = t) =
        (report.filter fun e => e.target = t).map fun _ =>
          readBack (byTarget report) updated e := by
  subst hout
  rw [List.filter_append]
  have hkept : (report.map (readBack (byTarget report) updated)).filter (fun e => e.target = t) =
      (report.filter fun e => e.target = t).map (readBack (byTarget report) updated) := by
    rw [List.filter_map]
    refine congrArg _ (List.filter_congr fun e he => ?_)
    simp only [Function.comp_apply, h.readBack_target he]
  rw [hkept]
  by_cases hnil : report.filter (fun e => e.target = t) = []
  · refine .inl ⟨hnil, ?_⟩
    rw [hnil, List.map_nil, List.nil_append]
    refine length_filter_target_le ?_ t
    have htargets : ((updated.filter fun p => p.1 ∉ report.map (·.target)).map (·.2)).map
        (·.target) = (updated.filter fun p => p.1 ∉ report.map (·.target)).map (·.1) := by
      rw [List.map_map]
      exact List.map_congr_left fun p hp => (h.new_pair hp).2.1
    rw [htargets]
    exact (enrichBindings_nodup h (byTarget_nodup report)).sublist (List.filter_sublist.map _)
  · obtain ⟨e, he⟩ := List.exists_mem_of_ne_nil _ hnil
    obtain ⟨hmem, htarget⟩ := List.mem_filter.mp he
    have htarget' : e.target = t := by simpa using htarget
    refine .inr ⟨e, hmem, htarget', ?_⟩
    have hnew : ((updated.filter fun p => p.1 ∉ report.map (·.target)).map (·.2)).filter
        (fun e => e.target = t) = [] := by
      rw [List.filter_eq_nil_iff]
      intro x hx hxt
      have hno := (h.new_eq hx).1
      have hxt' : x.target = t := by simpa using hxt
      exact hno (List.mem_map.mpr ⟨e, hmem, htarget'.trans hxt'.symm⟩)
    rw [hnew, List.append_nil]
    refine List.map_congr_left fun x hx => readBack_congr hmem ?_
    rw [htarget']
    simpa using (List.mem_filter.mp hx).2

end Enriched

/-! ## The check of page references -/

theorem map_filterMap_sublist {α β γ : Type} {f : α → Option β} {t : β → γ} {s : α → γ}
    (h : ∀ x y, f x = some y → t y = s x) (xs : List α) :
    ((xs.filterMap f).map t).Sublist (xs.map s) := by
  induction xs with
  | nil => exact .slnil
  | cons x xs ih =>
      rw [List.filterMap_cons, List.map_cons]
      cases hx : f x with
      | none => exact ih.cons _
      | some y =>
          simp only [List.map_cons, h x y hx]
          exact ih.cons_cons _

/-- The entries of the check are edits at distinct targets that the report leaves alone. -/
theorem checkPages_entries {lib : PageLib} {now : ℤ} {report : Report} {pages : Option PageFiles}
    {check : PageCheck} (h : checkPages lib now report accepted pages = .ok check) :
    (check.entries.map (·.target)).Nodup ∧
      ∀ e ∈ check.entries, e.decision = .edit ∧ ∀ x ∈ report, x.target ≠ e.target := by
  cases pages with
  | none =>
      obtain rfl := Except.ok.inj h
      exact ⟨List.nodup_nil, fun e he => absurd he List.not_mem_nil⟩
  | some pages =>
      obtain ⟨index, -, h⟩ := bind_eq_ok.mp h
      obtain rfl := pure_eq_ok.mp h
      -- a page is edited only where the report has nothing at its target
      have hstale : ∀ (p : PageFile) (e : Entry),
          checkPage lib now report (entityIndex lib report accepted) index p = .stale e →
          e.target = p.target ∧ e.decision = .edit ∧ ∀ x ∈ report, x.target ≠ p.target := by
        intro p e hp
        unfold checkPage at hp
        simp only at hp
        split at hp
        · cases hp
        · split at hp
          · split at hp
            · cases hp
            · cases hp
          · rename_i hnone
            split at hp
            · split at hp
              · cases hp
              · cases hp
            · obtain rfl := PageOutcome.stale.inj hp
              refine ⟨rfl, rfl, fun x hx htarget => hnone fun hnil => ?_⟩
              have hmem := List.map_eq_nil_iff.mp hnil
              rw [List.filter_eq_nil_iff] at hmem
              exact hmem x hx (by simpa using htarget)
      constructor
      · refine pages.nodup.sublist (map_filterMap_sublist ?_ _)
        intro p e hp
        cases hcheck : checkPage lib now report (entityIndex lib report accepted) index p with
        | left => simp [hcheck] at hp
        | validated => simp [hcheck] at hp
        | stale e' =>
            simp only [hcheck] at hp
            obtain rfl := Option.some.inj hp
            exact (hstale p e' hcheck).1
      · intro e he
        obtain ⟨p, -, hp⟩ := List.mem_filterMap.mp he
        cases hcheck : checkPage lib now report (entityIndex lib report accepted) index p with
        | left => simp [hcheck] at hp
        | validated => simp [hcheck] at hp
        | stale e' =>
            simp only [hcheck] at hp
            obtain rfl := Option.some.inj hp
            obtain ⟨htarget, hd, hno⟩ := hstale p e' hcheck
            exact ⟨hd, by rwa [htarget]⟩

/-! ## Applying diffs -/

theorem writeEmittedDiffs_ne {tree : Tree} {ds : List EmittedDiff} {f : String}
    (h : ∀ d ∈ ds, d.target ≠ f) : writeEmittedDiffs tree ds f = tree f := by
  induction ds generalizing tree with
  | nil => rfl
  | cons d ds ih =>
      show writeEmittedDiffs (tree.write d) ds f = tree f
      rw [ih fun x hx => h x (List.mem_cons_of_mem d hx), Tree.write,
        if_neg (Ne.symm (h d List.mem_cons_self))]

/-- Diffs that agree on their targets leave what each of them says. -/
theorem writeEmittedDiffs_outcome {tree : Tree} {ds : List EmittedDiff}
    (h : ∀ d ∈ ds, ∀ d' ∈ ds, d.target = d'.target → d.outcome = d'.outcome) {d : EmittedDiff}
    (hd : d ∈ ds) : writeEmittedDiffs tree ds d.target = d.outcome := by
  induction ds generalizing tree d with
  | nil => exact absurd hd List.not_mem_nil
  | cons x ds ih =>
      show writeEmittedDiffs (tree.write x) ds d.target = d.outcome
      by_cases hlater : ∃ y ∈ ds, y.target = d.target
      · obtain ⟨y, hy, htarget⟩ := hlater
        have hrest : writeEmittedDiffs (tree.write x) ds y.target = y.outcome := ih
          (fun a ha b hb => h a (List.mem_cons_of_mem x ha) b (List.mem_cons_of_mem x hb)) hy
        rw [← htarget, hrest]
        exact h y (List.mem_cons_of_mem x hy) d hd htarget
      · obtain rfl : d = x := by
          rcases List.mem_cons.mp hd with heq | hmem
          · exact heq
          · exact absurd ⟨d, hmem, rfl⟩ hlater
        rw [writeEmittedDiffs_ne fun y hy htarget => hlater ⟨y, hy, htarget⟩, Tree.write,
          if_pos rfl]

theorem writeEmittedDiffs_perm {tree : Tree} {ds ds' : List EmittedDiff}
    (h : ∀ d ∈ ds, ∀ d' ∈ ds, d.target = d'.target → d.outcome = d'.outcome)
    (hperm : ds.Perm ds') : writeEmittedDiffs tree ds = writeEmittedDiffs tree ds' := by
  have h' : ∀ d ∈ ds', ∀ d' ∈ ds', d.target = d'.target → d.outcome = d'.outcome :=
    fun d hd d' hd' => h d (hperm.mem_iff.mpr hd) d' (hperm.mem_iff.mpr hd')
  funext f
  by_cases hf : ∃ d ∈ ds, d.target = f
  · obtain ⟨d, hd, rfl⟩ := hf
    rw [writeEmittedDiffs_outcome h hd, writeEmittedDiffs_outcome h' (hperm.mem_iff.mp hd)]
  · rw [writeEmittedDiffs_ne fun d hd htarget => hf ⟨d, hd, htarget⟩,
      writeEmittedDiffs_ne fun d hd htarget => hf ⟨d, hperm.mem_iff.mpr hd, htarget⟩]

/-- In a report whose entries at a target are all equal, only the number of changes is left. -/
theorem oneChange_iff_single {lib : EmitLib} {report : Report}
    (hsame : ∀ e ∈ report, ∀ e' ∈ report, e.target = e'.target → e = e') :
    OneChange lib report ↔
      ∀ t, ((report.filter fun e => e.target = t).filter (·.decision.changes)).length ≤ 1 := by
  refine ⟨(·.single), fun hsingle => ⟨hsingle, ?_, ?_⟩⟩
  · intro e he hchanges e' he' htarget hd
    obtain rfl := hsame e' he' e he htarget
    rw [hd] at hchanges
    cases hchanges
  · intro tree ds hds
    have hagree : ∀ d ∈ ds, ∀ d' ∈ ds, d.target = d'.target → d.outcome = d'.outcome := by
      intro d hd d' hd' htarget
      obtain ⟨e, he, hdiff⟩ := List.mem_filterMap.mp (hds d hd)
      obtain ⟨e', he', hdiff'⟩ := List.mem_filterMap.mp (hds d' hd')
      have htargets : ∀ (x : Entry) (y : EmittedDiff), x.diff lib = some y →
          y.target = x.target := by
        intro x y hxy
        obtain ⟨op, -, rfl⟩ := Option.map_eq_some_iff.mp hxy
        rfl
      have hee : e = e' := hsame e he e' he' (by
        rw [← htargets e d hdiff, ← htargets e' d' hdiff', htarget])
      rw [hee, hdiff'] at hdiff
      rw [Option.some.inj hdiff]
    exact ⟨fun ds' hperm => writeEmittedDiffs_perm hagree hperm,
      fun d hd => writeEmittedDiffs_outcome hagree hd⟩

/-! ## The whole run -/

section Run

variable {lib : EmitLib} {now : ℤ} {drafter : ReconcileDrafter} {files : ProjectFiles}
  {evidence : List EvidenceItem} {built : BuildResult} {cs : List Candidate}

/-- A list of one repeated change. -/
theorem length_changes_const {es : List Entry} {e : Entry} :
    ((es.map fun _ => e).filter (·.decision.changes)).length =
      if e.decision.changes then es.length else 0 := by
  induction es with
  | nil => simp
  | cons x es ih =>
      rw [List.map_cons, List.filter_cons]
      by_cases hc : e.decision.changes = true
      · simp only [hc, if_true] at ih ⊢
        rw [List.length_cons, ih, List.length_cons]
      · simp only [hc] at ih ⊢
        exact ih

/-- Several entries at a target hold no change exactly if the last one is none and the examples
there do not change. -/
theorem RefinedAt.unchanged {policy : AutoApplyConfig} {accepted : AcceptedStore}
    {proposals : List Proposal} {refined : Report} {t : String}
    {group resolved prunes : List Entry}
    (h : RefinedAt lib.toIngestLib policy drafter accepted proposals cs t group resolved prunes)
    (hkeep : KeepApart lib.toIngestLib policy drafter accepted files evidence proposals cs)
    (hsplit : refined.filter (fun e => e.target = t) = group ++ resolved ++ prunes)
    (hlen : 2 ≤ (group ++ resolved ++ prunes).length) {l : Entry}
    (hl : lastAt refined t = some l) :
    ¬ (l.decision.changes = true ∨ ExamplesChange lib.toIngestLib files evidence t) := by
  rw [lastAt, hsplit] at hl
  by_cases hc : ∃ c ∈ cs, c.target lib.py = t
  · obtain ⟨c, hc, rfl⟩ := hc
    obtain ⟨hgroup, e, rfl, hat⟩ := h.candidate c hc rfl
    obtain rfl : prunes = [] := by
      by_contra hne
      cases (h.pruned hne).2
    have hne : group ≠ [] := by
      rintro rfl
      simp at hlen
    obtain ⟨hadded, hexamples⟩ := hkeep.shared c hc (hgroup hne)
    obtain rfl : e = l := by simpa using hl
    rintro (hchanges | hchange)
    · rcases hat.either with hadd | hno
      · exact hadded (hat.added_iff.mp hadd)
      · rw [hno] at hchanges
        cases hchanges
    · exact hexamples hchange
  -- without a candidate the entries are those of an undecided group
  · obtain rfl : resolved = [] := h.none_ fun c hc' htarget => hc ⟨c, hc', htarget⟩
    obtain rfl : prunes = [] := by
      by_contra hne
      obtain ⟨rfl, -⟩ := h.pruned hne
      have hle := h.prunes_le
      simp only [List.nil_append] at hlen
      omega
    rw [List.append_nil, List.append_nil] at hl hlen
    obtain ⟨hall, hwhere⟩ := h.undecided hlen
    rintro (hchanges | hchange)
    · rw [hall l (List.mem_of_getLast? hl)] at hchanges
      cases hchanges
    · rcases hwhere with hknowledge | hopen
      · obtain ⟨b, -, hbt, -⟩ := hchange
        rw [← hbt, bindingTarget_not_knowledge] at hknowledge
        cases hknowledge
      · exact hkeep.undecided t hopen hchange

/-- What the passes of a run leave, target by target: the refined report has the entries of the
target's groups; the enriched one has as many, all alike, which are changes when the last refined
one is or the examples of the target change; and the page check writes where there is nothing
else. -/
structure Passes (lib : IngestLib) (policy : AutoApplyConfig) (drafter : ReconcileDrafter)
    (accepted : AcceptedStore) (files : ProjectFiles) (evidence : List EvidenceItem)
    (proposals : List Proposal) (cs : List Candidate) (refined enriched pages : List Entry) :
    Prop where
  refinedAt : ∀ t, ∃ group resolved prunes,
    refined.filter (fun e => e.target = t) = group ++ resolved ++ prunes ∧
      RefinedAt lib policy drafter accepted proposals cs t group resolved prunes
  enrichedAt : ∀ t,
    (refined.filter (fun e => e.target = t) = [] ∧
      (enriched.filter fun e => e.target = t).length ≤ 1) ∨
    ∃ e l, lastAt refined t = some l ∧
      enriched.filter (fun e => e.target = t) =
        (refined.filter fun e => e.target = t).map (fun _ => e) ∧
      (e.decision.changes = true ↔
        l.decision.changes = true ∨ ExamplesChange lib files evidence t)
  nodup : (pages.map (·.target)).Nodup
  apart : ∀ e ∈ pages, ∀ x ∈ enriched, x.target ≠ e.target

section Passes

variable {policy : AutoApplyConfig} {accepted : AcceptedStore} {proposals : List Proposal}
  {refined enriched pages : List Entry}

/-- The entries of a target are equal. -/
theorem Passes.eq_of_target (h : Passes lib.toIngestLib policy drafter accepted files evidence
    proposals cs refined enriched pages) :
    ∀ e ∈ enriched ++ pages, ∀ e' ∈ enriched ++ pages, e.target = e'.target → e = e' := by
  have hboth : ∀ e ∈ enriched, ∀ e' ∈ enriched, e.target = e'.target → e = e' := by
    intro e he e' he' htarget
    have hmem : e ∈ enriched.filter fun x => x.target = e.target :=
      List.mem_filter.mpr ⟨he, by simp⟩
    have hmem' : e' ∈ enriched.filter fun x => x.target = e.target :=
      List.mem_filter.mpr ⟨he', by simp [htarget]⟩
    rcases h.enrichedAt e.target with ⟨-, hle⟩ | ⟨x, -, -, heq, -⟩
    · exact eq_of_length_le_one hle hmem hmem'
    · rw [heq] at hmem hmem'
      obtain ⟨-, -, rfl⟩ := List.mem_map.mp hmem
      obtain ⟨-, -, rfl⟩ := List.mem_map.mp hmem'
      rfl
  intro e he e' he' htarget
  rcases List.mem_append.mp he with he | he
  · rcases List.mem_append.mp he' with he' | he'
    · exact hboth e he e' he' htarget
    · exact absurd htarget (h.apart e' he' e he)
  · rcases List.mem_append.mp he' with he' | he'
    · exact absurd htarget.symm (h.apart e he e' he')
    · exact List.inj_on_of_nodup_map h.nodup he he' htarget

/-- Several entries of a refined report, the last of them read back as a change, are several
changes. -/
theorem Passes.several (h : Passes lib.toIngestLib policy drafter accepted files evidence
    proposals cs refined enriched pages) {t : String}
    (hlen : 2 ≤ (refined.filter fun e => e.target = t).length) {l : Entry}
    (hl : lastAt refined t = some l)
    (hchanges : l.decision.changes = true ∨ ExamplesChange lib.toIngestLib files evidence t) :
    ¬ (((enriched ++ pages).filter fun e => e.target = t).filter
      (·.decision.changes)).length ≤ 1 := by
  intro hle
  rcases h.enrichedAt t with ⟨hnil, -⟩ | ⟨e, l', hl', heq, hiff⟩
  · rw [hnil] at hlen
    simp at hlen
  · obtain rfl : l = l' := Option.some.inj (hl.symm.trans hl')
    rw [List.filter_append, heq, List.filter_append, List.length_append, length_changes_const,
      if_pos (hiff.mpr hchanges)] at hle
    omega

/-- Where every target has one change at most, candidates and undecided groups keep apart from
other changes. -/
theorem Passes.keepApart (h : Passes lib.toIngestLib policy drafter accepted files evidence
    proposals cs refined enriched pages)
    (hsingle : ∀ t, (((enriched ++ pages).filter fun e => e.target = t).filter
      (·.decision.changes)).length ≤ 1) :
    KeepApart lib.toIngestLib policy drafter accepted files evidence proposals cs := by
  constructor
  · intro c hc hgroup
    obtain ⟨group, resolved, prunes, hsplit, hrefinedAt⟩ := h.refinedAt (c.target lib.py)
    obtain ⟨-, e, rfl, hcandidate⟩ := hrefinedAt.candidate c hc rfl
    have hne := hrefinedAt.grouped hgroup
    obtain rfl : prunes = [] := by
      by_contra hne'
      cases (hrefinedAt.pruned hne').2
    have hl : lastAt refined (c.target lib.py) = some e := by
      rw [lastAt, hsplit]
      simp
    have hlen : 2 ≤ (refined.filter fun e => e.target = c.target lib.py).length := by
      rw [hsplit]
      have hpos := List.length_pos_iff.mpr hne
      simp only [List.length_append, List.length_singleton, List.length_nil]
      omega
    constructor
    · intro hadded
      refine h.several hlen hl (.inl ?_) (hsingle _)
      rw [hcandidate.added_iff.mpr hadded]
      rfl
    · exact fun hchange => h.several hlen hl (.inr hchange) (hsingle _)
  · intro t hopen hchange
    obtain ⟨group, resolved, prunes, hsplit, hrefinedAt⟩ := h.refinedAt t
    have hlen : 2 ≤ (refined.filter fun e => e.target = t).length := by
      have hmany := hrefinedAt.open_ hopen
      rw [hsplit, List.length_append, List.length_append]
      omega
    obtain ⟨x, hx⟩ := List.exists_mem_of_length_pos (by omega :
      0 < (refined.filter fun e => e.target = t).length)
    obtain ⟨hmem, htarget⟩ := List.mem_filter.mp hx
    obtain rfl : x.target = t := by simpa using htarget
    obtain ⟨l, hl⟩ := exists_lastAt hmem
    exact h.several hlen hl (.inr hchange) (hsingle _)

/-- Where they keep apart, every target has one change at most. -/
theorem Passes.single (h : Passes lib.toIngestLib policy drafter accepted files evidence
    proposals cs refined enriched pages)
    (hkeep : KeepApart lib.toIngestLib policy drafter accepted files evidence proposals cs)
    (t : String) : (((enriched ++ pages).filter fun e => e.target = t).filter
      (·.decision.changes)).length ≤ 1 := by
  rw [List.filter_append, List.filter_append, List.length_append]
  have hbound : ∀ es : List Entry, (es.filter (·.decision.changes)).length ≤ es.length :=
    fun es => List.length_filter_le _ es
  -- a target that the check writes has no other entry
  have halone : pages.filter (fun e => e.target = t) ≠ [] →
      enriched.filter (fun e => e.target = t) = [] := by
    intro hne
    obtain ⟨x, hx⟩ := List.exists_mem_of_ne_nil _ hne
    obtain ⟨hmem, htarget⟩ := List.mem_filter.mp hx
    rw [List.filter_eq_nil_iff]
    intro e he hte
    refine h.apart x hmem e he ?_
    rw [show e.target = t by simpa using hte, show x.target = t by simpa using htarget]
  by_cases hchecked : pages.filter (fun e => e.target = t) = []
  · rw [hchecked, List.filter_nil, List.length_nil, Nat.add_zero]
    rcases h.enrichedAt t with ⟨-, hle⟩ | ⟨e, l, hl, heq, hiff⟩
    · exact (hbound _).trans hle
    · obtain ⟨group, resolved, prunes, hsplit, hrefinedAt⟩ := h.refinedAt t
      rw [heq, length_changes_const]
      split
      · rename_i hchanges
        by_contra hlen
        have hlen' : 2 ≤ (refined.filter fun x => x.target = t).length := by omega
        rw [hsplit] at hlen'
        exact hrefinedAt.unchanged hkeep hsplit hlen' hl (hiff.mp hchanges)
      · exact Nat.zero_le 1
  · rw [halone hchecked, List.filter_nil, List.length_nil, Nat.zero_add]
    exact (hbound _).trans (length_filter_target_le h.nodup t)

end Passes

/-- The candidates of a build have targets of their own. -/
theorem distinctTargets_of_built (hbuild : build lib.toBuilderLib evidence = .ok built)
    (hcs : built.proposals.filter isCandidate = cs.map (·.proposal lib.py)) :
    DistinctTargets lib.py cs := by
  obtain ⟨cs', hcs', hfilter, -⟩ := built_cases hbuild
  have htargets : ∀ xs : List Candidate,
      (xs.map (·.proposal lib.py)).map (·.target) = xs.map (·.target lib.py) := by
    intro xs
    rw [List.map_map]
    rfl
  have hsame : cs.map (·.target lib.py) = cs'.map (·.target lib.py) := by
    rw [← htargets, ← htargets, ← hcs, hfilter]
  rw [DistinctTargets, hsame]
  exact hcs'

/-- **Exactly when a run emits one change for a target.** -/
theorem oneChange_iff {policy : AutoApplyConfig} {accepted : AcceptedStore} {out : Report}
    (hbuild : build lib.toBuilderLib evidence = .ok built)
    (hcs : built.proposals.filter isCandidate = cs.map (·.proposal lib.py))
    (h : emitReport lib now policy drafter accepted files evidence = .ok out) :
    OneChange lib out ↔
      KeepApart lib.toIngestLib policy drafter accepted files evidence built.proposals cs := by
  obtain ⟨enriched, hrun, h⟩ := bind_eq_ok.mp h
  obtain ⟨check, hcheck, h⟩ := bind_eq_ok.mp h
  obtain rfl := pure_eq_ok.mp h
  obtain ⟨built', hbuilt', hrun⟩ := bind_eq_ok.mp hrun
  obtain rfl := Except.ok.inj (hbuild.symm.trans hbuilt')
  obtain ⟨report, hreport, hrun⟩ := bind_eq_ok.mp hrun
  obtain ⟨refined, hrefined, henrich⟩ := bind_eq_ok.mp hrun
  obtain ⟨updated, hupd, hout⟩ := enrich_eq_ok henrich
  have hupd' : Updates lib.py files.bindings files.assertions evidence refined updated := hupd
  obtain ⟨hnodup, hpages⟩ := checkPages_entries hcheck
  have hpasses : Passes lib.toIngestLib policy drafter accepted files evidence built.proposals cs
      refined enriched check.entries := by
    refine ⟨refined_at (build_placed hbuild) (distinctTargets_of_built hbuild hcs) hcs hreport
      hrefined, fun t => ?_, hnodup, fun e he => (hpages e he).2⟩
    rcases hupd'.enriched_at hout t with hnone | ⟨e, he, rfl, heq⟩
    · exact .inl hnone
    · obtain ⟨l, hl⟩ := exists_lastAt he
      exact .inr ⟨_, l, hl, heq, hupd'.readBack_changes hl⟩
  rw [oneChange_iff_single hpasses.eq_of_target]
  exact ⟨hpasses.keepApart, hpasses.single⟩

end Run

/-! ### Two dashboards that redefine one metric

Both name the metric `orders`, whose examples on file are out of date. -/

private def fieldText (payload : Content) (key : String) : String :=
  match payload.get key with
  | some (.str s) => s
  | _ => ""

private def dashboardLib : EmitLib where
  py := .plain
  schema _ := raise "ValidationError"
  usage payload := .ok {
    source := "metabase", artifact := fieldText payload "artifact", title := "orders", expr := ""
    nativeRef := fieldText payload "artifact", role := .alternative }
  doc _ := .error "Field required"
  definitions _ _ := .ok { forRelation := fun _ => {} }
  columnsOf _ := .ok []
  definitionDigest _ := ""
  titleDigest _ := ""
  isWordChar c := c.isAlphanum || c == '_'
  drafter := nullLLMDrafter
  render _ _ _ := .ok ⟨"", "", []⟩
  semantic _ := none
  dumpPage page := page.text
  root := "/project"
  dumpYaml _ := ""

private def dashboard (artifact : String) : EvidenceItem where
  source := "metabase"
  kind := "usage_evidence"
  acquisitionTier := .live
  payload := [("artifact", .str artifact)]
  sourceFingerprint := artifact

private def ordersFile : BindingFile where
  binding := { metric := "orders", canonical := { of := .single "orders" "count" } }
  canonical := .obj [("kind", .str "single"), ("source", .str "orders"), ("measure", .str "count")]
  examples := [{ query := { metrics := ["orders"] }, origin := "observed_query" }]

private def ordersStore : AcceptedStore where
  facts := [{
    target := "contracts/metrics/orders.yaml", content := ordersFile.dump
    provenance := .humanCurated }]
  nodup := List.nodup_singleton _

private def ordersRun (evidence : List EvidenceItem) : Reads Report :=
  emitReport dashboardLib 0 { minConfidence := .one } nullDrafter ordersStore
    { bindings := [ordersFile] } evidence

/-- The two alternatives disagree, and the edit of the examples takes the place of both. -/
theorem oneChange_counterexample :
    ∃ out, ordersRun [dashboard "card:1", dashboard "card:2"] = .ok out ∧
      ¬ OneChange dashboardLib out := by
  obtain ⟨out, hout, hlen⟩ : ∃ out,
      ordersRun [dashboard "card:1", dashboard "card:2"] = .ok out ∧
        decide (((out.filter fun e => e.target = "contracts/metrics/orders.yaml").filter
          (·.decision.changes)).length = 2) = true := exists_ok_of_any (by decide +kernel)
  refine ⟨out, hout, fun hone => ?_⟩
  have hle := hone.single "contracts/metrics/orders.yaml"
  have hlen' := of_decide_eq_true hlen
  omega

/-- One alternative is merged, with the examples recomputed. -/
theorem oneChange_iff_dashboard :
    ∃ out, ordersRun [dashboard "card:1"] = .ok out ∧ OneChange dashboardLib out := by
  obtain ⟨out, hout⟩ := exists_ok_of_isOk (x := ordersRun [dashboard "card:1"]) (by decide +kernel)
  obtain ⟨p, hbuild, hcandidate⟩ : ∃ p, build dashboardLib.toBuilderLib [dashboard "card:1"] =
      .ok ⟨[p], []⟩ ∧ isCandidate p = false := ⟨_, rfl, rfl⟩
  have hcs : [p].filter isCandidate = ([] : List Candidate).map (·.proposal dashboardLib.py) := by
    simp [hcandidate]
  refine ⟨out, hout, (oneChange_iff hbuild hcs hout).mpr ⟨?_, ?_⟩⟩
  · exact fun c hc => absurd hc List.not_mem_nil
  · rintro t ⟨hsig, -⟩
    -- one proposal does not disagree
    obtain ⟨x, hx, y, hy, hne⟩ := one_lt_signatureCount.mp hsig
    have hone : ∀ q ∈ groupAt [p] t, q = p := fun q hq =>
      List.mem_singleton.mp (List.mem_of_mem_filter (List.mem_of_mem_filter hq))
    exact absurd (by rw [hone x hx, hone y hy]) hne

end Canonic
