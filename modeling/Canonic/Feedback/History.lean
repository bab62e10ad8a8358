import Canonic.Dict

set_option autoImplicit false

/-! # The outcome history of a binding

`feedback/history.py`, with `latest_outcome_by_ref` of `instrumentation/report.py` and the gate of
`feedback/evidence.py`: outcome marks are joined afterwards, over the whole event log, to the
bindings of the answers that were served.

An outcome names its answer by the hash of the query only, and the log may hold many answers of one
hash. `servings` reads the same log in order, so that each outcome lands on the answer that was the
last one served at that moment; the join of the code is compared with it. -/

namespace Canonic

/-! ## Events -/

/-- `OutcomeVerdict`. -/
inductive OutcomeVerdict where
  | correct | incorrect
  deriving DecidableEq, Repr

/-- `OutcomeReasonCode`. -/
inductive OutcomeReasonCode where
  | wrongDefinition | wrongData | wrongInterpretation | unspecified
  deriving DecidableEq, Repr

/-- `OutcomeMarkedBy`. -/
inductive OutcomeMarkedBy where
  | analyst | agent | ci
  deriving DecidableEq, Repr

/-- `AnswerEvent`, as far as outcomes are joined to it. -/
structure AnswerEvent where
  queryHash : String
  resolved : Dict (Dict String) := []
  deriving DecidableEq, Repr

/-- `answer.resolved.get("metrics", {}).values()`: one binding for every resolved metric. -/
def AnswerEvent.bindings (a : AnswerEvent) : List String :=
  (Dict.getD a.resolved "metrics" []).map (·.2)

/-- `AnswerOutcomeEvent`; a correct answer has no reason code (`_validate_reason_code`). -/
structure AnswerOutcomeEvent where
  ts : String
  ref : String
  verdict : OutcomeVerdict
  reasonCode : Option OutcomeReasonCode
  markedBy : OutcomeMarkedBy
  no_reason : verdict = .correct → reasonCode = none
  deriving DecidableEq

/-- One event of the log. The outcomes are a parameter, so that a log can be read with its
outcomes numbered. -/
inductive LogEvent (α : Type) where
  | served (a : AnswerEvent)
  | outcome (o : α)
  | other

/-- `read_events(kind="served_answer")`. -/
def answersOf {α : Type} (log : List (LogEvent α)) : List AnswerEvent :=
  log.filterMap fun | .served a => some a | _ => none

/-- `read_events(kind="answer_outcome")`. -/
def outcomesOf {α : Type} (log : List (LogEvent α)) : List α :=
  log.filterMap fun | .outcome o => some o | _ => none

/-! ## The join of the code -/

/-- `OutcomeRecord`. -/
structure OutcomeRecord where
  ts : String
  binding : String
  verdict : OutcomeVerdict
  reasonCode : Option OutcomeReasonCode
  markedBy : OutcomeMarkedBy
  ref : String
  deriving DecidableEq, Repr

/-- The record of an outcome and a binding. -/
def AnswerOutcomeEvent.record (o : AnswerOutcomeEvent) (binding : String) : OutcomeRecord :=
  ⟨o.ts, binding, o.verdict, o.reasonCode, o.markedBy, o.ref⟩

section Join

variable {α : Type} (ref : α → String)

/-- `latest_outcome_by_ref`. -/
def latestOutcomeByRef (outcomes : List α) : Dict α := Dict.indexBy ref outcomes

/-- The bindings of the answer `by_hash` holds under a hash. -/
def bindingsByHash (answers : List AnswerEvent) (hash : String) : List String :=
  match (Dict.indexBy AnswerEvent.queryHash answers).get hash with
  | none => []
  | some a => a.bindings

/-- The loop of `from_events`: the binding and the outcome of each record it appends. -/
def joinOutcomes (answers : List AnswerEvent) (outcomes : List α) : List (String × α) :=
  (latestOutcomeByRef ref outcomes).flatMap fun p =>
    (bindingsByHash answers p.1).map fun b => (b, p.2)

end Join

/-- `BindingOutcomeHistory`: the records by their binding. -/
abbrev BindingOutcomeHistory := Dict (List OutcomeRecord)

namespace BindingOutcomeHistory

/-- `__init__`. -/
def ofRecords (records : List OutcomeRecord) : BindingOutcomeHistory :=
  Dict.groupBy OutcomeRecord.binding records

/-- `from_events`. -/
def fromEvents (answers : List AnswerEvent) (outcomes : List AnswerOutcomeEvent) :
    BindingOutcomeHistory :=
  ofRecords ((joinOutcomes AnswerOutcomeEvent.ref answers outcomes).map fun p => p.2.record p.1)

/-- `from_project`, over the events of the log. -/
def fromLog (log : List (LogEvent AnswerOutcomeEvent)) : BindingOutcomeHistory :=
  fromEvents (answersOf log) (outcomesOf log)

/-- `bindings`. -/
def bindings (h : BindingOutcomeHistory) : List String := sortedSet (h.map (·.1))

/-- `records_for`. -/
def recordsFor (h : BindingOutcomeHistory) (binding : String) : List OutcomeRecord :=
  Dict.getD h binding []

/-- `_wrong_definition_records`; `recent` is the test of a timestamp against the window. -/
def wrongDefinitionRecords (h : BindingOutcomeHistory) (recent : String → Bool)
    (binding : String) : List OutcomeRecord :=
  (h.recordsFor binding).filter fun r =>
    r.reasonCode == some .wrongDefinition && recent r.ts

/-- `wrong_definition_count`. -/
def wrongDefinitionCount (h : BindingOutcomeHistory) (recent : String → Bool)
    (binding : String) : ℕ :=
  (h.wrongDefinitionRecords recent binding).length

/-- `distinct_markers`. -/
def distinctMarkers (h : BindingOutcomeHistory) (recent : String → Bool) (binding : String) : ℕ :=
  ((h.wrongDefinitionRecords recent binding).map (·.markedBy)).dedup.length

/-- `wrong_definition_refs`. -/
def wrongDefinitionRefs (h : BindingOutcomeHistory) (recent : String → Bool)
    (binding : String) : List String :=
  sortedSet ((h.wrongDefinitionRecords recent binding).map (·.ref))

/-- The gate of `outcome_evidence`: the bindings whose pattern is strong enough to be evidence,
before the metric of each is looked up. -/
def gated (h : BindingOutcomeHistory) (recent : String → Bool) (minCount minMarkers : ℕ) :
    List String :=
  h.bindings.filter fun b =>
    minCount ≤ h.wrongDefinitionCount recent b && minMarkers ≤ h.distinctMarkers recent b

end BindingOutcomeHistory

/-! ## The log read in order -/

/-- An answer that was served, with the outcome that stands on it. -/
structure Serving (α : Type) where
  answer : AnswerEvent
  mark : Option α

section Servings

variable {α : Type} (ref : α → String)

/-- Marks the latest serving of a hash; the servings are newest first. -/
def markLatest (o : α) : List (Serving α) → List (Serving α)
  | [] => []
  | v :: vs =>
      if v.answer.queryHash = ref o then ⟨v.answer, some o⟩ :: vs else v :: markLatest o vs

/-- One event: an answer is served, or the latest serving of the outcome's hash is marked anew. -/
def Serving.step (vs : List (Serving α)) : LogEvent α → List (Serving α)
  | .served a => ⟨a, none⟩ :: vs
  | .outcome o => markLatest ref o vs
  | .other => vs

/-- The servings of a log, newest first. -/
def servings (log : List (LogEvent α)) : List (Serving α) := log.foldl (Serving.step ref) []

/-- The servings of one hash, newest first. -/
def servingsOf (h : String) (log : List (LogEvent α)) : List (Serving α) :=
  (servings ref log).filter fun v => v.answer.queryHash = h

/-- What one serving contributes: its mark, once for each binding it uses. -/
def Serving.counted (v : Serving α) : List (String × α) :=
  v.mark.toList.flatMap fun o => v.answer.bindings.dedup.map fun b => (b, o)

/-- What a log attributes: the bindings of each marked answer, each once. -/
def attributed (log : List (LogEvent α)) : List (String × α) :=
  (servings ref log).flatMap Serving.counted

/-! ### Servings -/

theorem servings_concat (log : List (LogEvent α)) (e : LogEvent α) :
    servings ref (log ++ [e]) = Serving.step ref (servings ref log) e := by
  simp [servings]

theorem map_answer_markLatest (o : α) (vs : List (Serving α)) :
    (markLatest ref o vs).map (·.answer) = vs.map (·.answer) := by
  induction vs with
  | nil => rfl
  | cons v vs ih =>
      unfold markLatest
      by_cases hv : v.answer.queryHash = ref o
      · rw [if_pos hv]
        rfl
      · rw [if_neg hv, List.map_cons, List.map_cons, ih]

/-- Every answer of the log is one serving. -/
theorem map_answer_servings (log : List (LogEvent α)) :
    (servings ref log).map (·.answer) = (answersOf log).reverse := by
  induction log using List.reverseRecOn with
  | nil => rfl
  | append_singleton log e ih =>
      rw [servings_concat, answersOf, List.filterMap_append, ← answersOf]
      cases e with
      | served a => simpa [Serving.step] using ih
      | outcome o => simpa [Serving.step, map_answer_markLatest] using ih
      | other => simpa [Serving.step] using ih

/-- The answer the code finds under a hash is the newest serving. -/
theorem get_byHash (log : List (LogEvent α)) (h : String) :
    (Dict.indexBy AnswerEvent.queryHash (answersOf log)).get h =
      (servingsOf ref h log).head?.map (·.answer) := by
  have hrev : answersOf log = ((servings ref log).map (·.answer)).reverse := by
    rw [map_answer_servings, List.reverse_reverse]
  rw [Dict.get_indexBy, hrev, List.filter_reverse, List.getLast?_reverse, List.filter_map,
    List.head?_map]
  rfl

/-- Marks the first of the servings of one hash. -/
def markHead (o : α) : List (Serving α) → List (Serving α)
  | [] => []
  | v :: vs => ⟨v.answer, some o⟩ :: vs

theorem filter_markLatest (o : α) (vs : List (Serving α)) (h : String) :
    (markLatest ref o vs).filter (fun v => v.answer.queryHash = h) =
      if ref o = h then markHead o (vs.filter fun v => v.answer.queryHash = h)
      else vs.filter fun v => v.answer.queryHash = h := by
  induction vs with
  | nil => simp [markLatest, markHead]
  | cons v vs ih =>
      unfold markLatest
      by_cases hv : v.answer.queryHash = ref o
      · by_cases hh : ref o = h
        · simp [hv, hh, markHead]
        · simp [hv, hh]
      · by_cases hh : ref o = h
        · have hne : ¬ v.answer.queryHash = h := hh ▸ hv
          simpa [hv, hne, hh] using ih
        · rw [if_neg hv, List.filter_cons, ih, if_neg hh, if_neg hh, List.filter_cons]

/-- What one event does to the servings of a hash. -/
theorem servingsOf_concat (log : List (LogEvent α)) (e : LogEvent α) (h : String) :
    servingsOf ref h (log ++ [e]) =
      (Serving.step ref (servings ref log) e).filter fun v => v.answer.queryHash = h := by
  rw [servingsOf, servings_concat]

/-! ### Marks -/

/-- The outcomes of a hash that stand on its servings, newest first. -/
def marksOf (h : String) (log : List (LogEvent α)) : List α :=
  (servingsOf ref h log).filterMap (·.mark)

/-- The outcomes of a hash, newest first. -/
def outcomesFor (h : String) (log : List (LogEvent α)) : List α :=
  ((outcomesOf log).filter fun o => ref o = h).reverse

/-- The standing marks are among the outcomes, and the newest mark is the newest outcome. -/
def StandingMarks (marks outcomes : List α) : Prop :=
  marks = [] ∨ ∃ o ms os, marks = o :: ms ∧ outcomes = o :: os ∧ ms.Sublist os

theorem StandingMarks.sublist {marks outcomes : List α} (h : StandingMarks marks outcomes) :
    marks.Sublist outcomes := by
  rcases h with rfl | ⟨o, ms, os, rfl, rfl, h⟩
  · exact List.nil_sublist _
  · exact h.cons_cons o

/-- A new outcome replaces the mark of the newest serving. -/
theorem StandingMarks.markHead {vs : List (Serving α)} {outcomes : List α}
    (h : StandingMarks (vs.filterMap (·.mark)) outcomes) (o : α) :
    StandingMarks ((Canonic.markHead o vs).filterMap (·.mark)) (o :: outcomes) := by
  cases vs with
  | nil => exact Or.inl rfl
  | cons v vs =>
      refine Or.inr ⟨o, vs.filterMap (·.mark), outcomes, rfl, rfl, ?_⟩
      have hsub : (vs.filterMap (·.mark)).Sublist ((v :: vs).filterMap (·.mark)) :=
        (List.sublist_cons_self v vs).filterMap _
      exact hsub.trans h.sublist

theorem standingMarks (h : String) (log : List (LogEvent α)) :
    StandingMarks (marksOf ref h log) (outcomesFor ref h log) := by
  induction log using List.reverseRecOn with
  | nil => exact Or.inl rfl
  | append_singleton log e ih =>
      rw [marksOf, servingsOf_concat]
      cases e with
      | served a =>
          -- a new answer carries no mark
          have hmarks : ((Serving.step ref (servings ref log) (.served a)).filter
              fun v => v.answer.queryHash = h).filterMap (·.mark) = marksOf ref h log := by
            by_cases ha : a.queryHash = h
            · simp [Serving.step, marksOf, servingsOf, ha]
            · simp [Serving.step, marksOf, servingsOf, ha]
          rw [hmarks]
          simpa [outcomesFor, outcomesOf] using ih
      | outcome o =>
          rw [Serving.step, filter_markLatest]
          by_cases ho : ref o = h
          · rw [if_pos ho]
            have hout : outcomesFor ref h (log ++ [.outcome o]) = o :: outcomesFor ref h log := by
              simp [outcomesFor, outcomesOf, ho]
            rw [hout]
            exact StandingMarks.markHead ih o
          · rw [if_neg ho]
            have hout : outcomesFor ref h (log ++ [.outcome o]) = outcomesFor ref h log := by
              simp [outcomesFor, outcomesOf, ho]
            rw [hout]
            exact ih
      | other => simpa [Serving.step, marksOf, servingsOf, outcomesFor, outcomesOf] using ih

/-- The outcome the code keeps under a hash is the newest one. -/
theorem get_latestOutcomeByRef (log : List (LogEvent α)) (h : String) :
    (latestOutcomeByRef ref (outcomesOf log)).get h = (outcomesFor ref h log).head? := by
  rw [latestOutcomeByRef, Dict.get_indexBy, outcomesFor, List.head?_reverse]

/-- A mark belongs to the hash of its serving. -/
theorem ref_of_mark {log : List (LogEvent α)} {v : Serving α} {o : α}
    (hv : v ∈ servings ref log) (ho : v.mark = some o) : ref o = v.answer.queryHash := by
  have hmem : o ∈ marksOf ref v.answer.queryHash log :=
    List.mem_filterMap.mpr ⟨v, List.mem_filter.mpr ⟨hv, by simp⟩, ho⟩
  have hout := (standingMarks ref v.answer.queryHash log).sublist.subset hmem
  simpa using (List.mem_filter.mp (List.mem_reverse.mp hout)).2

/-! ## One hash at a time -/

/-- The bindings of the newest of some servings. -/
def lastBindings (vs : List (Serving α)) : List String :=
  vs.head?.elim [] (·.answer.bindings)

/-- The servings that carry an outcome. -/
def markedOf (vs : List (Serving α)) : List (Serving α) := vs.filter (·.mark.isSome)

theorem bindingsByHash_answersOf (log : List (LogEvent α)) (h : String) :
    bindingsByHash (answersOf log) h = lastBindings (servingsOf ref h log) := by
  rw [bindingsByHash, get_byHash ref, lastBindings]
  cases (servingsOf ref h log).head? with
  | none => rfl
  | some v => rfl

/-- The records of one hash: its newest outcome with the bindings of its newest answer. -/
theorem filter_joinOutcomes (log : List (LogEvent α)) (h : String) :
    (joinOutcomes ref (answersOf log) (outcomesOf log)).filter (fun p => ref p.2 = h) =
      (outcomesFor ref h log).head?.toList.flatMap fun o =>
        (lastBindings (servingsOf ref h log)).map fun b => (b, o) := by
  have hkey : ∀ p ∈ Dict.indexBy ref (outcomesOf log),
      ∀ y ∈ (bindingsByHash (answersOf log) p.1).map fun b => (b, p.2), ref y.2 = p.1 := by
    intro p hp y hy
    obtain ⟨b, -, rfl⟩ := List.mem_map.mp hy
    exact Dict.key_of_mem_indexBy ref hp
  rw [joinOutcomes, latestOutcomeByRef,
    filter_flatMap_of_key (fun p : String × α => p.1) (fun p : String × α => ref p.2) hkey h,
    Dict.filter_key (Dict.nodup_indexBy ref _), ← latestOutcomeByRef, get_latestOutcomeByRef,
    List.flatMap_map]
  refine List.flatMap_congr fun o _ => ?_
  rw [← bindingsByHash_answersOf ref]

theorem mem_counted {v : Serving α} {p : String × α} :
    p ∈ v.counted ↔ v.mark = some p.2 ∧ p.1 ∈ v.answer.bindings := by
  obtain ⟨b, o⟩ := p
  constructor
  · intro hp
    obtain ⟨o', ho', hb⟩ := List.mem_flatMap.mp hp
    obtain ⟨b', hb', heq⟩ := List.mem_map.mp hb
    obtain ⟨rfl, rfl⟩ := Prod.mk.inj heq
    exact ⟨by simpa using ho', List.mem_dedup.mp hb'⟩
  · rintro ⟨ho, hb⟩
    refine List.mem_flatMap.mpr ⟨o, by simpa using ho, ?_⟩
    exact List.mem_map.mpr ⟨b, List.mem_dedup.mpr hb, rfl⟩

/-- What the servings of one hash contribute. -/
theorem filter_attributed (log : List (LogEvent α)) (h : String) :
    (attributed ref log).filter (fun p => ref p.2 = h) =
      (servingsOf ref h log).flatMap Serving.counted := by
  refine filter_flatMap_of_key (fun v : Serving α => v.answer.queryHash)
    (fun p : String × α => ref p.2) ?_ h
  intro v hv p hp
  exact ref_of_mark ref hv (mem_counted.mp hp).1

theorem flatMap_counted_markedOf (vs : List (Serving α)) :
    (markedOf vs).flatMap Serving.counted = vs.flatMap Serving.counted := by
  induction vs with
  | nil => rfl
  | cons v vs ih =>
      obtain ⟨a, mark⟩ := v
      cases mark with
      | none => simpa [markedOf, Serving.counted] using ih
      | some o => simpa [markedOf] using ih

/-- The servings of one hash whose records come out right: the newest answer has the bindings of
the newest marked answer, each once, and no older marked answer has any. -/
structure Attributable (vs : List (Serving α)) : Prop where
  newest : (lastBindings vs).Perm ((markedOf vs).head?.elim [] (·.answer.bindings.dedup))
  older : ∀ m ∈ (markedOf vs).tail, m.answer.bindings = []

theorem filterMap_mark_markedOf (vs : List (Serving α)) :
    (markedOf vs).filterMap (·.mark) = vs.filterMap (·.mark) := by
  rw [markedOf, List.filterMap_filter]
  refine List.filterMap_congr fun v _ => ?_
  cases v.mark with
  | none => rfl
  | some o => rfl

theorem flatMap_counted_eq_nil {ms : List (Serving α)} (h : ∀ m ∈ ms, m.answer.bindings = []) :
    ms.flatMap Serving.counted = [] := by
  rw [List.flatMap_eq_nil_iff]
  intro m hm
  simp [Serving.counted, h m hm]

/-- The newest outcome of a hash counts as attributed exactly for attributable servings. -/
theorem perm_counted_iff {vs : List (Serving α)} {o : α} {os : List α}
    (hm : StandingMarks (vs.filterMap (·.mark)) (o :: os)) (hnd : (o :: os).Nodup) :
    ((lastBindings vs).map fun b => (b, o)).Perm (vs.flatMap Serving.counted) ↔
      Attributable vs := by
  rw [← flatMap_counted_markedOf]
  rw [← filterMap_mark_markedOf] at hm
  have hsome : ∀ m ∈ markedOf vs, m.mark.isSome := fun m h => (List.mem_filter.mp h).2
  cases hms : markedOf vs with
  | nil =>
      constructor
      · intro hp
        have hnil : lastBindings vs = [] := by simpa using hp.eq_nil
        exact ⟨by simp [hms, hnil], by simp [hms]⟩
      · rintro ⟨hnew, -⟩
        rw [hms] at hnew
        simp [List.Perm.eq_nil hnew]
  | cons m ms =>
      -- the newest mark is the newest outcome, and no older mark is
      obtain ⟨o', ho'⟩ := Option.isSome_iff_exists.mp (hsome m (by simp [hms]))
      rw [hms, List.filterMap_cons_some ho'] at hm
      rcases hm with hm | ⟨o₁, ms₁, os₁, heq, heq', hsub⟩
      · simp at hm
      obtain ⟨rfl, rfl⟩ := List.cons.inj heq
      obtain ⟨rfl, rfl⟩ := List.cons.inj heq'
      have hcounted : m.counted = m.answer.bindings.dedup.map fun b => (b, o) := by
        simp [Serving.counted, ho']
      rw [List.flatMap_cons, hcounted]
      constructor
      · intro hp
        have holder : ∀ m' ∈ ms, m'.answer.bindings = [] := by
          intro m' hm'
          obtain ⟨o₂, ho₂⟩ := Option.isSome_iff_exists.mp (hsome m' (by simp [hms, hm']))
          refine List.eq_nil_iff_forall_not_mem.mpr fun b hb => ?_
          have hmem : (b, o₂) ∈ ms.flatMap Serving.counted :=
            List.mem_flatMap.mpr ⟨m', hm', mem_counted.mpr ⟨ho₂, hb⟩⟩
          have hleft := hp.mem_iff.mpr (List.mem_append_right _ hmem)
          obtain ⟨b', -, heq⟩ := List.mem_map.mp hleft
          obtain ⟨-, rfl⟩ := Prod.mk.inj heq
          have hin : o ∈ ms.filterMap (·.mark) := List.mem_filterMap.mpr ⟨m', hm', ho₂⟩
          exact (List.nodup_cons.mp hnd).1 (hsub.subset hin)
        rw [flatMap_counted_eq_nil holder, List.append_nil] at hp
        have hfst := hp.map Prod.fst
        simp only [List.map_map, Function.comp_def, List.map_id'] at hfst
        exact ⟨by simpa [hms] using hfst, by simpa [hms] using holder⟩
      · rintro ⟨hnew, holder⟩
        rw [hms] at hnew holder
        rw [List.tail_cons] at holder
        rw [flatMap_counted_eq_nil holder, List.append_nil]
        exact hnew.map _

/-- The code's records and the attribution agree exactly when, for every hash that was marked, its
servings are attributable. -/
theorem joinOutcomes_perm_iff [DecidableEq α] {log : List (LogEvent α)}
    (hnd : (outcomesOf log).Nodup) :
    (joinOutcomes ref (answersOf log) (outcomesOf log)).Perm (attributed ref log) ↔
      ∀ o ∈ outcomesOf log, Attributable (servingsOf ref (ref o) log) := by
  have hnd' : ∀ h, (outcomesFor ref h log).Nodup := fun h =>
    List.nodup_reverse.mpr (hnd.filter _)
  rw [perm_iff_forall_key fun p : String × α => ref p.2]
  simp only [filter_joinOutcomes, filter_attributed]
  constructor
  · intro hp o ho
    have hmem : o ∈ outcomesFor ref (ref o) log := by simp [outcomesFor, ho]
    have hm := standingMarks ref (ref o) log
    have hh := hp (ref o)
    have hh' := hnd' (ref o)
    cases hos : outcomesFor ref (ref o) log with
    | nil => simp [hos] at hmem
    | cons o' os =>
        rw [hos] at hm hh hh'
        exact (perm_counted_iff hm hh').mp (by simpa using hh)
  · intro hall h
    have hm := standingMarks ref h log
    have hh' := hnd' h
    cases hos : outcomesFor ref h log with
    | nil =>
        -- nothing of this hash was marked
        rw [hos] at hm
        have hmarks : marksOf ref h log = [] := List.sublist_nil.mp hm.sublist
        have hnone : markedOf (servingsOf ref h log) = [] := by
          refine List.filter_eq_nil_iff.mpr fun v hv hsome => ?_
          obtain ⟨o, ho⟩ := Option.isSome_iff_exists.mp hsome
          have hin : o ∈ marksOf ref h log := List.mem_filterMap.mpr ⟨v, hv, ho⟩
          simp [hmarks] at hin
        rw [← flatMap_counted_markedOf, hnone]
        simp
    | cons o os =>
        have hmem : o ∈ outcomesFor ref h log := by simp [hos]
        have ho := List.mem_filter.mp (List.mem_reverse.mp hmem)
        have hh : ref o = h := by simpa using ho.2
        rw [hos] at hm hh'
        have hA := hall o ho.1
        rw [hh] at hA
        simpa using (perm_counted_iff hm hh').mpr hA

end Servings

/-! ## The records of a binding -/

section Numbered

/-- Names the outcomes of a log anew. -/
def LogEvent.map {α β : Type} (f : α → β) : LogEvent α → LogEvent β
  | .served a => .served a
  | .outcome o => .outcome (f o)
  | .other => .other

/-- A log with its outcomes numbered by their place, so that no two of them are the same. -/
def numbered (log : List (LogEvent AnswerOutcomeEvent)) :
    List (LogEvent (ℕ × AnswerOutcomeEvent)) :=
  log.zipIdx.map fun e => e.1.map fun o => (e.2, o)

/-- The hash of a numbered outcome. -/
def numberedRef (o : ℕ × AnswerOutcomeEvent) : String := o.2.ref

/-- The marked answers of a log that use a binding. -/
def markedUsing (log : List (LogEvent AnswerOutcomeEvent)) (binding : String) :
    List (Serving (ℕ × AnswerOutcomeEvent)) :=
  (markedOf (servings numberedRef (numbered log))).filter fun v => binding ∈ v.answer.bindings

variable (log : List (LogEvent AnswerOutcomeEvent))

theorem answersOf_numbered : answersOf (numbered log) = answersOf log := by
  have hgen : ∀ (l : List (LogEvent AnswerOutcomeEvent)) (n : ℕ),
      answersOf ((l.zipIdx n).map fun e => e.1.map fun o => (e.2, o)) = answersOf l := by
    intro l
    induction l with
    | nil => exact fun _ => rfl
    | cons e l ih =>
        intro n
        cases e with
        | served a => simpa [answersOf, LogEvent.map] using ih (n + 1)
        | outcome o => simpa [answersOf, LogEvent.map] using ih (n + 1)
        | other => simpa [answersOf, LogEvent.map] using ih (n + 1)
  exact hgen log 0

theorem outcomesOf_numbered (l : List (LogEvent AnswerOutcomeEvent)) (n : ℕ) :
    (outcomesOf ((l.zipIdx n).map fun e => e.1.map fun o => (e.2, o))).map (·.2) =
      outcomesOf l := by
  induction l generalizing n with
  | nil => rfl
  | cons e l ih =>
      cases e with
      | served a => simpa [outcomesOf, LogEvent.map] using ih (n + 1)
      | outcome o => simpa [outcomesOf, LogEvent.map] using ih (n + 1)
      | other => simpa [outcomesOf, LogEvent.map] using ih (n + 1)

theorem outcomesOf_numbered_le (l : List (LogEvent AnswerOutcomeEvent)) (n : ℕ) :
    ((outcomesOf ((l.zipIdx n).map fun e => e.1.map fun o => (e.2, o))).Pairwise
      fun o o' => o.1 < o'.1) ∧
    ∀ o ∈ outcomesOf ((l.zipIdx n).map fun e => e.1.map fun o => (e.2, o)), n ≤ o.1 := by
  induction l generalizing n with
  | nil => simp [outcomesOf]
  | cons e l ih =>
      obtain ⟨hpw, hle⟩ := ih (n + 1)
      have hle' : ∀ o ∈ outcomesOf ((l.zipIdx (n + 1)).map fun e =>
          e.1.map fun o => (e.2, o)), n ≤ o.1 := fun o ho => Nat.le_of_succ_le (hle o ho)
      cases e with
      | served a => exact ⟨hpw, hle'⟩
      | other => exact ⟨hpw, hle'⟩
      | outcome o =>
          refine ⟨List.pairwise_cons.mpr ⟨fun o' ho' => hle o' ho', hpw⟩, ?_⟩
          intro o' ho'
          rcases List.mem_cons.mp ho' with rfl | ho'
          · exact Nat.le_refl n
          · exact hle' o' ho'

theorem nodup_outcomesOf_numbered : (outcomesOf (numbered log)).Nodup :=
  (outcomesOf_numbered_le log 0).1.imp fun h => by
    intro heq
    simp [heq] at h

/-- The records of the code are those of the numbered log. -/
theorem joinOutcomes_numbered :
    joinOutcomes AnswerOutcomeEvent.ref (answersOf log) (outcomesOf log) =
      (joinOutcomes numberedRef (answersOf (numbered log)) (outcomesOf (numbered log))).map
        fun p => (p.1, p.2.2) := by
  have hout : outcomesOf log = (outcomesOf (numbered log)).map (·.2) :=
    (outcomesOf_numbered log 0).symm
  rw [joinOutcomes, joinOutcomes, latestOutcomeByRef, latestOutcomeByRef, hout,
    Dict.indexBy_map numberedRef (·.2) AnswerOutcomeEvent.ref (fun _ => rfl),
    answersOf_numbered, List.flatMap_map, List.map_flatMap]
  refine List.flatMap_congr fun p _ => ?_
  simp [Function.comp_def]

theorem recordsFor_fromLog (binding : String) :
    (BindingOutcomeHistory.fromLog log).recordsFor binding =
      ((joinOutcomes numberedRef (answersOf (numbered log)) (outcomesOf (numbered log))).filter
        fun p => p.1 = binding).map fun p => p.2.2.record p.1 := by
  rw [BindingOutcomeHistory.fromLog, BindingOutcomeHistory.fromEvents,
    BindingOutcomeHistory.recordsFor, BindingOutcomeHistory.ofRecords, Dict.getD_groupBy,
    joinOutcomes_numbered, List.map_map, List.filter_map]
  rfl

theorem filter_dedup_eq (bs : List String) (b : String) :
    (bs.dedup.filter fun b' => b' = b) = if b ∈ bs then [b] else [] := by
  have hcount : bs.dedup.count b = if b ∈ bs then 1 else 0 := List.count_dedup bs b
  have heq : (bs.dedup.filter fun b' => b' = b) = List.replicate (bs.dedup.count b) b := by
    simpa using List.filter_eq (l := bs.dedup) b
  rw [heq, hcount]
  by_cases hb : b ∈ bs
  · simp [hb]
  · simp [hb]

/-- A marked answer contributes its mark once to each binding it uses. -/
theorem filter_counted (vs : List (Serving (ℕ × AnswerOutcomeEvent))) (b : String) :
    ((vs.flatMap Serving.counted).filter fun p => p.1 = b).map (·.2) =
      ((markedOf vs).filter fun v => b ∈ v.answer.bindings).filterMap (·.mark) := by
  induction vs with
  | nil => rfl
  | cons v vs ih =>
      obtain ⟨a, mark⟩ := v
      rw [List.flatMap_cons, List.filter_append, List.map_append, ih]
      cases mark with
      | none => simp [Serving.counted, markedOf]
      | some o =>
          have hcounted : ((Serving.counted ⟨a, some o⟩).filter fun p => p.1 = b) =
              (a.bindings.dedup.filter fun b' => b' = b).map fun b' => (b', o) := by
            simp [Serving.counted, List.filter_map, Function.comp_def]
          rw [hcounted, filter_dedup_eq]
          by_cases hb : b ∈ a.bindings
          · simp [markedOf, hb]
          · simp [markedOf, hb]

/-- **Outcome attribution**: every outcome counts towards the bindings of the answer it was marked
on, once each, and a binding has as many records as there are marked answers using it. -/
structure OutcomesAttributed : Prop where
  /-- The records, each known by the place of its outcome in the log. -/
  records : (joinOutcomes numberedRef (answersOf (numbered log))
    (outcomesOf (numbered log))).Perm (attributed numberedRef (numbered log))
  counts : ∀ binding, ((BindingOutcomeHistory.fromLog log).recordsFor binding).length =
    (markedUsing log binding).length

/-- The records of a binding, when every outcome lands where it belongs. -/
theorem recordsFor_perm {log : List (LogEvent AnswerOutcomeEvent)}
    (h : (joinOutcomes numberedRef (answersOf (numbered log))
      (outcomesOf (numbered log))).Perm (attributed numberedRef (numbered log)))
    (b : String) :
    ((BindingOutcomeHistory.fromLog log).recordsFor b).Perm
      (((markedUsing log b).filterMap (·.mark)).map fun o => o.2.record b) := by
  have hfilter := h.filter fun p => decide (p.1 = b)
  rw [recordsFor_fromLog, markedUsing, ← filter_counted, List.map_map]
  refine (hfilter.map fun p => p.2.2.record p.1).trans ?_
  rw [attributed]
  refine List.Perm.of_eq (List.map_congr_left fun p hp => ?_)
  have hb : p.1 = b := by simpa using (List.mem_filter.mp hp).2
  simp [hb]

theorem length_markedUsing (b : String) :
    ((markedUsing log b).filterMap (·.mark)).length = (markedUsing log b).length := by
  refine List.length_filterMap_eq_countP .. |>.trans ?_
  rw [List.countP_eq_length]
  intro v hv
  exact (List.mem_filter.mp (List.mem_filter.mp hv).1).2

/-- What the gate of `outcome_evidence` counts, when every outcome lands where it belongs. -/
theorem wrongDefinitionCount_eq {log : List (LogEvent AnswerOutcomeEvent)}
    (h : OutcomesAttributed log) (recent : String → Bool) (b : String) :
    (BindingOutcomeHistory.fromLog log).wrongDefinitionCount recent b =
      (((markedUsing log b).filterMap (·.mark)).filter fun o =>
        o.2.reasonCode == some .wrongDefinition && recent o.2.ts).length := by
  rw [BindingOutcomeHistory.wrongDefinitionCount, BindingOutcomeHistory.wrongDefinitionRecords,
    ((recordsFor_perm h.records b).filter _).length_eq, List.filter_map, List.length_map]
  rfl

/-- When outcomes are attributed rightly: for every marked hash, the newest answer has the bindings
of the newest marked answer, each once, and the older marked answers have none. -/
theorem outcomesAttributed_iff : OutcomesAttributed log ↔
    ∀ o ∈ outcomesOf log, Attributable (servingsOf numberedRef o.ref (numbered log)) := by
  have hiff := joinOutcomes_perm_iff numberedRef (nodup_outcomesOf_numbered log)
  have hout : outcomesOf log = (outcomesOf (numbered log)).map (·.2) :=
    (outcomesOf_numbered log 0).symm
  constructor
  · intro h o ho
    rw [hout] at ho
    obtain ⟨o', ho', rfl⟩ := List.mem_map.mp ho
    exact hiff.mp h.records o' ho'
  · intro h
    have hperm := hiff.mpr fun o ho =>
      h o.2 (hout ▸ List.mem_map.mpr ⟨o, ho, rfl⟩)
    refine ⟨hperm, fun b => ?_⟩
    rw [(recordsFor_perm hperm b).length_eq, List.length_map, length_markedUsing]

end Numbered

/-! ### A definition that was corrected -/

/-- Revenue, served before and after its definition was changed from gross to net. -/
private def grossAnswer : AnswerEvent :=
  { queryHash := "sha256:7f", resolved := [("metrics", [("revenue", "orders.gross")])] }

private def netAnswer : AnswerEvent :=
  { grossAnswer with resolved := [("metrics", [("revenue", "orders.net")])] }

private theorem incorrect_reason (h : OutcomeVerdict.incorrect = .correct) :
    some OutcomeReasonCode.wrongDefinition = none := by cases h

private def grossMark : AnswerOutcomeEvent :=
  ⟨"2024-03-02T09:00:00+00:00", "sha256:7f", .incorrect, some .wrongDefinition, .analyst,
    incorrect_reason⟩

/-- The mark on the old definition is counted against the new one. -/
theorem outcomesAttributed_counterexample :
    ¬ ∀ log : List (LogEvent AnswerOutcomeEvent), OutcomesAttributed log := by
  intro h
  have hcount := (h [.served grossAnswer, .outcome grossMark, .served netAnswer]).counts
    "orders.net"
  exact absurd hcount (by decide +kernel)

end Canonic
