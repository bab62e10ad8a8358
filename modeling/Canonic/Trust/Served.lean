import Canonic.Core.DecomposePeriods
import Canonic.Trust.Scorer

set_option autoImplicit false

/-! # The trust of a served answer

`open_periods` of `trust/periods.py` and `trust_for_compiled` of `trust/scorer.py`: the signals of a
compiled query and of its rows, and the tier they come to.

`served_trusted_iff` lists all that has to be true of the metrics, the last harness run, the
outcomes, the sources and the rows for an answer to be called trusted. -/

namespace Canonic

open TimeFormat (Starts)

/-! ## Open periods -/

/-- A `TimeDimension` of a compiled query, with its grain and label form read. -/
structure ServedDimension where
  column : String
  grain : PeriodGrain
  timeFormat : Option TimeFormat := none

/-- `ProbeColumn` of a `latest_period` probe with its grain; no other probe carries a period. -/
structure PeriodProbe where
  subject : String
  grain : PeriodGrain
  timeFormat : Option TimeFormat := none

/-- `OpenPeriod`. -/
structure OpenPeriod where
  dimension : String
  grain : PeriodGrain
  start : Moment
  timeFormat : Option TimeFormat := none

/-- `OpenPeriod.label`. -/
def OpenPeriod.label (p : OpenPeriod) : String :=
  match p.timeFormat with
  | some f => f.render p.start
  | none =>
    match p.grain with
    | .hour => p.start.day.isoformat ++ " " ++ Date.padded 2 p.start.hour ++ ":00"
    | .month => Date.padded 4 p.start.day.year ++ "-" ++ Date.padded 2 p.start.day.month
    | .year => Date.padded 4 p.start.day.year
    | .quarter => s!"{p.start.day.year}-Q{(p.start.day.month - 1) / 3 + 1}"
    | .day => p.start.day.isoformat
    | .week => p.start.day.isoformat

/-- `OpenPeriod.warning`. -/
def OpenPeriod.warning (p : OpenPeriod) : String :=
  s!"{p.dimension}: the {p.grain.value} {p.label} has not ended, so its figures are incomplete"

/-- `OpenPeriod.reason`. -/
def OpenPeriod.reason (p : OpenPeriod) : String :=
  s!"{p.dimension}: {p.grain.value} {p.label} has not ended"

/-- A served result; every row has a cell for each column. -/
structure ServedResult where
  columns : List String
  rows : List (List PeriodValue)
  width : ∀ row ∈ rows, row.length = columns.length

/-- The cells of a column, if the result has it. -/
def ServedResult.cells (r : ServedResult) (column : String) : List PeriodValue :=
  if column ∈ r.columns then r.rows.map fun row => row.getD (r.columns.idxOf column) .null else []

/-- What `CompileResult` carries for the score. -/
structure ScoredQuery where
  trustInputs : List TrustInput
  freshness : List SourceFreshness := []
  finality : Option FinalityMetadata := none
  timeDimensions : List ServedDimension := []
  periodProbes : List PeriodProbe := []

/-- `max(starts)`: the first of the latest ones. -/
def latestStart : List Moment → Option Moment
  | [] => none
  | s :: starts =>
      match latestStart starts with
      | none => some s
      | some t => if s.instant < t.instant then some t else some s

/-- Whether a finality rule governs the query. -/
def ScoredQuery.hasFinality (q : ScoredQuery) : Bool := q.finality.isSome

section Code

-- `datetime.fromisoformat`: a moment and its offset; `none` is a `ValueError`
variable (fromisoformat : String → Option (Moment × Option Int))

/-- `_latest_open`. -/
def latestOpen (dim : ServedDimension) (result : ServedResult) (now : Moment) :
    Except Err (Option OpenPeriod) := do
  let starts ← (result.cells dim.column).mapM fun cell =>
    parsePeriodStart fromisoformat cell dim.grain dim.timeFormat
  match latestStart (starts.filterMap id) with
  | none => return none
  | some latest =>
      let stop ← periodEnd latest dim.grain
      if stop.instant ≤ now.instant then return none
      else return some ⟨dim.column, dim.grain, latest, dim.timeFormat⟩

/-- The period of a probe, when it has not ended. -/
def probedOpen (probes : String → PeriodValue) (now : Moment) (probe : PeriodProbe) :
    Except Err (Option OpenPeriod) := do
  match ← parsePeriodStart fromisoformat (probes probe.subject) probe.grain probe.timeFormat with
  | none => return none
  | some latest =>
      let start ← floorToGrain latest probe.grain
      let stop ← periodEnd start probe.grain
      if now.instant < stop.instant then
        return some ⟨probe.subject, probe.grain, start, probe.timeFormat⟩
      else return none

/-- `open_periods`; the clock is naive UTC. -/
def openPeriods (q : ScoredQuery) (result : Option ServedResult) (now : Option Moment)
    (probes : String → PeriodValue) : Except Err (List OpenPeriod) :=
  match result, now with
  | some r, some clock =>
      if q.hasFinality then .ok []
      else do
        let grouped ← q.timeDimensions.mapM fun dim => latestOpen fromisoformat dim r clock
        let probed ← q.periodProbes.mapM (probedOpen fromisoformat probes clock)
        return grouped.filterMap id ++ probed.filterMap id
  | _, _ => .ok []

/-- `open_period_signal`. -/
def openPeriodSignal (periods : List OpenPeriod) : SignalVerdict :=
  if periods.isEmpty then ⟨none, none⟩
  else ⟨some .provisional, some ("; ".intercalate (periods.map (·.reason)))⟩

/-- The provisional rows of a result under a finality rule; `truthy` is `bool(cell)`. -/
def provisionalRows (truthy : PeriodValue → Bool) (q : ScoredQuery)
    (result : Option ServedResult) : Option Nat :=
  match result with
  | some r =>
      if q.hasFinality ∧ "is_final" ∈ r.columns then
        some ((r.cells "is_final").countP fun cell => !truthy cell)
      else none
  | none => none

/-- The signals of an answer besides the outcomes. -/
def servedSignals (truthy : PeriodValue → Bool) (q : ScoredQuery) (result : Option ServedResult)
    (assertions : Option AssertionHistory) (periods : List OpenPeriod) : List SignalVerdict :=
  staticSignalsFor q.trustInputs assertions ++
    [finalitySignal (provisionalRows truthy q result), freshnessSignal q.freshness,
      openPeriodSignal periods]

/-- `trust_for_compiled`. -/
def trustForCompiled (truthy : PeriodValue → Bool) (q : ScoredQuery)
    (result : Option ServedResult) (outcomes : Option BindingOutcomeHistory)
    (recent : String → Bool) (assertions : Option AssertionHistory) (now : Option Moment)
    (probes : String → PeriodValue) : Except Err TrustScore := do
  let periods ← openPeriods fromisoformat q result now probes
  let signals := servedSignals truthy q result assertions periods
  return TrustScorer.score (signals ++ match outcomes with
    | none => []
    | some h => q.trustInputs.map fun t => outcomeSignal t h recent)

end Code

/-! ## When an answer is trusted -/

/-- The period of a moment is over. -/
def HasEnded (g : PeriodGrain) (m now : Moment) : Prop :=
  periodStart g (periodNumber g m + 1) ≤ now.instant

/-- The periods of earlier moments are over earlier. -/
theorem HasEnded.of_le {g : PeriodGrain} {m m' now : Moment} (hm : m.Valid) (hm' : m'.Valid)
    (hle : m.instant ≤ m'.instant) (h : HasEnded g m' now) : HasEnded g m now := by
  have hnumber : periodNumber g m ≤ periodNumber g m' := by
    have hlow := (periodNumber_spec g hm).1
    have hhigh := (periodNumber_spec g hm').2
    by_contra hlt
    have := (periodStart_le_iff g).mpr (show periodNumber g m' + 1 ≤ periodNumber g m by omega)
    omega
  have hstart := (periodStart_le_iff g).mpr (show periodNumber g m + 1 ≤ periodNumber g m' + 1 by
    omega)
  exact hstart.trans h

/-- `period_end` of a start is the end of its period. -/
theorem hasEnded_iff {g : PeriodGrain} {s stop now : Moment} (hs : Starts g s)
    (h : periodEnd s g = .ok stop) : HasEnded g s now ↔ stop.instant ≤ now.instant := by
  obtain ⟨-, hstart⟩ := floorToGrain_eq_ok hs.valid hs.floor
  obtain ⟨-, hstop⟩ := periodEnd_eq_ok hs.valid hstart h
  rw [HasEnded, hstop]

/-- The start of a period is in it. -/
theorem hasEnded_floor {g : PeriodGrain} {m s stop now : Moment} (hm : m.Valid)
    (hs : floorToGrain m g = .ok s) (h : periodEnd s g = .ok stop) :
    HasEnded g m now ↔ stop.instant ≤ now.instant := by
  obtain ⟨hvalid, hstart⟩ := floorToGrain_eq_ok hm hs
  obtain ⟨-, hstop⟩ := periodEnd_eq_ok hvalid hstart h
  rw [HasEnded, hstop]

theorem latestStart_eq_none {starts : List Moment} : latestStart starts = none ↔ starts = [] := by
  cases starts with
  | nil => simp [latestStart]
  | cons s starts =>
      simp only [latestStart, reduceCtorEq, iff_false]
      cases latestStart starts with
      | none => simp
      | some t => by_cases h : s.instant < t.instant <;> simp [h]

theorem latestStart_eq_some {starts : List Moment} {latest : Moment}
    (h : latestStart starts = some latest) :
    latest ∈ starts ∧ ∀ s ∈ starts, s.instant ≤ latest.instant := by
  induction starts generalizing latest with
  | nil => cases h
  | cons s starts ih =>
      rw [latestStart] at h
      cases ht : latestStart starts with
      | none =>
          obtain rfl := latestStart_eq_none.mp ht
          rw [ht] at h
          obtain rfl := Option.some.inj h
          simp
      | some t =>
          obtain ⟨hmem, hmax⟩ := ih ht
          rw [ht] at h
          dsimp only at h
          by_cases hlt : s.instant < t.instant
          · rw [if_pos hlt] at h
            obtain rfl := Option.some.inj h
            exact ⟨List.mem_cons_of_mem s hmem, List.forall_mem_cons.mpr ⟨hlt.le, hmax⟩⟩
          · rw [if_neg hlt] at h
            obtain rfl := Option.some.inj h
            refine ⟨List.mem_cons_self, List.forall_mem_cons.mpr ⟨le_rfl, fun s' hs' => ?_⟩⟩
            exact (hmax s' hs').trans (not_lt.mp hlt)

section Periods

variable {fromisoformat : String → Option (Moment × Option Int)}

/-- A grouped dimension is quiet when the period of every cell it can read is over. -/
theorem latestOpen_eq_none {dim : ServedDimension} {r : ServedResult} {now : Moment}
    {found : Option OpenPeriod}
    (hstarts : ∀ cell ∈ r.cells dim.column, ∀ s,
      parsePeriodStart fromisoformat cell dim.grain dim.timeFormat = .ok (some s) →
        Starts dim.grain s)
    (h : latestOpen fromisoformat dim r now = .ok found) :
    found = none ↔ ∀ cell ∈ r.cells dim.column, ∀ s,
      parsePeriodStart fromisoformat cell dim.grain dim.timeFormat = .ok (some s) →
        HasEnded dim.grain s now := by
  obtain ⟨starts, hread, h⟩ := bind_eq_ok.mp h
  have hread := mapM_eq_ok.mp hread
  -- the starts that were read are the starts of the cells
  have hmem : ∀ s, s ∈ starts.filterMap id ↔ ∃ cell ∈ r.cells dim.column,
      parsePeriodStart fromisoformat cell dim.grain dim.timeFormat = .ok (some s) := by
    intro s
    rw [List.mem_filterMap]
    constructor
    · rintro ⟨o, ho, hs⟩
      obtain ⟨cell, hcell, hcellread⟩ := forall₂_mem_right hread ho
      exact ⟨cell, hcell, hcellread.trans (congrArg _ hs)⟩
    · rintro ⟨cell, hcell, hs⟩
      obtain ⟨o, ho, hcellread⟩ := forall₂_mem_left hread hcell
      exact ⟨o, ho, Except.ok.inj (hcellread.symm.trans hs)⟩
  cases hlatest : latestStart (starts.filterMap id) with
  | none =>
      rw [hlatest] at h
      obtain rfl := Except.ok.inj h
      refine ⟨fun _ cell hcell s hs => ?_, fun _ => rfl⟩
      have hread := (hmem s).mpr ⟨cell, hcell, hs⟩
      rw [latestStart_eq_none.mp hlatest] at hread
      exact absurd hread List.not_mem_nil
  | some latest =>
      rw [hlatest] at h
      obtain ⟨stop, hstop, h⟩ := bind_eq_ok.mp h
      obtain ⟨hmember, hmax⟩ := latestStart_eq_some hlatest
      obtain ⟨cell, hcell, hs⟩ := (hmem latest).mp hmember
      have hlateststarts := hstarts cell hcell latest hs
      have hended : HasEnded dim.grain latest now ↔ stop.instant ≤ now.instant :=
        hasEnded_iff hlateststarts hstop
      by_cases hle : stop.instant ≤ now.instant
      · rw [if_pos hle] at h
        obtain rfl := Except.ok.inj h
        refine ⟨fun _ cell' hcell' s' hs' => ?_, fun _ => rfl⟩
        -- no start is later than the latest one
        have hbefore : s'.instant ≤ latest.instant :=
          hmax s' ((hmem s').mpr ⟨cell', hcell', hs'⟩)
        exact (hended.mpr hle).of_le (hstarts cell' hcell' s' hs').valid hlateststarts.valid hbefore
      · rw [if_neg hle] at h
        obtain rfl := Except.ok.inj h
        refine ⟨fun hnone => (by cases hnone), fun hall => ?_⟩
        exact absurd (hended.mp (hall cell hcell latest hs)) hle

/-- A probe is quiet when the period of the value it read is over. -/
theorem probedOpen_eq_none {probe : PeriodProbe} {probes : String → PeriodValue} {now : Moment}
    {found : Option OpenPeriod}
    (hvalid : ∀ m, parsePeriodStart fromisoformat (probes probe.subject) probe.grain
      probe.timeFormat = .ok (some m) → m.Valid)
    (h : probedOpen fromisoformat probes now probe = .ok found) :
    found = none ↔ ∀ m, parsePeriodStart fromisoformat (probes probe.subject) probe.grain
      probe.timeFormat = .ok (some m) → HasEnded probe.grain m now := by
  obtain ⟨read, hread, h⟩ := bind_eq_ok.mp h
  rw [hread] at hvalid ⊢
  cases read with
  | none =>
      obtain rfl := Except.ok.inj h
      exact ⟨fun _ m hm => (by cases hm), fun _ => rfl⟩
  | some latest =>
      obtain ⟨start, hstart, h⟩ := bind_eq_ok.mp h
      obtain ⟨stop, hstop, h⟩ := bind_eq_ok.mp h
      have hended : HasEnded probe.grain latest now ↔ stop.instant ≤ now.instant :=
        hasEnded_floor (hvalid latest rfl) hstart hstop
      by_cases hlt : now.instant < stop.instant
      · rw [if_pos hlt] at h
        obtain rfl := Except.ok.inj h
        refine ⟨fun hnone => (by cases hnone), fun hall => ?_⟩
        exact absurd (hended.mp (hall latest rfl)) (not_le.mpr hlt)
      · rw [if_neg hlt] at h
        obtain rfl := Except.ok.inj h
        refine ⟨fun _ m hm => ?_, fun _ => rfl⟩
        obtain rfl := Option.some.inj (Except.ok.inj hm)
        exact hended.mpr (not_lt.mp hlt)

variable (fromisoformat) in
/-- Every period an answer shows or filters on is over, as far as its cells can be read. -/
structure PeriodsEnded (q : ScoredQuery) (r : ServedResult) (probes : String → PeriodValue)
    (now : Moment) : Prop where
  grouped : ∀ dim ∈ q.timeDimensions, ∀ cell ∈ r.cells dim.column, ∀ s,
    parsePeriodStart fromisoformat cell dim.grain dim.timeFormat = .ok (some s) →
      HasEnded dim.grain s now
  probed : ∀ probe ∈ q.periodProbes, ∀ m,
    parsePeriodStart fromisoformat (probes probe.subject) probe.grain probe.timeFormat =
      .ok (some m) → HasEnded probe.grain m now

variable (fromisoformat) in
/-- The cells of time dimensions are starts of their periods. A dimension with a declared grain over
a plain column shows the column as it is, so this is for the data to keep. -/
structure Bucketed (q : ScoredQuery) (r : ServedResult) (probes : String → PeriodValue) :
    Prop where
  starts : ∀ dim ∈ q.timeDimensions, ∀ cell ∈ r.cells dim.column, ∀ s,
    parsePeriodStart fromisoformat cell dim.grain dim.timeFormat = .ok (some s) →
      Starts dim.grain s
  valid : ∀ probe ∈ q.periodProbes, ∀ m,
    parsePeriodStart fromisoformat (probes probe.subject) probe.grain probe.timeFormat =
      .ok (some m) → m.Valid

/-- Found values are all absent exactly when none was found. -/
theorem filterMap_id_eq_nil {α : Type} {found : List (Option α)} :
    found.filterMap id = [] ↔ ∀ o ∈ found, o = none := by
  simp [List.filterMap_eq_nil_iff]

/-- Without a finality rule, no period is reported open exactly when all are over. -/
theorem openPeriods_eq_nil {q : ScoredQuery} {r : ServedResult} {now : Moment}
    {probes : String → PeriodValue} {periods : List OpenPeriod}
    (hbuckets : Bucketed fromisoformat q r probes)
    (hfinality : q.hasFinality = false)
    (h : openPeriods fromisoformat q (some r) (some now) probes = .ok periods) :
    periods = [] ↔ PeriodsEnded fromisoformat q r probes now := by
  simp only [openPeriods, hfinality, Bool.false_eq_true, if_false] at h
  obtain ⟨grouped, hgrouped, h⟩ := bind_eq_ok.mp h
  obtain ⟨probed, hprobed, h⟩ := bind_eq_ok.mp h
  obtain rfl := Except.ok.inj h
  have hgrouped := mapM_eq_ok.mp hgrouped
  have hprobed := mapM_eq_ok.mp hprobed
  rw [List.append_eq_nil_iff, filterMap_id_eq_nil, filterMap_id_eq_nil]
  constructor
  · rintro ⟨hg, hp⟩
    refine ⟨fun dim hdim => ?_, fun probe hprobe => ?_⟩
    · obtain ⟨o, ho, hopen⟩ := forall₂_mem_left hgrouped hdim
      exact (latestOpen_eq_none (hbuckets.starts dim hdim) hopen).mp (hg o ho)
    · obtain ⟨o, ho, hopen⟩ := forall₂_mem_left hprobed hprobe
      exact (probedOpen_eq_none (hbuckets.valid probe hprobe) hopen).mp (hp o ho)
  · intro hended
    refine ⟨fun o ho => ?_, fun o ho => ?_⟩
    · obtain ⟨dim, hdim, hopen⟩ := forall₂_mem_right hgrouped ho
      exact (latestOpen_eq_none (hbuckets.starts dim hdim) hopen).mpr (hended.grouped dim hdim)
    · obtain ⟨probe, hprobe, hopen⟩ := forall₂_mem_right hprobed ho
      exact (probedOpen_eq_none (hbuckets.valid probe hprobe) hopen).mpr
        (hended.probed probe hprobe)

end Periods

/-! ## The tier of an answer -/

theorem openPeriodSignal_allows {periods : List OpenPeriod} :
    (openPeriodSignal periods).Allows ↔ periods = [] := by
  cases periods with
  | nil => simpa [openPeriodSignal] using allows_none none
  | cons p ps => simpa [openPeriodSignal] using not_allows (by decide) _

/-- The rows under a finality rule are all final. -/
def RowsFinal (truthy : PeriodValue → Bool) (q : ScoredQuery) (r : ServedResult) : Prop :=
  q.hasFinality = true → ∀ cell ∈ r.cells "is_final", truthy cell = true

theorem provisionalRows_eq_zero {truthy : PeriodValue → Bool} {q : ScoredQuery}
    {r : ServedResult} : (provisionalRows truthy q (some r)).getD 0 = 0 ↔
      RowsFinal truthy q r := by
  unfold provisionalRows RowsFinal
  dsimp only
  by_cases hc : "is_final" ∈ r.columns
  · cases hf : q.hasFinality with
    | true => simp [hc, List.countP_eq_zero]
    | false => simp
  · simp [ServedResult.cells, hc]

/-- The metrics of an answer are curated, and the last harness run verified each binding: some
assertion covers it and every one that does passed. -/
structure Verified (inputs : List TrustInput) (outcomes : List AssertionOutcome) : Prop where
  curated : ∀ t ∈ inputs, t.provenance ≠ Provenance.inferred.value
  asserted : ∀ t ∈ inputs, t.hasAssertion = true
  passed : ∀ t ∈ inputs, ∃ b, t.binding = some b ∧ b ≠ "" ∧
    (∃ o ∈ outcomes, b ∈ o.bindings) ∧ ∀ o ∈ outcomes, b ∈ o.bindings → o.passed = true

/-- What the record of a binding says after a harness run. -/
theorem recordOf_passed {py : PyLib} {now : String} {outcomes : List AssertionOutcome}
    {t : TrustInput} :
    (∃ r, recordOf t (some (AssertionHistory.fromProject py
      (some (writeAssertionResults now outcomes)))) = some r ∧ r.passed = true) ↔
      ∃ b, t.binding = some b ∧ b ≠ "" ∧ (∃ o ∈ outcomes, b ∈ o.bindings) ∧
        ∀ o ∈ outcomes, b ∈ o.bindings → o.passed = true := by
  unfold recordOf
  cases t.binding with
  | none => simp
  | some b =>
      by_cases hb : b = ""
      · simp [hb]
      · simp only [statusFor_fromProject, Option.some.injEq, exists_eq_left', ne_eq, hb,
          not_false_eq_true, true_and]
        constructor
        · rintro ⟨r, hr, hpassed⟩
          obtain ⟨-, o, ho, hmem, -⟩ := harnessVerdict_names hr
          exact ⟨⟨o, ho, hmem⟩, (harnessVerdict_passed hr).mp hpassed⟩
        · rintro ⟨⟨o, ho, hmem⟩, hall⟩
          cases hr : harnessVerdict now b outcomes with
          | none => exact absurd hmem (harnessVerdict_eq_none.mp hr o ho)
          | some r => exact ⟨r, rfl, (harnessVerdict_passed hr).mpr hall⟩

theorem staticSignals_allow {inputs : List TrustInput} {py : PyLib} {now : String}
    {outcomes : List AssertionOutcome} :
    (∀ v ∈ staticSignalsFor inputs (some (AssertionHistory.fromProject py
      (some (writeAssertionResults now outcomes)))), v.Allows) ↔ Verified inputs outcomes := by
  have hone : ∀ t : TrustInput, (∀ v ∈ [provenanceSignal t, assertionSignal t
      (some (AssertionHistory.fromProject py (some (writeAssertionResults now outcomes))))],
        v.Allows) ↔ t.provenance ≠ Provenance.inferred.value ∧ t.hasAssertion = true ∧
          ∃ b, t.binding = some b ∧ b ≠ "" ∧ (∃ o ∈ outcomes, b ∈ o.bindings) ∧
            ∀ o ∈ outcomes, b ∈ o.bindings → o.passed = true := by
    intro t
    rw [List.forall_mem_cons, List.forall_mem_singleton, provenanceSignal_allows,
      assertionSignal_allows, recordOf_passed]
  unfold staticSignalsFor
  rw [List.forall_mem_flatMap]
  constructor
  · intro hall
    exact ⟨fun t ht => ((hone t).mp (hall t ht)).1, fun t ht => ((hone t).mp (hall t ht)).2.1,
      fun t ht => ((hone t).mp (hall t ht)).2.2⟩
  · intro hv t ht
    exact (hone t).mpr ⟨hv.curated t ht, hv.asserted t ht, hv.passed t ht⟩

/-- An answer served after any sequence of harness runs is called trusted exactly when its metrics
are curated and verified by the last run, its rows are final, no source is stale, the periods it
shows or filters on are over unless a finality rule governs them, and no binding carries a recent
confirmed-wrong definition. -/
theorem served_trusted_iff {fromisoformat : String → Option (Moment × Option Int)} (py : PyLib)
    (truthy : PeriodValue → Bool) (q : ScoredQuery) (r : ServedResult)
    (h : BindingOutcomeHistory) (recent : String → Bool) (file : Option Json)
    (runs : List (String × List AssertionOutcome)) (ts : String)
    (outcomes : List AssertionOutcome) (now : Moment) (probes : String → PeriodValue)
    {score : TrustScore} (hbuckets : Bucketed fromisoformat q r probes)
    (hscore : trustForCompiled fromisoformat truthy q (some r) (some h) recent
      (some (AssertionHistory.fromProject py (fileAfterRuns file (runs ++ [(ts, outcomes)]))))
      (some now) probes = .ok score) :
    score.tier = .trusted ↔
      Verified q.trustInputs outcomes ∧ RowsFinal truthy q r ∧
        (∀ f ∈ q.freshness, f.stale = false) ∧
        (q.hasFinality = false →
          PeriodsEnded fromisoformat q r probes now) ∧
        ∀ t ∈ q.trustInputs, ∀ b, t.binding = some b → h.isCapped recent b = false := by
  rw [fileAfterRuns_concat] at hscore
  obtain ⟨periods, hperiods, hscore⟩ := bind_eq_ok.mp hscore
  obtain rfl := Except.ok.inj hscore
  have hopen : periods = [] ↔ (q.hasFinality = false →
      PeriodsEnded fromisoformat q r probes now) := by
    cases hf : q.hasFinality with
    | true =>
        simp only [openPeriods, hf, if_true] at hperiods
        obtain rfl := Except.ok.inj hperiods
        simp
    | false =>
        rw [openPeriods_eq_nil hbuckets hf hperiods]
        simp
  rw [score_trusted_iff, servedSignals, List.forall_mem_append, List.forall_mem_append,
    staticSignals_allow, List.forall_mem_cons, List.forall_mem_cons, List.forall_mem_singleton,
    finalitySignal_allows, provisionalRows_eq_zero, freshnessSignal_allows, openPeriodSignal_allows,
    hopen, List.forall_mem_map]
  simp only [outcomeSignal_allows, and_assoc]

/-! ### Parcels of a past day -/

/-- The parcels of 5 January, counted by day. -/
private def parcelDays : ScoredQuery where
  trustInputs := [{
    metric := "parcels"
    provenance := "human_curated"
    hasAssertion := true
    binding := some "shipments.parcels" }]
  timeDimensions := [{ column := "day", grain := .day }]

private def parcelRows : ServedResult where
  columns := ["day", "parcels"]
  rows := [[.date ⟨2026, 1, 5⟩, .int 7]]
  width := by decide

/-- A run whose two assertions cover the binding, after one in which it failed. -/
private def parcelRuns : List (String × List AssertionOutcome) :=
  [("t1", [{ assertionId := "a1", passed := false, bindings := ["shipments.parcels"] }])]

private def parcelOutcomes : List AssertionOutcome :=
  [{ assertionId := "a1", passed := true, bindings := ["shipments.parcels"] },
    { assertionId := "a2", passed := true, bindings := ["shipments.parcels"] }]

theorem served_trusted_iff_parcels :
    ∃ score, trustForCompiled (fun _ => none) (fun _ => true) parcelDays (some parcelRows)
      (some []) (fun _ => true) (some (AssertionHistory.fromProject .plain
        (fileAfterRuns none (parcelRuns ++ [("t2", parcelOutcomes)]))))
      (some ⟨⟨2026, 1, 6⟩, 0, 0, 0, 0⟩) (fun _ => .null) = .ok score ∧ score.tier = .trusted := by
  have hread : ∀ s, parsePeriodStart (fun _ => none) (.date ⟨2026, 1, 5⟩) .day none =
      .ok (some s) → s = ⟨⟨2026, 1, 5⟩, 0, 0, 0, 0⟩ := fun s hs =>
    (Option.some.inj (Except.ok.inj hs)).symm
  have hcells : parcelRows.cells "day" = [.date ⟨2026, 1, 5⟩] := by decide
  have hbuckets : Bucketed (fun _ => none) parcelDays parcelRows
      (fun _ => .null) := by
    refine ⟨?_, fun _ h => absurd h List.not_mem_nil⟩
    intro dim hdim cell hcell s hs
    obtain rfl := List.mem_singleton.mp hdim
    rw [hcells] at hcell
    obtain rfl := List.mem_singleton.mp hcell
    obtain rfl := hread s hs
    exact ⟨by decide, rfl⟩
  have hscore : ∃ score, trustForCompiled (fun _ => none) (fun _ => true) parcelDays
      (some parcelRows) (some []) (fun _ => true) (some (AssertionHistory.fromProject .plain
        (fileAfterRuns none (parcelRuns ++ [("t2", parcelOutcomes)]))))
      (some ⟨⟨2026, 1, 6⟩, 0, 0, 0, 0⟩) (fun _ => .null) = .ok score := ⟨_, rfl⟩
  obtain ⟨score, hscore⟩ := hscore
  refine ⟨score, hscore, (served_trusted_iff .plain _ _ _ _ _ _ _ _ _ _ _ hbuckets hscore).mpr
    ⟨⟨by decide, by decide, ?_⟩, ?_, ?_, ?_, ?_⟩⟩
  · intro t ht
    obtain rfl := List.mem_singleton.mp ht
    exact ⟨"shipments.parcels", rfl, by decide, by decide, by decide⟩
  · intro h
    cases h
  · exact fun _ h => absurd h List.not_mem_nil
  · refine fun _ => ⟨?_, fun _ h => absurd h List.not_mem_nil⟩
    intro dim hdim cell hcell s hs
    obtain rfl := List.mem_singleton.mp hdim
    rw [hcells] at hcell
    obtain rfl := List.mem_singleton.mp hcell
    obtain rfl := hread s hs
    show periodStart .day _ ≤ _
    decide
  · intro t ht b hb
    rfl

end Canonic
