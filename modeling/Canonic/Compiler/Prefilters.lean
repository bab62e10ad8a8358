import Mathlib
import Canonic.Semantic.Calendar
import Canonic.Compiler.Calls

set_option autoImplicit false

/-! # The prefilters of offset metrics

A range on a shifted column is evaluated on the stored date moved forward by every offset of the
chain. Each offset also puts bounds on the stored date, from the range and its own length alone.
They drop no row that the range admits when, for every offset, the others add up to at most the
three days of the margin; otherwise they drop one. -/

namespace Canonic

/-! ## Bounds -/

/-- A range of days, open where a bound is missing. -/
structure DayRange where
  start : Option Date := none
  stop : Option Date := none

namespace DayRange

def Admits (r : DayRange) (d : Date) : Prop := (∀ s ∈ r.start, s ≤ d) ∧ ∀ e ∈ r.stop, d < e

structure Valid (r : DayRange) : Prop where
  start : ∀ s ∈ r.start, s.Valid
  stop : ∀ e ∈ r.stop, e.Valid

end DayRange

/-- The days of a time range. -/
def TimeRange.dayRange (r : TimeRange) : DayRange := ⟨r.days.1, r.days.2⟩

/-- The bounds that the prefilters of one offset put on the stored date. -/
def prefilterBounds (r : DayRange) (o : Duration) : Except Err DayRange := do
  let start ← movedBound o (-3) r.start
  let stop ← movedBound o 3 r.stop
  return ⟨start, stop⟩

/-- The stored date moved forward by the offsets of a chain, in the order they are applied. -/
def moveAll (os : List Duration) (d : Date) : Except Err Date :=
  os.foldlM (fun d o => addToDate d o 1) d

/-- The prefilters of a chain let every row through that the range admits. -/
def Redundant (os : List Duration) : Prop :=
  ∀ (r : DayRange) (d m : Date) (bounds : List DayRange), r.Valid → d.Valid →
    moveAll os d = .ok m → r.Admits m → os.mapM (prefilterBounds r) = .ok bounds →
      ∀ b ∈ bounds, b.Admits d

/-- For every offset of a chain, the others add up to at most three days. -/
def Close (os : List Duration) : Prop :=
  ∀ front o back, os = front ++ o :: back → ((front ++ back).map Duration.minDays).sum ≤ 3

/-- What a planned query writes the bounds as. -/
theorem prefilters_eq_ok {ctx : LeafContext} {timeDimension owner : String} {o : Duration}
    {texts : List String} (h : prefilters ctx timeDimension o owner = .ok texts) :
    texts = [] ∨ ∃ r b, ctx.query.timeRange = some r ∧ prefilterBounds r.dayRange o = .ok b ∧
      texts = boundTexts r.dimension b.start b.stop := by
  unfold prefilters at h
  split at h
  next => exact .inl (Except.ok.inj h).symm
  next r hr =>
    simp only [bind_eq_ok] at h
    obtain ⟨on, -, shifted, -, h⟩ := h
    split at h
    · exact .inl (pure_eq_ok.mp h).symm
    · simp only [bind_eq_ok, pure_eq_ok] at h
      obtain ⟨start, hstart, stop, hstop, rfl⟩ := h
      refine .inr ⟨r, ⟨start, stop⟩, hr, ?_, rfl⟩
      simp only [prefilterBounds, TimeRange.dayRange, hstart, hstop, ok_bind]
      rfl

/-- An offset of a leaf has no prefilters, or those of its own bounds. -/
def TimeShift.Bounded (range : Option TimeRange) (s : TimeShift) : Prop :=
  s.prefilters = [] ∨ ∃ r b, range = some r ∧ prefilterBounds r.dayRange s.offset = .ok b ∧
    s.prefilters = boundTexts r.dimension b.start b.stop

/-! ## Moving by a chain -/

theorem moveAll_cons_eq_ok {o : Duration} {os : List Duration} {d m : Date} :
    moveAll (o :: os) d = .ok m ↔ ∃ x, addToDate d o 1 = .ok x ∧ moveAll os x = .ok m :=
  foldlM_cons_eq_ok

theorem moveAll_append_eq_ok {os os' : List Duration} {d m : Date} :
    moveAll (os ++ os') d = .ok m ↔ ∃ x, moveAll os d = .ok x ∧ moveAll os' x = .ok m := by
  rw [moveAll, List.foldlM_append, bind_eq_ok]
  rfl

theorem moveAll_spec {os : List Duration} {d m : Date} (hd : d.Valid)
    (h : moveAll os d = .ok m) :
    m.Valid ∧ d.toOrdinal + (os.map Duration.minDays).sum ≤ m.toOrdinal := by
  induction os generalizing d with
  | nil =>
      obtain rfl : d = m := pure_eq_ok.mp h
      exact ⟨hd, by simp⟩
  | cons o os ih =>
      obtain ⟨x, hx, h⟩ := moveAll_cons_eq_ok.mp h
      obtain ⟨hvalid, hmoves, -⟩ := addToDate_eq_ok hd hx
      obtain ⟨hm, hle⟩ := ih hvalid h
      have hstep := hmoves.minDays_le hd hvalid
      refine ⟨hm, ?_⟩
      rw [List.map_cons, List.sum_cons]
      omega

/-- A chain of short offsets moves by exactly their days. -/
theorem moveAll_days {os : List Duration} {d m : Date} (hd : d.Valid)
    (h : moveAll os d = .ok m) (hshort : (os.map Duration.minDays).sum ≤ 3) :
    m.toOrdinal = d.toOrdinal + (os.map Duration.minDays).sum := by
  induction os generalizing d with
  | nil =>
      obtain rfl : d = m := pure_eq_ok.mp h
      simp
  | cons o os ih =>
      obtain ⟨x, hx, h⟩ := moveAll_cons_eq_ok.mp h
      obtain ⟨hvalid, hmoves, -⟩ := addToDate_eq_ok hd hx
      rw [List.map_cons, List.sum_cons] at hshort ⊢
      rw [ih hvalid h (by omega)]
      cases hmoves with
      | months k hk =>
          have hk1 := Duration.months_pos hk
          have : o.minDays = 28 * k := by rw [Duration.minDays, hk]
          omega
      | days n hm hn hord =>
          have : o.minDays = n := by rw [Duration.minDays, hm, hn]; rfl
          push_cast
          omega

/-- Where one offset of a chain begins and ends. -/
theorem moveAll_pivot {front back : List Duration} {o : Duration} {d m : Date} (hd : d.Valid)
    (h : moveAll (front ++ o :: back) d = .ok m) :
    ∃ x y, moveAll front d = .ok x ∧ moveAll back y = .ok m ∧ x.Valid ∧ y.Valid ∧
      Moves x o 1 y ∧ m.Valid ∧ d.toOrdinal + (front.map Duration.minDays).sum ≤ x.toOrdinal ∧
      y.toOrdinal + (back.map Duration.minDays).sum ≤ m.toOrdinal ∧ y.year ≤ 9999 := by
  obtain ⟨x, hx, h⟩ := moveAll_append_eq_ok.mp h
  obtain ⟨y, hy, h⟩ := moveAll_cons_eq_ok.mp h
  obtain ⟨hxv, hdx⟩ := moveAll_spec hd hx
  obtain ⟨hyv, hmoves, -, hyear⟩ := addToDate_eq_ok hxv hy
  obtain ⟨hmv, hym⟩ := moveAll_spec hyv h
  exact ⟨x, y, hx, h, hxv, hyv, hmoves, hmv, hdx, hym, hyear⟩

theorem moveAll_year {os : List Duration} {d m : Date} (hd : d.Valid) (hyear : d.year ≤ 9999)
    (h : moveAll os d = .ok m) : m.year ≤ 9999 := by
  induction os generalizing d with
  | nil =>
      obtain rfl : d = m := pure_eq_ok.mp h
      exact hyear
  | cons o os ih =>
      obtain ⟨x, hx, h⟩ := moveAll_cons_eq_ok.mp h
      obtain ⟨hvalid, -, -, hyear'⟩ := addToDate_eq_ok hd hx
      exact ih hvalid hyear' h

/-! ## Close chains -/

theorem movedBound_eq_ok {o : Duration} {margin : Int} {s : Option Date} {t : Option Date}
    (h : movedBound o margin s = .ok t) (hs : ∀ d ∈ s, d.Valid) :
    ∀ b ∈ t, ∃ d z, s = some d ∧ z.Valid ∧ Moves d o (-1) z ∧ b.Valid ∧
      b.toOrdinal = z.toOrdinal + margin := by
  intro b hb
  cases s with
  | none =>
      obtain rfl : none = t := Except.ok.inj h
      simp at hb
  | some d =>
      simp only [movedBound, bind_eq_ok, pure_eq_ok] at h
      obtain ⟨z, hz, b', hb', rfl⟩ := h
      obtain rfl : b' = b := Option.some.inj hb
      obtain ⟨hzv, hmoves, -⟩ := addToDate_eq_ok (hs d rfl) hz
      obtain ⟨hbv, hord, -⟩ := Date.addDays_eq_ok hb'
      exact ⟨d, z, rfl, hzv, hmoves, hbv, hord⟩

/-- In a close chain of several offsets each one is short. -/
theorem Close.minDays_le {front back : List Duration} {o : Duration}
    (h : Close (front ++ o :: back)) (hne : front ++ back ≠ []) : o.minDays ≤ 3 := by
  cases front with
  | cons f front =>
      have := h [] f (front ++ o :: back) rfl
      simp only [List.nil_append, List.map_append, List.map_cons, List.sum_append,
        List.sum_cons] at this
      omega
  | nil =>
      cases back with
      | nil => simp at hne
      | cons b back =>
          have := h [o] b back rfl
          simp only [List.map_append, List.map_cons, List.map_nil, List.sum_append, List.sum_cons,
            List.sum_nil] at this
          omega

/-- A move by at most three days is by that many days. -/
theorem Moves.eq_of_short {x y : Date} {o : Duration} {sign : Int} (h : Moves x o sign y)
    (hshort : o.minDays ≤ 3) : y.toOrdinal = x.toOrdinal + sign * o.minDays := by
  cases h with
  | months k hk =>
      have hk1 := Duration.months_pos hk
      have : o.minDays = 28 * k := by rw [Duration.minDays, hk]
      omega
  | days n hm hn hord =>
      have : o.minDays = n := by rw [Duration.minDays, hm, hn]; rfl
      rw [hord, this]

/-- **The prefilters of a close chain drop nothing that the range admits.** -/
theorem redundant_of_close {os : List Duration} (hclose : Close os) : Redundant os := by
  intro r d m bounds hr hd hm hadmits hbounds b hb
  obtain ⟨o, ho, hob⟩ := forall₂_mem_right (mapM_eq_ok.mp hbounds) hb
  obtain ⟨front, back, rfl⟩ := List.append_of_mem ho
  simp only [prefilterBounds, bind_eq_ok, pure_eq_ok] at hob
  obtain ⟨start, hstart, stop, hstop, rfl⟩ := hob
  obtain ⟨x, y, hx, hback, hxv, hyv, hmoves, hmv, -⟩ := moveAll_pivot hd hm
  -- what the other offsets of the chain move stays within the margin
  have hsum := hclose front o back rfl
  rw [List.map_append, List.sum_append] at hsum
  have hdx := moveAll_days hd hx (by omega)
  have hym := moveAll_days hyv hback (by omega)
  by_cases hne : front ++ back = []
  · -- the only offset of the chain: a month is moved back to where it is moved from
    obtain ⟨rfl, rfl⟩ := List.append_eq_nil_iff.mp hne
    obtain rfl : d = x := pure_eq_ok.mp hx
    obtain rfl : y = m := pure_eq_ok.mp hback
    constructor
    · intro t ht
      obtain ⟨s, z, hs, hzv, hzmoves, htv, htord⟩ := movedBound_eq_ok hstart hr.start t ht
      have hle := hmoves.le_of_le hd hyv (hr.start s hs) hzv hzmoves (hadmits.1 s hs)
      rw [Date.le_iff_toOrdinal hzv hd] at hle
      rw [Date.le_iff_toOrdinal htv hd]
      omega
    · intro t ht
      obtain ⟨e, z, he, hzv, hzmoves, htv, htord⟩ := movedBound_eq_ok hstop hr.stop t ht
      have hle := hmoves.le_of_lt hd hyv (hr.stop e he) hzv hzmoves (hadmits.2 e he)
      rw [Date.le_iff_toOrdinal hd hzv] at hle
      rw [Date.lt_iff_toOrdinal hd htv]
      omega
  · -- several offsets: all of them are days, and the others take up at most the margin
    have hshort := hclose.minDays_le hne
    have hxy := hmoves.eq_of_short hshort
    constructor
    · intro t ht
      obtain ⟨s, z, hs, hzv, hzmoves, htv, htord⟩ := movedBound_eq_ok hstart hr.start t ht
      have hsm := hadmits.1 s hs
      have hz := hzmoves.eq_of_short hshort
      rw [Date.le_iff_toOrdinal (hr.start s hs) hmv] at hsm
      rw [Date.le_iff_toOrdinal htv hd]
      omega
    · intro t ht
      obtain ⟨e, z, he, hzv, hzmoves, htv, htord⟩ := movedBound_eq_ok hstop hr.stop t ht
      have hme := hadmits.2 e he
      have hz := hzmoves.eq_of_short hshort
      rw [Date.lt_iff_toOrdinal hmv (hr.stop e he)] at hme
      rw [Date.lt_iff_toOrdinal hd htv]
      omega

/-! ## Other chains -/

/-- In a chain that is not close some offset is far from the others: it is of days and they are of
more than the margin, or a month stands before or after it. -/
theorem exists_far_of_not_close {os : List Duration} (h : ¬ Close os) :
    ∃ front o back, os = front ++ o :: back ∧
      ((o.months = none ∧ 4 ≤ (front.map Duration.minDays).sum +
          (back.map Duration.minDays).sum) ∨
        28 ≤ (front.map Duration.minDays).sum ∨ 28 ≤ (back.map Duration.minDays).sum) := by
  unfold Close at h
  push Not at h
  obtain ⟨front, o, back, rfl, hsum⟩ := h
  rw [List.map_append, List.sum_append] at hsum
  cases hmonths : o.months with
  | none => exact ⟨front, o, back, rfl, .inl ⟨hmonths, by omega⟩⟩
  | some k =>
      have hk := Duration.months_pos hmonths
      have hdays : o.minDays = 28 * k := by rw [Duration.minDays, hmonths]
      cases front with
      | cons f front =>
          refine ⟨[], f, front ++ o :: back, rfl, .inr (.inr ?_)⟩
          simp only [List.map_append, List.map_cons, List.sum_append, List.sum_cons]
          omega
      | nil =>
          cases back with
          | nil => simp at hsum
          | cons b back =>
              refine ⟨[o], b, back, rfl, .inr (.inl ?_)⟩
              simp only [List.map_cons, List.map_nil, List.sum_cons, List.sum_nil]
              omega

/-- The lower bound of one offset, for the range that begins on the day a stored date is moved
to. -/
theorem exists_lowerBound {front back : List Duration} {o : Duration} {d m : Date} (hd : d.Valid)
    (hfirst : 7 ≤ d.toOrdinal) (hm : moveAll (front ++ o :: back) d = .ok m) :
    ∃ b, prefilterBounds ⟨some m, none⟩ o = .ok ⟨some b, none⟩ ∧ b.Valid ∧
      (((o.months = none ∧ 4 ≤ (front.map Duration.minDays).sum +
          (back.map Duration.minDays).sum) ∨
        28 ≤ (front.map Duration.minDays).sum ∨ 28 ≤ (back.map Duration.minDays).sum) →
        d.toOrdinal < b.toOrdinal) := by
  obtain ⟨x, y, -, hback, hxv, hyv, hmoves, hmv, hdx, hym, hyear⟩ := moveAll_pivot hd hm
  have hmyear := moveAll_year hyv hyear hback
  obtain ⟨z, hzv, hzmoves, hz⟩ := hmoves.exists_back hmv
  have hgap := hmoves.gap hxv hyv hmv hzv hzmoves (by omega)
  have hzm := hzmoves.back_le hmv hzv
  have hzok : z.checked = .ok z := Date.checked_eq_self hzv hmv hmyear hzm (by omega)
  obtain ⟨hbv, hbord⟩ := Date.ofOrdinal_spec (z.toOrdinal + -3)
  have hbok : z.addDays (-3) = .ok (Date.ofOrdinal (z.toOrdinal + -3)) :=
    Date.checked_eq_self hbv hmv hmyear (by omega) (by omega)
  refine ⟨Date.ofOrdinal (z.toOrdinal + -3), ?_, hbv, ?_⟩
  · simp only [prefilterBounds, movedBound, hz, hzok, hbok, ok_bind]
    rfl
  · rintro (⟨hnone, hfar⟩ | hfar | hfar)
    · cases hmoves with
      | months k hk => simp [hnone] at hk
      | days n hmonths hn hord =>
          cases hzmoves with
          | months k hk => simp [hnone] at hk
          | days n' hm' hn' hord' =>
              obtain rfl : n = n' := Option.some.inj (hn.symm.trans hn')
              omega
    · omega
    · have := hgap.2 (by omega)
      omega

/-- A stored date that a chain can move, and that its prefilters drop: the range begins on the very
day the date is moved to. -/
theorem not_redundant_of_not_close {os : List Duration} (hclose : ¬ Close os) {d m : Date}
    (hd : d.Valid) (hfirst : 7 ≤ d.toOrdinal) (hm : moveAll os d = .ok m) : ¬ Redundant os := by
  intro hredundant
  have hall : ∀ o ∈ os, ∃ b, prefilterBounds ⟨some m, none⟩ o = .ok b := by
    intro o ho
    obtain ⟨front, back, rfl⟩ := List.append_of_mem ho
    obtain ⟨b, hb, -⟩ := exists_lowerBound hd hfirst hm
    exact ⟨_, hb⟩
  obtain ⟨bounds, hbounds⟩ := exists_mapM_eq_ok hall
  obtain ⟨front, o, back, rfl, hfar⟩ := exists_far_of_not_close hclose
  obtain ⟨b, hb, hbv, hdrop⟩ := exists_lowerBound hd hfirst hm
  obtain ⟨b', hmem, hb'⟩ := forall₂_mem_left (mapM_eq_ok.mp hbounds) (List.mem_append_right front
    (List.mem_cons_self (a := o) (l := back)))
  obtain rfl : DayRange.mk (some b) none = b' := Except.ok.inj (hb.symm.trans hb')
  have hmv := (moveAll_spec hd hm).1
  have hadmits := hredundant ⟨some m, none⟩ d m bounds
    ⟨fun s hs => by rw [← Option.some.inj hs]; exact hmv, by simp⟩ hd hm
    ⟨fun s hs => by
      rw [← Option.some.inj hs, Date.le_iff_toOrdinal hmv hmv], by simp⟩ hbounds _ hmem
  have hle := hadmits.1 b rfl
  rw [Date.le_iff_toOrdinal hbv hd] at hle
  have := hdrop hfar
  omega

/-! ## Planned chains -/

/-- Every offset that a leaf is planned under has the bounds of the query's range, moved back by
itself. -/
theorem Calls.shifts_bounded {ctx : LeafContext} {name : String} {b : Binding} {c : LeafCall}
    (h : Calls ctx name b c) (hctx : ∀ s ∈ ctx.shifts, s.Bounded ctx.query.timeRange) :
    ∀ s ∈ c.ctx.shifts, s.Bounded ctx.query.timeRange := by
  induction h with
  | component _ h =>
      rw [h.ctx_eq]
      exact hctx
  | base _ ih => exact ih hctx
  | offset hs _ ih =>
      refine ih fun s hmem => ?_
      simp only [LeafContext.under, Option.toList_some, List.mem_append, List.mem_singleton] at hmem
      rcases hmem with hmem | rfl
      · exact hctx s hmem
      · unfold planShift at hs
        split at hs
        next => simp at hs
        next owner howner =>
          simp only [bind_eq_ok, pure_eq_ok] at hs
          obtain ⟨_, -, pre, hpre, rfl⟩ := hs
          exact prefilters_eq_ok hpre
  | derived _ _ ih => exact ih (by simpa [LeafContext.under] using hctx)
  | _ => exact hctx

/-- **The prefilters of a chain are redundant** when, for every offset of it, the others add up to
at most three days, a month counting 28; for a chain that moves some date from the seventh day of
the calendar on, only then. The offsets of a planned leaf have these prefilters. -/
theorem prefilters_redundant_iff (os : List Duration) :
    (Close os → Redundant os) ∧
    (∀ d m, d.Valid → Date.mk 1 1 7 ≤ d → moveAll os d = .ok m → (Redundant os ↔ Close os)) ∧
    ∀ p q principal plan, planQuery p q principal = .ok plan → ∀ c, plan.Calls c →
      ∀ s ∈ c.ctx.shifts, s.Bounded plan.ctx.query.timeRange := by
  refine ⟨redundant_of_close, fun d m hd hfirst hm => ⟨fun h => ?_, redundant_of_close⟩, ?_⟩
  · have hseventh : (Date.mk 1 1 7).Valid := ⟨by decide, by decide, by decide, by decide⟩
    rw [Date.le_iff_toOrdinal hseventh hd] at hfirst
    by_contra hclose
    exact not_redundant_of_not_close hclose hd hfirst hm h
  · rintro p q principal plan hplan c ⟨b, hb, hcalls⟩
    refine hcalls.shifts_bounded fun s hs => ?_
    rw [(planQuery_eq_ok hplan).shifts] at hs
    simp at hs

private def billTexts : List (String × Sql.Expr) :=
  [("SUM(amount)", .node (.agg .sum) [.bare "amount"]),
   ("day >= '2023-03-01'", .node .gte [.bare "day", .string "2023-03-01"]),
   ("day >= '2023-01-29'", .node .gte [.bare "day", .string "2023-01-29"]),
   ("day >= '2023-02-25'", .node .gte [.bare "day", .string "2023-02-25"])]

private def aDay : Duration := ⟨1, .day, by decide⟩

private def aMonth : Duration := ⟨1, .month, by decide⟩

private def billColumns : List Column := [⟨"day", .date, true⟩, ⟨"amount", .decimal, true⟩]

/-- Bills, those of the day before, and of these the ones of the month before. -/
private def billProject : Project where
  lib := Lib.ofTexts billTexts
  sources := { list := [
    { name := "bills", connection := "wh", table := "bills"
      columns := billColumns
      measures := [{ name := "amount", expr := "SUM(amount)" }]
      dimensions := [{ name := "day", column := some "day" }]
      measures_nodup := List.nodup_singleton "amount"
      dimensions_nodup := List.nodup_singleton "day" }] }
  resolver := { bindings := [
    { metric := "billed", canonical := { of := .single "bills" "amount" } },
    { metric := "day_before", canonical := { of := .offset "billed" "day" aDay } },
    { metric := "month_before", canonical := { of := .offset "day_before" "day" aMonth } }] }

private def fromMarch : SemanticQuery where
  metrics := ["month_before"]
  timeRange := some ⟨"day", .dates (some ⟨2023, 3, 1⟩) none (.inl rfl)⟩

/-- A bill of 28 January moves to 1 March, where the range begins, and is dropped. -/
theorem prefilters_bills_counterexample :
    (∃ plan, planQuery billProject fromMarch {} = .ok plan ∧
      ∃ l ∈ plan.leaves, l.inputs.ctx.shifts = [⟨"day", aMonth, ["day >= '2023-01-29'"]⟩,
        ⟨"day", aDay, ["day >= '2023-02-25'"]⟩]) ∧
    moveAll [aMonth, aDay] ⟨2023, 1, 28⟩ = .ok ⟨2023, 3, 1⟩ ∧
    prefilterBounds ⟨some ⟨2023, 3, 1⟩, none⟩ aDay = .ok ⟨some ⟨2023, 2, 25⟩, none⟩ ∧
    ¬ Date.mk 2023 2 25 ≤ ⟨2023, 1, 28⟩ ∧ ¬ Redundant [aMonth, aDay] := by
  have hmoved : moveAll [aMonth, aDay] ⟨2023, 1, 28⟩ = .ok ⟨2023, 3, 1⟩ := rfl
  have hclose : ¬ Close [aMonth, aDay] := fun h => absurd (h [aMonth] aDay [] rfl) (by decide)
  refine ⟨?_, hmoved, rfl, ?_, ?_⟩
  · obtain ⟨plan, hplan, hall⟩ := exists_ok_of_any (x := planQuery billProject fromMarch {})
      (P := fun plan => plan.leaves.any fun l => l.inputs.ctx.shifts ==
        [⟨"day", aMonth, ["day >= '2023-01-29'"]⟩, ⟨"day", aDay, ["day >= '2023-02-25'"]⟩])
      (by decide +kernel)
    simp only [List.any_eq_true, beq_iff_eq] at hall
    exact ⟨plan, hplan, hall⟩
  · exact fun h => h (.inr ⟨rfl, .inl (by decide)⟩)
  · exact not_redundant_of_not_close hclose ⟨by decide, by decide, by decide, by decide⟩
      (by decide) hmoved

theorem prefilters_redundant_month : Redundant [aMonth] ∧
    moveAll [aMonth] ⟨2023, 1, 31⟩ = .ok ⟨2023, 2, 28⟩ := by
  refine ⟨(prefilters_redundant_iff [aMonth]).1 fun front o back h => ?_, rfl⟩
  cases front with
  | nil =>
      obtain ⟨-, rfl⟩ := List.cons.inj h
      decide
  | cons f front => simp at h

end Canonic
