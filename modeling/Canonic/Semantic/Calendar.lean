import Mathlib
import Canonic.Semantic.Duration

set_option autoImplicit false

/-! # The calendar

Days in order. A valid day is its month, counted from the beginning, and its day of the month;
its ordinal is where its month starts plus that day. Months have 28 to 31 days and follow each
other, which is all that a move by months or by days rests on. -/

namespace Canonic

namespace Date

/-! ## Months -/

/-- A day of the calendar. -/
structure Valid (d : Date) : Prop where
  month_pos : 1 ≤ d.month
  month_le : d.month ≤ 12
  day_pos : 1 ≤ d.day
  day_le : d.day ≤ daysInMonth d.year d.month

/-- The month of a day, counted from January of year 0. -/
def index (d : Date) : Int := d.year * 12 + (d.month - 1)

def monthLength (i : Int) : Int := daysInMonth (i / 12) (i % 12 + 1)

/-- The ordinal of the day before a month. -/
def monthStart (i : Int) : Int :=
  daysBeforeYear (i / 12) + daysBeforeMonth (i / 12) (i % 12 + 1).toNat

theorem daysInMonth_bounds (y m : Int) : 28 ≤ daysInMonth y m ∧ daysInMonth y m ≤ 31 := by
  unfold daysInMonth
  split
  · split <;> omega
  · split <;> omega

theorem monthLength_bounds (i : Int) : 28 ≤ monthLength i ∧ monthLength i ≤ 31 :=
  daysInMonth_bounds _ _

theorem daysBeforeMonth_succ (y : Int) (m : Nat) :
    daysBeforeMonth y (m + 2) = daysBeforeMonth y (m + 1) + daysInMonth y (m + 1) := by
  simp [daysBeforeMonth, List.range_succ]

theorem daysInYear (y : Int) : daysBeforeMonth y 13 = 365 + if isLeap y then 1 else 0 := by
  simp only [daysBeforeMonth, daysInMonth, List.range, List.range.loop]
  by_cases h : isLeap y = true
  · simp [h]
  · simp [h]

theorem daysBeforeYear_succ (y : Int) :
    daysBeforeYear (y + 1) = daysBeforeYear y + daysBeforeMonth y 13 := by
  rw [daysInYear]
  simp only [daysBeforeYear, isLeap]
  by_cases h4 : y % 4 = 0
  · by_cases h100 : y % 100 = 0
    · by_cases h400 : y % 400 = 0
      · simp only [h4, h100, h400, decide_true, Bool.true_and, Bool.or_true, ne_eq,
          not_true_eq_false, decide_false, if_true]
        omega
      · simp only [h4, h100, h400, decide_true, Bool.true_and, ne_eq, not_true_eq_false,
          decide_false, Bool.false_or, Bool.false_eq_true, if_false]
        omega
    · simp only [h4, h100, decide_true, Bool.true_and, ne_eq, not_false_eq_true, Bool.true_or,
        if_true]
      omega
  · simp only [h4, decide_false, Bool.false_and, Bool.false_eq_true, if_false]
    omega

/-- Each month starts when the one before it ends. -/
theorem monthStart_succ (i : Int) : monthStart (i + 1) = monthStart i + monthLength i := by
  unfold monthStart monthLength
  by_cases h : i % 12 = 11
  · have hyear : (i + 1) / 12 = i / 12 + 1 := by omega
    have hmonth : (i + 1) % 12 = 0 := by omega
    rw [hyear, hmonth, h, daysBeforeYear_succ]
    have hlast : daysBeforeMonth (i / 12) 13 =
        daysBeforeMonth (i / 12) 12 + daysInMonth (i / 12) 12 := daysBeforeMonth_succ _ 11
    have hfirst : daysBeforeMonth (i / 12 + 1) 1 = 0 := rfl
    simp only [Int.reduceAdd, Int.reduceToNat]
    omega
  · have hyear : (i + 1) / 12 = i / 12 := by omega
    obtain ⟨k, hk⟩ : ∃ k : Nat, i % 12 = k := ⟨(i % 12).toNat, by omega⟩
    have hmonth : (i + 1) % 12 = k + 1 := by omega
    rw [hyear, hmonth, hk]
    have h1 : ((k : Int) + 1 + 1).toNat = k + 2 := by omega
    have h2 : ((k : Int) + 1).toNat = k + 1 := by omega
    rw [h1, h2, daysBeforeMonth_succ]
    omega

theorem monthStart_add_le {i j : Int} (h : i ≤ j) : monthStart i + 28 * (j - i) ≤ monthStart j := by
  induction j, h using Int.leInduction with
  | base => omega
  | succ j hij ih =>
      rw [monthStart_succ]
      have := (monthLength_bounds j).1
      omega

/-! ## Ordinals -/

theorem Valid.div_index {d : Date} (h : d.Valid) : d.index / 12 = d.year := by
  have := h.month_pos
  have := h.month_le
  simp only [index]
  omega

theorem Valid.mod_index {d : Date} (h : d.Valid) : d.index % 12 + 1 = d.month := by
  have := h.month_pos
  have := h.month_le
  simp only [index]
  omega

theorem Valid.toOrdinal_eq {d : Date} (h : d.Valid) :
    d.toOrdinal = monthStart d.index + d.day := by
  rw [toOrdinal, monthStart, h.div_index, h.mod_index]

theorem Valid.day_le_monthLength {d : Date} (h : d.Valid) : d.day ≤ monthLength d.index := by
  rw [monthLength, h.div_index, h.mod_index]
  exact h.day_le

/-- A day of a month is valid. -/
theorem valid_of_index (i day : Int) (hpos : 1 ≤ day) (hle : day ≤ monthLength i) :
    Valid ⟨i / 12, i % 12 + 1, day⟩ ∧ index ⟨i / 12, i % 12 + 1, day⟩ = i := by
  refine ⟨⟨?_, ?_, hpos, hle⟩, ?_⟩
  · show 1 ≤ i % 12 + 1
    omega
  · show i % 12 + 1 ≤ 12
    omega
  · simp only [index]
    omega

/-- The days of a year, found by going through its months. -/
theorem monthDay_spec (y : Int) (fuel : Nat) : ∀ m n : Int, 1 ≤ m → m ≤ 12 → 12 - m ≤ fuel →
    0 ≤ n → daysBeforeMonth y m.toNat + n < daysBeforeMonth y 13 →
    (monthDay y fuel m n).Valid ∧ (monthDay y fuel m n).year = y ∧
      daysBeforeMonth y (monthDay y fuel m n).month.toNat + (monthDay y fuel m n).day =
        daysBeforeMonth y m.toNat + n + 1 := by
  have hlast : daysBeforeMonth y 13 = daysBeforeMonth y 12 + daysInMonth y 12 :=
    daysBeforeMonth_succ y 11
  induction fuel with
  | zero =>
      intro m n hm hm' hfuel hn hlt
      obtain rfl : m = 12 := by omega
      rw [show ((12 : Int)).toNat = 12 from rfl, hlast] at hlt
      refine ⟨⟨by simp [monthDay], by simp [monthDay], ?_, ?_⟩, rfl, ?_⟩
      · simp only [monthDay]
        omega
      · simp only [monthDay]
        omega
      · simp only [monthDay]
        omega
  | succ fuel ih =>
      intro m n hm hm' hfuel hn hlt
      rw [monthDay]
      split
      next hfound =>
        refine ⟨⟨hm, hm', by simp only; omega, ?_⟩, rfl, by simp only; omega⟩
        simp only
        rcases hfound with h | rfl
        · omega
        · rw [show ((12 : Int)).toNat = 12 from rfl, hlast] at hlt
          omega
      next hnot =>
        rw [not_or] at hnot
        obtain ⟨k, rfl⟩ : ∃ k : Nat, m = k + 1 := ⟨(m - 1).toNat, by omega⟩
        have hk : ((k : Int) + 1).toNat = k + 1 := by omega
        have hk' : ((k : Int) + 1 + 1).toNat = k + 2 := by omega
        have hsucc := daysBeforeMonth_succ y k
        rw [hk] at hlt
        obtain ⟨hvalid, hyear, hday⟩ := ih (k + 1 + 1) (n - daysInMonth y (k + 1)) (by omega)
          (by omega) (by omega) (by omega) (by rw [hk', hsucc]; omega)
        refine ⟨hvalid, hyear, ?_⟩
        rw [hday, hk, hk', hsucc]
        omega

/-- The cycles of 400, 100, 4 and 1 years lead to the year of a day and its place in it. -/
theorem daysBeforeYear_cycles (c400 : Int) {c100 c4 c1 r : Int} (h100 : 0 ≤ c100 ∧ c100 ≤ 3)
    (h4 : 0 ≤ c4 ∧ c4 ≤ 24) (h1 : 0 ≤ c1 ∧ c1 ≤ 3) (hr : 0 ≤ r ∧ r ≤ 365)
    (hlong : r = 365 → c1 = 3 ∧ (c4 = 24 → c100 = 3)) :
    daysBeforeYear (c400 * 400 + c100 * 100 + c4 * 4 + c1 + 1) =
      c400 * 146097 + c100 * 36524 + c4 * 1461 + c1 * 365 ∧
    r < daysBeforeMonth (c400 * 400 + c100 * 100 + c4 * 4 + c1 + 1) 13 := by
  constructor
  · simp only [daysBeforeYear]
    omega
  · rw [daysInYear]
    by_cases h365 : r = 365
    · obtain ⟨rfl, hcentury⟩ := hlong h365
      have hleap : isLeap (c400 * 400 + c100 * 100 + c4 * 4 + 3 + 1) = true := by
        simp only [isLeap, Bool.and_eq_true, Bool.or_eq_true, decide_eq_true_eq]
        refine ⟨by omega, ?_⟩
        by_cases hc : c4 = 24
        · right
          have := hcentury hc
          omega
        · left
          omega
      simp only [hleap, if_true]
      omega
    · split <;> omega

theorem ofOrdinal_spec (n : Int) : (ofOrdinal n).Valid ∧ (ofOrdinal n).toOrdinal = n := by
  simp only [ofOrdinal]
  generalize h400 : (n - 1) / 146097 = c400
  generalize hr400 : (n - 1) % 146097 = r400
  generalize h100 : min (r400 / 36524) 3 = c100
  generalize h4 : (r400 - c100 * 36524) / 1461 = c4
  generalize hr4 : (r400 - c100 * 36524) % 1461 = r4
  generalize h1 : min (r4 / 365) 3 = c1
  have b100 : 0 ≤ c100 ∧ c100 ≤ 3 := by omega
  have br100 : 0 ≤ r400 - c100 * 36524 ∧ r400 - c100 * 36524 ≤ 36524 ∧
      (r400 - c100 * 36524 = 36524 → c100 = 3) := by omega
  have b4 : 0 ≤ c4 ∧ c4 ≤ 24 := by omega
  have br4 : 0 ≤ r4 ∧ r4 ≤ 1460 := by omega
  have b1 : 0 ≤ c1 ∧ c1 ≤ 3 := by omega
  have br1 : 0 ≤ r4 - c1 * 365 ∧ r4 - c1 * 365 ≤ 365 := by omega
  have hlong : r4 - c1 * 365 = 365 → c1 = 3 ∧ (c4 = 24 → c100 = 3) := by omega
  obtain ⟨hyear, hplace⟩ := daysBeforeYear_cycles c400 b100 b4 b1 br1 hlong
  obtain ⟨hvalid, hy, hday⟩ := monthDay_spec (c400 * 400 + c100 * 100 + c4 * 4 + c1 + 1) 12 1
    (r4 - c1 * 365) (by omega) (by omega) (by omega) br1.1 (by
      simpa [daysBeforeMonth] using hplace)
  refine ⟨hvalid, ?_⟩
  have hfirst : daysBeforeMonth (c400 * 400 + c100 * 100 + c4 * 4 + c1 + 1) (1 : Int).toNat = 0 :=
    rfl
  rw [toOrdinal, hy, Int.add_assoc, hday, hyear, hfirst]
  omega

/-! ## Order -/

/-- Days compare by year, month and day. -/
instance : LT Date where
  lt a b := a.year < b.year ∨
    a.year = b.year ∧ (a.month < b.month ∨ a.month = b.month ∧ a.day < b.day)

instance : LE Date where
  le a b := ¬ b < a

section

variable {a b : Date} (ha : a.Valid) (hb : b.Valid)

include ha hb

theorem lt_iff_index :
    a < b ↔ a.index < b.index ∨ a.index = b.index ∧ a.day < b.day := by
  have := ha.month_pos
  have := ha.month_le
  have := hb.month_pos
  have := hb.month_le
  show (a.year < b.year ∨ _) ↔ _
  simp only [index]
  omega

theorem lt_iff_toOrdinal : a < b ↔ a.toOrdinal < b.toOrdinal := by
  rw [lt_iff_index ha hb, ha.toOrdinal_eq, hb.toOrdinal_eq]
  have ha1 := ha.day_pos
  have ha2 := ha.day_le_monthLength
  have hb1 := hb.day_pos
  have hb2 := hb.day_le_monthLength
  rcases lt_trichotomy a.index b.index with h | h | h
  · have := monthStart_add_le (show a.index + 1 ≤ b.index by omega)
    rw [monthStart_succ] at this
    omega
  · rw [h]
    omega
  · have := monthStart_add_le (show b.index + 1 ≤ a.index by omega)
    rw [monthStart_succ] at this
    omega

theorem le_iff_toOrdinal : a ≤ b ↔ a.toOrdinal ≤ b.toOrdinal := by
  show ¬ b < a ↔ _
  rw [lt_iff_toOrdinal hb ha, not_lt]

end

/-! ## Moves -/

theorem Valid.year_pos_iff {d : Date} (h : d.Valid) : 1 ≤ d.year ↔ 1 ≤ d.toOrdinal := by
  have hday := h.day_pos
  have hlen := h.day_le_monthLength
  have hyear := h.div_index
  have hzero : monthStart 12 = 0 := rfl
  rw [h.toOrdinal_eq]
  constructor
  · intro hy
    have := monthStart_add_le (show 12 ≤ d.index by omega)
    omega
  · intro ho
    by_contra hy
    have := monthStart_add_le (show d.index + 1 ≤ 12 by omega)
    rw [monthStart_succ] at this
    omega

theorem checked_eq_ok {d d' : Date} (h : d.checked = .ok d') :
    d' = d ∧ 1 ≤ d.year ∧ d.year ≤ 9999 := by
  unfold checked at h
  split at h
  next hyear => exact ⟨(Except.ok.inj h).symm, hyear⟩
  next => simp at h

theorem addDays_eq_ok {d d' : Date} {n : Int} (h : d.addDays n = .ok d') :
    d'.Valid ∧ d'.toOrdinal = d.toOrdinal + n ∧ 1 ≤ d'.year ∧ d'.year ≤ 9999 := by
  obtain ⟨rfl, hyear⟩ := checked_eq_ok h
  exact ⟨(ofOrdinal_spec _).1, (ofOrdinal_spec _).2, hyear⟩

/-- A day that is not after a day of the calendar is one, if it is not before the first. -/
theorem checked_eq_self {d m : Date} (hd : d.Valid) (hm : m.Valid) (hyear : m.year ≤ 9999)
    (hle : d.toOrdinal ≤ m.toOrdinal) (hpos : 1 ≤ d.toOrdinal) : d.checked = .ok d := by
  refine if_pos ⟨hd.year_pos_iff.mpr hpos, ?_⟩
  by_contra hlate
  have hlt : m < d := Or.inl (by omega)
  rw [lt_iff_toOrdinal hm hd] at hlt
  omega

end Date

/-- What a move by a duration does: by months it keeps the day of the month where the month has
it, by days it adds to the ordinal. -/
inductive Moves (d : Date) (o : Duration) (sign : Int) (d' : Date) : Prop
  | months (k : Nat) (hk : o.months = some k) (hindex : d'.index = d.index + sign * k)
      (hday : d'.day = min d.day (Date.monthLength d'.index))
  | days (n : Nat) (hmonths : o.months = none) (hn : o.days = some n)
      (hordinal : d'.toOrdinal = d.toOrdinal + sign * n)

theorem addToDate_eq_ok {d d' : Date} {o : Duration} {sign : Int} (hd : d.Valid)
    (h : addToDate d o sign = .ok d') :
    d'.Valid ∧ Moves d o sign d' ∧ 1 ≤ d'.year ∧ d'.year ≤ 9999 := by
  unfold addToDate at h
  split at h
  next k hk =>
    obtain ⟨rfl, hyear⟩ := Date.checked_eq_ok h
    have hlen := Date.monthLength_bounds (d.index + sign * k)
    have hday := hd.day_pos
    obtain ⟨hvalid, hindex⟩ := Date.valid_of_index (d.index + sign * k)
      (min d.day (Date.monthLength (d.index + sign * k))) (by omega) (by omega)
    exact ⟨hvalid, .months k hk hindex
      (congrArg (fun i => min d.day (Date.monthLength i)) hindex.symm), hyear⟩
  next hmonths =>
    split at h
    next n hn =>
      obtain ⟨hvalid, hordinal, hyear⟩ := Date.addDays_eq_ok h
      exact ⟨hvalid, .days n hmonths hn hordinal, hyear⟩
    next => simp at h

/-- A duration of months or of days moves a day to one that is checked for the calendar. -/
theorem addToDate_checked {m : Date} {o : Duration} {sign : Int} (hm : m.Valid)
    (ho : o.months ≠ none ∨ o.days ≠ none) :
    ∃ z : Date, z.Valid ∧ Moves m o sign z ∧ addToDate m o sign = z.checked := by
  cases hmonths : o.months with
  | some k =>
      have hlen := Date.monthLength_bounds (m.index + sign * k)
      have hday := hm.day_pos
      obtain ⟨hvalid, hindex⟩ := Date.valid_of_index (m.index + sign * k)
        (min m.day (Date.monthLength (m.index + sign * k))) (by omega) (by omega)
      refine ⟨_, hvalid, .months k hmonths hindex
        (congrArg (fun i => min m.day (Date.monthLength i)) hindex.symm), ?_⟩
      rw [addToDate, hmonths]
      rfl
  | none =>
      obtain ⟨n, hn⟩ := Option.ne_none_iff_exists'.mp (ho.resolve_left (not_not_intro hmonths))
      refine ⟨Date.ofOrdinal (m.toOrdinal + sign * n), (Date.ofOrdinal_spec _).1,
        .days n hmonths hn (Date.ofOrdinal_spec _).2, ?_⟩
      rw [addToDate, hmonths, hn]
      rfl

/-- A duration that can move a day forward can move one back, as far as the calendar goes. -/
theorem Moves.exists_back {x y m : Date} {o : Duration} {sign : Int} (h : Moves x o sign y)
    (hm : m.Valid) : ∃ z : Date, z.Valid ∧ Moves m o (-1) z ∧ addToDate m o (-1) = z.checked := by
  apply addToDate_checked hm
  cases h with
  | months k hk => exact Or.inl (by rw [hk]; exact Option.some_ne_none k)
  | days n _ hn => exact Or.inr (by rw [hn]; exact Option.some_ne_none n)

/-- The fewest days a duration moves a day by. -/
def Duration.minDays (o : Duration) : Nat :=
  match o.months with
  | some k => 28 * k
  | none => o.days.getD 0

theorem Duration.months_pos {o : Duration} {k : Nat} (h : o.months = some k) : 1 ≤ k := by
  have hpos := o.count_pos
  unfold Duration.months DurationUnit.months at h
  cases hu : o.unit <;> simp only [hu, Option.map_some, Option.map_none, Option.some.injEq,
    reduceCtorEq] at h <;> omega

section

variable {x y s z : Date} {o : Duration} (hx : x.Valid) (hy : y.Valid) (hs : s.Valid)
  (hz : z.Valid) (hfwd : Moves x o 1 y) (hback : Moves s o (-1) z)

include hx hy hfwd in
/-- A move forward gains at least the shortest length of the duration. -/
theorem Moves.minDays_le : x.toOrdinal + o.minDays ≤ y.toOrdinal := by
  cases hfwd with
  | months k hk hindex hday =>
      have hlen := Date.monthLength_bounds y.index
      have hlen' := Date.monthLength_bounds x.index
      have hx1 := hx.day_pos
      have hx2 := hx.day_le_monthLength
      have hk1 := Duration.months_pos hk
      have hstart := Date.monthStart_add_le (show x.index + 1 ≤ y.index by omega)
      rw [Date.monthStart_succ] at hstart
      rw [hx.toOrdinal_eq, hy.toOrdinal_eq, Duration.minDays, hk]
      simp only
      omega
  | days n hm hn hord =>
      rw [Duration.minDays, hm, hn, hord]
      simp

include hs hz hback in
theorem Moves.back_le : z.toOrdinal ≤ s.toOrdinal := by
  cases hback with
  | months k hk hindex hday =>
      have hk1 := Duration.months_pos hk
      have hlt : z < s := (Date.lt_iff_index hz hs).mpr (.inl (by omega))
      rw [Date.lt_iff_toOrdinal hz hs] at hlt
      omega
  | days n hm hn hord => omega

include hx hy hs hz hfwd hback in
/-- What is moved to a day or past it is not before the day moved back. -/
theorem Moves.le_of_le (h : s ≤ y) : z ≤ x := by
  cases hfwd with
  | months k hk hindex hday =>
      cases hback with
      | months k' hk' hindex' hday' =>
          obtain rfl : k = k' := Option.some.inj (hk.symm.trans hk')
          show ¬ x < z
          rw [show s ≤ y ↔ ¬ y < s from Iff.rfl, Date.lt_iff_index hy hs] at h
          rw [Date.lt_iff_index hx hz]
          omega
      | days n' hm' => simp [hk] at hm'
  | days n hm hn hord =>
      cases hback with
      | months k' hk' => simp [hm] at hk'
      | days n' hm' hn' hord' =>
          obtain rfl : n = n' := Option.some.inj (hn.symm.trans hn')
          rw [Date.le_iff_toOrdinal hs hy] at h
          rw [Date.le_iff_toOrdinal hz hx]
          omega

include hx hy hs hz hfwd hback in
/-- What is moved to before a day is not after the day moved back. -/
theorem Moves.le_of_lt (h : y < s) : x ≤ z := by
  cases hfwd with
  | months k hk hindex hday =>
      cases hback with
      | months k' hk' hindex' hday' =>
          obtain rfl : k = k' := Option.some.inj (hk.symm.trans hk')
          have hx2 := hx.day_le_monthLength
          have hs2 := hs.day_le_monthLength
          show ¬ z < x
          rw [Date.lt_iff_index hy hs] at h
          rw [Date.lt_iff_index hz hx]
          rintro (hlt | ⟨heq, hlt⟩)
          · omega
          · have hsame : y.index = s.index := by omega
            rw [hsame] at hday
            rw [heq] at hday'
            omega
      | days n' hm' => simp [hk] at hm'
  | days n hm hn hord =>
      cases hback with
      | months k' hk' => simp [hm] at hk'
      | days n' hm' hn' hord' =>
          obtain rfl : n = n' := Option.some.inj (hn.symm.trans hn')
          rw [Date.lt_iff_toOrdinal hy hs] at h
          rw [Date.le_iff_toOrdinal hx hz]
          omega

include hx hy hs hz hfwd hback in
/-- A day that a move leads to, moved back, misses at most the three days that a month can be short
of; a day a month later, moved back, is past where the move began. -/
theorem Moves.gap (h : y.toOrdinal ≤ s.toOrdinal) :
    x.toOrdinal ≤ z.toOrdinal + 3 ∧
      (y.toOrdinal + 28 ≤ s.toOrdinal → x.toOrdinal + 4 ≤ z.toOrdinal) := by
  cases hfwd with
  | months k hk hindex hday =>
      cases hback with
      | months k' hk' hindex' hday' =>
          obtain rfl : k = k' := Option.some.inj (hk.symm.trans hk')
          have hlenx := Date.monthLength_bounds x.index
          have hleny := Date.monthLength_bounds y.index
          have hlenz := Date.monthLength_bounds z.index
          have hx2 := hx.day_le_monthLength
          have hy1 := hy.day_pos
          have hy2 := hy.day_le_monthLength
          have hs1 := hs.day_pos
          have hs2 := hs.day_le_monthLength
          have hz1 := hz.day_pos
          rw [hy.toOrdinal_eq, hs.toOrdinal_eq] at h ⊢
          rw [hx.toOrdinal_eq, hz.toOrdinal_eq]
          have hsucc := Date.monthStart_succ x.index
          have hsucc' := Date.monthStart_succ y.index
          -- by how many months the day is past the month the move leads to
          rcases lt_trichotomy s.index y.index with hlt | heq | hgt
          · have := Date.monthStart_add_le (show s.index + 1 ≤ y.index by omega)
            rw [Date.monthStart_succ] at this
            omega
          · have hzx : z.index = x.index := by omega
            rw [heq] at h ⊢ hs2
            rw [hzx] at hday' hlenz ⊢
            omega
          · by_cases hone : s.index = y.index + 1
            · have hzx : z.index = x.index + 1 := by omega
              rw [hone, hsucc'] at h ⊢
              rw [hzx] at hday' hlenz ⊢
              rw [hsucc]
              omega
            · have := Date.monthStart_add_le (show x.index + 1 ≤ z.index by omega)
              rw [Date.monthStart_succ] at this
              omega
      | days n' hm' => simp [hk] at hm'
  | days n hm hn hord =>
      cases hback with
      | months k' hk' => simp [hm] at hk'
      | days n' hm' hn' hord' =>
          obtain rfl : n = n' := Option.some.inj (hn.symm.trans hn')
          omega

end

end Canonic
