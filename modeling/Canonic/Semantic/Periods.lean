import Canonic.Semantic.Zone

set_option autoImplicit false

/-! # Calendar periods

The periods of a unit of a day or longer, numbered along the calendar. A period is where it starts:
the day that a number starts at and the number of the period that a day is in determine each other,
and `floor_date` and the backward step of `add_to_date` are read through them. -/

namespace Canonic

open Date

/-- The ordinal of the first day of a period. -/
def unitStart (u : DurationUnit) (i : Int) : Int :=
  match u.months with
  | some k => monthStart (k * i) + 1
  | none => if u = .week then 7 * i - 6 else i

/-- The number of the period that a day is in. -/
def unitIndex (u : DurationUnit) (d : Date) : Int :=
  match u.months with
  | some k => d.index / k
  | none => if u = .week then (d.toOrdinal + 6) / 7 else d.toOrdinal

section

variable {u : DurationUnit}

theorem unitStart_months {k : Nat} (h : u.months = some k) (i : Int) :
    unitStart u i = monthStart (k * i) + 1 := by
  rw [unitStart, h]

theorem unitIndex_months {k : Nat} (h : u.months = some k) (d : Date) :
    unitIndex u d = d.index / k := by
  rw [unitIndex, h]

theorem unitStart_days (h : u.months = none) (i : Int) :
    unitStart u i = if u = .week then 7 * i - 6 else i := by
  rw [unitStart, h]

theorem unitIndex_days (h : u.months = none) (d : Date) :
    unitIndex u d = if u = .week then (d.toOrdinal + 6) / 7 else d.toOrdinal := by
  rw [unitIndex, h]

end

theorem months_pos {u : DurationUnit} {k : Nat} (h : u.months = some k) : 1 ≤ k := by
  cases u <;> simp [DurationUnit.months] at h <;> omega

/-- Each period has a day. -/
theorem unitStart_lt (u : DurationUnit) {i j : Int} (h : i < j) :
    unitStart u i < unitStart u j := by
  cases hm : u.months with
  | none =>
      rw [unitStart_days hm, unitStart_days hm]
      by_cases hw : u = .week
      · rw [if_pos hw, if_pos hw]
        omega
      · rw [if_neg hw, if_neg hw]
        exact h
  | some k =>
      have hk := months_pos hm
      have hstep : (k : Int) * i + 1 ≤ k * j := by
        calc (k : Int) * i + 1 ≤ k * i + k := by omega
          _ = k * (i + 1) := by ring
          _ ≤ k * j := Int.mul_le_mul_of_nonneg_left h (by omega)
      have hstart := monthStart_add_le (show (k : Int) * i ≤ k * j by omega)
      rw [unitStart_months hm, unitStart_months hm]
      omega

theorem unitStart_le_iff (u : DurationUnit) {i j : Int} :
    unitStart u i ≤ unitStart u j ↔ i ≤ j := by
  constructor
  · intro h
    by_contra hlt
    have := unitStart_lt u (not_le.mp hlt)
    omega
  · intro h
    rcases h.lt_or_eq with hlt | rfl
    · exact (unitStart_lt u hlt).le
    · exact le_rfl

/-- A day is in the period of its number. -/
theorem unitIndex_spec (u : DurationUnit) {d : Date} (hd : d.Valid) :
    unitStart u (unitIndex u d) ≤ d.toOrdinal ∧
      d.toOrdinal < unitStart u (unitIndex u d + 1) := by
  cases hm : u.months with
  | none =>
      rw [unitStart_days hm, unitStart_days hm, unitIndex_days hm]
      by_cases hw : u = .week
      · rw [if_pos hw, if_pos hw, if_pos hw]
        omega
      · rw [if_neg hw, if_neg hw, if_neg hw]
        omega
  | some k =>
      have hk := months_pos hm
      have hday := hd.day_pos
      have hlen := hd.day_le_monthLength
      have hlow : (k : Int) * (d.index / k) ≤ d.index := Int.mul_ediv_self_le (by omega)
      have hhigh : d.index + 1 ≤ k * (d.index / k + 1) := by
        have := Int.lt_mul_ediv_self_add (x := d.index) (show (0 : Int) < k by omega)
        rw [mul_add, mul_one]
        omega
      have hstart := monthStart_add_le hlow
      have hend := monthStart_add_le hhigh
      rw [monthStart_succ] at hend
      rw [hd.toOrdinal_eq, unitStart_months hm, unitStart_months hm, unitIndex_months hm]
      omega

theorem unitIndex_eq_iff (u : DurationUnit) {d : Date} (hd : d.Valid) {i : Int} :
    unitIndex u d = i ↔ unitStart u i ≤ d.toOrdinal ∧ d.toOrdinal < unitStart u (i + 1) := by
  have hspec := unitIndex_spec u hd
  constructor
  · rintro rfl
    exact hspec
  · rintro ⟨hlow, hhigh⟩
    have hle : i < unitIndex u d + 1 := by
      by_contra h
      have := (unitStart_le_iff u).mpr (not_lt.mp h)
      omega
    have hge : unitIndex u d < i + 1 := by
      by_contra h
      have := (unitStart_le_iff u).mpr (not_lt.mp h)
      omega
    omega

/-- Two days of one ordinal are the same. -/
theorem eq_of_toOrdinal {a b : Date} (ha : a.Valid) (hb : b.Valid)
    (h : a.toOrdinal = b.toOrdinal) : a = b := by
  have hab : ¬ a < b := by
    rw [lt_iff_toOrdinal ha hb]
    omega
  have hba : ¬ b < a := by
    rw [lt_iff_toOrdinal hb ha]
    omega
  have hab' : ¬ (a.year < b.year ∨
    a.year = b.year ∧ (a.month < b.month ∨ a.month = b.month ∧ a.day < b.day)) := hab
  have hba' : ¬ (b.year < a.year ∨
    b.year = a.year ∧ (b.month < a.month ∨ b.month = a.month ∧ b.day < a.day)) := hba
  obtain ⟨y, m, d⟩ := a
  obtain ⟨y', m', d'⟩ := b
  simp only [Date.mk.injEq]
  simp only at hab' hba'
  omega

/-- The first day of a month has its number, and day one. -/
theorem index_of_monthStart {d : Date} (hd : d.Valid) {i : Int}
    (h : d.toOrdinal = monthStart i + 1) : d.index = i ∧ d.day = 1 := by
  have hlen := monthLength_bounds i
  obtain ⟨hvalid, hindex⟩ := valid_of_index i 1 le_rfl (by omega)
  have hsame : d = ⟨i / 12, i % 12 + 1, 1⟩ := by
    apply eq_of_toOrdinal hd hvalid
    rw [h, hvalid.toOrdinal_eq, hindex]
  rw [hsame]
  exact ⟨hindex, rfl⟩

/-! ## The code's calendar -/

/-- `floor_date` gives the first day of the period. -/
theorem floorDate_eq_ok {u : DurationUnit} {d s : Date} (hd : d.Valid)
    (h : floorDate d u = .ok s) : s.Valid ∧ s.toOrdinal = unitStart u (unitIndex u d) := by
  have hm := hd.month_pos
  have hm' := hd.month_le
  -- a month of the same year, on its first day
  have hfirst : ∀ i : Int, i / 12 = d.year → s = ⟨d.year, i % 12 + 1, 1⟩ →
      s.Valid ∧ s.toOrdinal = monthStart i + 1 := by
    intro i hyear hs
    have hlen := monthLength_bounds i
    obtain ⟨hvalid, hindex⟩ := valid_of_index i 1 le_rfl (by omega)
    rw [hyear] at hvalid hindex
    rw [hs]
    exact ⟨hvalid, by rw [hvalid.toOrdinal_eq, hindex]⟩
  cases u with
  | minute => cases h
  | hour => cases h
  | day =>
      obtain rfl := Except.ok.inj h
      exact ⟨hd, rfl⟩
  | week =>
      obtain ⟨hvalid, hordinal, -⟩ := addDays_eq_ok h
      refine ⟨hvalid, ?_⟩
      rw [hordinal, weekday]
      show _ = 7 * ((d.toOrdinal + 6) / 7) - 6
      omega
  | month =>
      obtain rfl := Except.ok.inj h
      have hresult := hfirst d.index hd.div_index (by rw [hd.mod_index])
      refine ⟨hresult.1, ?_⟩
      rw [hresult.2]
      show _ = monthStart (((1 : Nat) : Int) * (d.index / ((1 : Nat) : Int))) + 1
      simp
  | quarter =>
      obtain rfl := Except.ok.inj h
      have hresult := hfirst (3 * (d.index / 3)) (by simp only [index]; omega) (by
        simp only [index, Date.mk.injEq, true_and, and_true]
        omega)
      exact hresult
  | year =>
      obtain rfl := Except.ok.inj h
      have hresult := hfirst (12 * (d.index / 12)) (by simp only [index]; omega) (by
        simp only [index, Date.mk.injEq, true_and, and_true]
        omega)
      exact hresult

/-- From the first day of a period, a move back goes over whole periods. -/
theorem Moves.toOrdinal_back {o : Duration} {s z : Date} {i : Int} (hs : s.Valid)
    (hstart : s.toOrdinal = unitStart o.unit i) (hvalid : z.Valid) (hmoves : Moves s o (-1) z) :
    z.toOrdinal = unitStart o.unit (i - o.count) := by
  cases hmoves with
  | months k hk hindex hday =>
      obtain ⟨m, hm, rfl⟩ := Option.map_eq_some_iff.mp hk
      unfold unitStart at hstart ⊢
      rw [hm] at hstart ⊢
      obtain ⟨hfirst, hone⟩ := index_of_monthStart hs hstart
      have hlen := monthLength_bounds z.index
      have hzday : z.day = 1 := by
        rw [hday, hone]
        omega
      have hzindex : z.index = m * (i - o.count) := by
        rw [hindex, hfirst]
        push_cast
        ring
      rw [hvalid.toOrdinal_eq, hzday, hzindex]
  | days n hmonths hn hordinal =>
      rw [hordinal, hstart]
      unfold Duration.months at hmonths
      rw [Option.map_eq_none_iff] at hmonths
      unfold unitStart
      rw [hmonths]
      unfold Duration.days at hn
      cases hu : o.unit with
      | day =>
          rw [hu] at hn
          obtain rfl := Option.some.inj hn
          simp
          ring
      | week =>
          rw [hu] at hn
          obtain rfl := Option.some.inj hn
          simp
          ring
      | minute | hour => simp [hu] at hn
      | month | quarter | year => simp [hu, DurationUnit.months] at hmonths

/-- From the first day of a period, `add_to_date` steps back over whole periods, as far as the
calendar goes. -/
theorem addToDate_back {o : Duration} {s : Date} {i : Int}
    (hunit : DurationUnit.day.rank ≤ o.unit.rank) (hs : s.Valid)
    (hstart : s.toOrdinal = unitStart o.unit i) :
    ∃ z : Date, z.Valid ∧ z.toOrdinal = unitStart o.unit (i - o.count) ∧
      addToDate s o (-1) = z.checked := by
  have hmoves : o.months ≠ none ∨ o.days ≠ none := by
    unfold Duration.months Duration.days
    cases hu : o.unit <;> simp [hu, DurationUnit.rank, DurationUnit.months] at hunit ⊢
  obtain ⟨z, hvalid, hback, hz⟩ := addToDate_checked hs hmoves
  exact ⟨z, hvalid, hback.toOrdinal_back hs hstart hvalid, hz⟩

end Canonic
