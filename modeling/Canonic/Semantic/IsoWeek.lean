import Canonic.Semantic.Periods

set_option autoImplicit false

/-! # ISO weeks

`date.isocalendar` and `date.fromisocalendar`. The first week of a year is the one of its first
Thursday; a year has 53 weeks when the next one starts 371 days later. -/

namespace Canonic

open Date

/-- `_isoweek1monday`: the ordinal of the Monday that an ISO year starts on. -/
def isoWeek1Monday (year : Int) : Int :=
  let first := daysBeforeYear year + 1
  let firstWeekday := (first + 6) % 7
  if 3 < firstWeekday then first - firstWeekday + 7 else first - firstWeekday

/-- The year and the week of `date.isocalendar`. -/
def isocalendar (d : Date) : Int × Int :=
  let week := (d.toOrdinal - isoWeek1Monday d.year) / 7
  if week < 0 then
    (d.year - 1, (d.toOrdinal - isoWeek1Monday (d.year - 1)) / 7 + 1)
  else if 52 ≤ week ∧ isoWeek1Monday (d.year + 1) ≤ d.toOrdinal then (d.year + 1, 1)
  else (d.year, week + 1)

/-- A year with a week 53. -/
def isoLongYear (year : Int) : Bool :=
  let firstWeekday := (daysBeforeYear year + 1) % 7
  firstWeekday = 4 || (firstWeekday = 3 && isLeap year)

/-- `date.fromisocalendar(year, week, 1)`; `none` is a `ValueError`. -/
def fromIsoCalendar (year week : Int) : Option Date :=
  if ¬ (1 ≤ year ∧ year ≤ 9999) then none
  else if ¬ (0 < week ∧ week < 53) ∧ ¬ (week = 53 ∧ isoLongYear year = true) then none
  else
    let monday := ofOrdinal (isoWeek1Monday year + (week - 1) * 7)
    if 1 ≤ monday.year ∧ monday.year ≤ 9999 then some monday else none

theorem daysBeforeYear_next (y : Int) :
    daysBeforeYear (y + 1) = daysBeforeYear y + 365 + if isLeap y then 1 else 0 := by
  rw [daysBeforeYear_succ, daysInYear, add_assoc]

theorem isoWeek1Monday_bounds (y : Int) : isoWeek1Monday y % 7 = 1 ∧
    daysBeforeYear y - 2 ≤ isoWeek1Monday y ∧ isoWeek1Monday y ≤ daysBeforeYear y + 4 := by
  simp only [isoWeek1Monday]
  split <;> omega

/-- An ISO year has 52 weeks, or 53 when it is a long one. -/
theorem isoWeek1Monday_succ (y : Int) : isoWeek1Monday (y + 1) =
    isoWeek1Monday y + 364 + if isoLongYear y then 7 else 0 := by
  simp only [isoWeek1Monday, isoLongYear, daysBeforeYear_next, Bool.or_eq_true, Bool.and_eq_true,
    decide_eq_true_eq]
  cases isLeap y with
  | true =>
      simp only [if_true, and_true]
      split <;> split <;> split <;> omega
  | false =>
      simp only [Bool.false_eq_true, if_false, and_false, or_false]
      split <;> split <;> split <;> omega

theorem unitStart_year (y : Int) : unitStart .year y = daysBeforeYear y + 1 := by
  have hyear : (12 * y) / 12 = y := by omega
  have hmonth : (12 * y) % 12 = 0 := by omega
  have hzero : daysBeforeMonth y ((0 : Int) + 1).toNat = 0 := rfl
  show monthStart (((12 : Nat) : Int) * y) + 1 = _
  simp only [monthStart, Nat.cast_ofNat, hyear, hmonth]
  omega

/-- A day is in the year of its number. -/
theorem year_eq_iff {d : Date} (hd : d.Valid) {y : Int} : d.year = y ↔
    daysBeforeYear y < d.toOrdinal ∧ d.toOrdinal ≤ daysBeforeYear (y + 1) := by
  have hindex : unitIndex .year d = d.year := hd.div_index
  rw [← hindex, unitIndex_eq_iff .year hd, unitStart_year, unitStart_year]
  omega

theorem fromIsoCalendar_eq_some {year week : Int} {d : Date} (hd : d.Valid) (hrange : d.InRange)
    (hyear : 1 ≤ year ∧ year ≤ 9999)
    (hweek : 0 < week ∧ week < 53 ∨ week = 53 ∧ isoLongYear year = true)
    (hordinal : isoWeek1Monday year + (week - 1) * 7 = d.toOrdinal) :
    fromIsoCalendar year week = some d := by
  have hsame : ofOrdinal (isoWeek1Monday year + (week - 1) * 7) = d := by
    apply eq_of_toOrdinal (ofOrdinal_spec _).1 hd
    rw [(ofOrdinal_spec _).2, hordinal]
  have hweek' : ¬ (¬ (0 < week ∧ week < 53) ∧ ¬ (week = 53 ∧ isoLongYear year = true)) := by
    rintro ⟨h₁, h₂⟩
    exact hweek.elim h₁ h₂
  unfold fromIsoCalendar
  rw [if_neg (not_not.mpr hyear), if_neg hweek']
  simp only [hsame]
  exact if_pos hrange

theorem fromIsoCalendar_bounds {year week : Int} {d : Date}
    (h : fromIsoCalendar year week = some d) :
    (1 ≤ year ∧ year ≤ 9999) ∧ 1 ≤ week ∧ week ≤ 53 := by
  unfold fromIsoCalendar at h
  split at h
  · cases h
  next hyear =>
    split at h
    · cases h
    next hweek =>
      refine ⟨not_not.mp hyear, ?_⟩
      by_cases hin : 0 < week ∧ week < 53
      · omega
      · have hlong := not_not.mp fun hno => hweek ⟨hin, hno⟩
        omega

/-- A Monday is the one of its ISO week. -/
theorem fromIsoCalendar_isocalendar {d : Date} (hd : d.Valid) (hrange : d.InRange)
    (hmonday : d.weekday = 0) :
    fromIsoCalendar (isocalendar d).1 (isocalendar d).2 = some d := by
  have hyear := (year_eq_iff hd).mp rfl
  have hw := isoWeek1Monday_bounds d.year
  have hw' := isoWeek1Monday_bounds (d.year + 1)
  have hnext := isoWeek1Monday_succ d.year
  have hone : 1 ≤ d.year := hrange.1
  have hlast : d.year ≤ 9999 := hrange.2
  unfold weekday at hmonday
  simp only [isocalendar]
  by_cases hbefore : (d.toOrdinal - isoWeek1Monday d.year) / 7 < 0
  · -- the Monday before the first week of a year is in the year before
    omega
  · rw [if_neg hbefore]
    by_cases hafter : 52 ≤ (d.toOrdinal - isoWeek1Monday d.year) / 7 ∧
        isoWeek1Monday (d.year + 1) ≤ d.toOrdinal
    · rw [if_pos hafter]
      have hend : d.year ≠ 9999 := by
        intro h
        have hlong : isoWeek1Monday (9999 + 1) = 3652062 := by decide
        have hdays : daysBeforeYear (9999 + 1) = 3652059 := by decide
        rw [h, hlong] at hafter
        rw [h, hdays] at hyear
        omega
      apply fromIsoCalendar_eq_some hd hrange (by omega) (Or.inl (by omega))
      show isoWeek1Monday (d.year + 1) + (1 - 1) * 7 = _
      omega
    · rw [if_neg hafter]
      apply fromIsoCalendar_eq_some hd hrange ⟨hone, hlast⟩
      · cases hlong : isoLongYear d.year with
        | true =>
            rw [hlong, if_pos rfl] at hnext
            simp only [and_true]
            omega
        | false =>
            rw [hlong, if_neg (by decide)] at hnext
            omega
      · show isoWeek1Monday d.year + ((d.toOrdinal - isoWeek1Monday d.year) / 7 + 1 - 1) * 7 = _
        omega

/-- The Monday of an ISO week has the year and the number of that week. -/
theorem isocalendar_fromIsoCalendar {year week : Int} {d : Date}
    (h : fromIsoCalendar year week = some d) :
    d.Valid ∧ d.InRange ∧ d.weekday = 0 ∧ isocalendar d = (year, week) ∧
      d.toOrdinal = isoWeek1Monday year + (week - 1) * 7 ∧ 1 ≤ week ∧
      d.toOrdinal + 7 ≤ isoWeek1Monday (year + 1) := by
  unfold fromIsoCalendar at h
  by_cases hyear : 1 ≤ year ∧ year ≤ 9999
  · rw [if_neg (not_not.mpr hyear)] at h
    by_cases hweek : ¬ (0 < week ∧ week < 53) ∧ ¬ (week = 53 ∧ isoLongYear year = true)
    · rw [if_pos hweek] at h
      cases h
    · rw [if_neg hweek] at h
      simp only at h
      split at h
      next hrange =>
        obtain rfl := Option.some.inj h
        obtain ⟨hvalid, hordinal⟩ := ofOrdinal_spec (isoWeek1Monday year + (week - 1) * 7)
        generalize ofOrdinal (isoWeek1Monday year + (week - 1) * 7) = d at hvalid hordinal hrange
        have hw := isoWeek1Monday_bounds year
        have hnext := isoWeek1Monday_succ year
        have hbefore := isoWeek1Monday_succ (year - 1)
        rw [sub_add_cancel] at hbefore
        have hb := daysBeforeYear_next year
        have hb' := daysBeforeYear_next (year - 1)
        rw [sub_add_cancel] at hb'
        have hw' := isoWeek1Monday_bounds (year + 1)
        have hend : d.toOrdinal + 7 ≤ isoWeek1Monday (year + 1) := by
          cases hlong : isoLongYear year with
          | true =>
              rw [hlong, if_pos rfl] at hnext
              omega
          | false =>
              rw [hlong] at hweek hnext
              simp only [Bool.false_eq_true, and_false, not_false_eq_true, and_true,
                if_false] at hweek hnext
              omega
        refine ⟨hvalid, hrange, by unfold weekday; omega, ?_, hordinal, by omega, hend⟩
        by_cases hin : daysBeforeYear year < d.toOrdinal
        · have hdyear : d.year = year := (year_eq_iff hvalid).mpr ⟨hin, by omega⟩
          simp only [isocalendar, hdyear]
          rw [if_neg (by omega), if_neg (by omega), Prod.mk.injEq]
          exact ⟨rfl, by omega⟩
        · -- the Monday of the first week is in the year before
          have hdyear : d.year = year - 1 := by
            rw [year_eq_iff hvalid, sub_add_cancel]
            omega
          simp only [isocalendar, hdyear, sub_add_cancel]
          rw [if_neg (by omega), if_pos (by omega), Prod.mk.injEq]
          exact ⟨rfl, by omega⟩
      next => cases h
  · rw [if_pos hyear] at h
    cases h

end Canonic
