import Canonic.Semantic.Calendar

set_option autoImplicit false

/-! # Time zones

A zone as the time zone database has it: an offset from UTC and the moments at which it changes.
Seconds are counted from the start of the day before 1 January of year 1, so that a day begins at
its ordinal times 86400. A wall clock time that is shown twice is read as the first of the two, and
one that is skipped with the offset before the change (`fold=0`).

Reading a wall clock time agrees with the clock at every instant when no change moves the clock over
that time: this is what decides whether the rows of a day are the rows up to its end. -/

namespace Canonic

/-- From `instant` on, in seconds of UTC, the clock is `offset` seconds ahead of UTC. -/
structure ClockChange where
  instant : Int
  offset : Int
  deriving DecidableEq, Repr

/-- The offset before the first change, and the changes in order. -/
structure Zone where
  initial : Int
  changes : List ClockChange
  ordered : changes.Pairwise fun a b => a.instant < b.instant

/-- The offset at an instant. -/
def offsetFrom (offset : Int) : List ClockChange → Int → Int
  | [], _ => offset
  | c :: cs, u => if c.instant ≤ u then offsetFrom c.offset cs u else offset

/-- The offset with which a wall clock time is read. -/
def wallOffsetFrom (offset : Int) : List ClockChange → Int → Int
  | [], _ => offset
  | c :: cs, w =>
      if c.instant + max offset c.offset ≤ w then wallOffsetFrom c.offset cs w else offset

/-- No change moves the clock over the end of a wall clock second. -/
def SteadyFrom (w : Int) (offset : Int) : List ClockChange → Prop
  | [] => True
  | c :: cs =>
      (c.instant + max offset c.offset ≤ w ∨ w < c.instant + min offset c.offset) ∧
        SteadyFrom w c.offset cs

namespace Zone

def offsetAt (z : Zone) (u : Int) : Int := offsetFrom z.initial z.changes u

def wallOffset (z : Zone) (w : Int) : Int := wallOffsetFrom z.initial z.changes w

/-- The clock passes the end of the second `w` once, and no change moves it over. -/
def Steady (z : Zone) (w : Int) : Prop := SteadyFrom w z.initial z.changes

/-- What the clock shows at an instant. -/
def wallAt (z : Zone) (u : Int) : Int := u + z.offsetAt u

/-- The instant at which a wall clock time is read. -/
def resolve (z : Zone) (w : Int) : Int := w - z.wallOffset w

end Zone

/-! ## Clocks -/

section

variable {w offset : Int}

theorem offsetFrom_of_lt {cs : List ClockChange} {u : Int} (h : ∀ c ∈ cs, u < c.instant) :
    offsetFrom offset cs u = offset := by
  cases cs with
  | nil => rfl
  | cons c cs =>
      have hc : ¬ c.instant ≤ u := not_le.mpr (h c List.mem_cons_self)
      rw [offsetFrom, if_neg hc]

/-- A clock past a time it is never moved over stays past it. -/
theorem wall_gt_of_steady {cs : List ClockChange} (hsteady : SteadyFrom w offset cs) {s : Int}
    (hs : w < s + offset) (hlater : ∀ c ∈ cs, s ≤ c.instant)
    (hordered : cs.Pairwise fun a b => a.instant < b.instant) {u : Int} (hu : s ≤ u) :
    w < u + offsetFrom offset cs u := by
  induction cs generalizing offset s with
  | nil =>
      rw [offsetFrom]
      omega
  | cons c cs ih =>
      rw [offsetFrom]
      split
      next hc =>
        have hsc : s ≤ c.instant := hlater c List.mem_cons_self
        -- before the change the clock is already past, so the change is not one up to `w`
        have hnext : w < c.instant + c.offset := by
          rcases hsteady.1 with h | h
          · omega
          · omega
        rw [List.pairwise_cons] at hordered
        exact ih hsteady.2 hnext (fun d hd => le_of_lt (hordered.1 d hd)) hordered.2 hc
      next hc => omega

/-- The instants up to the one a wall clock time is read at are those that show it or less. -/
theorem le_resolve_iff {cs : List ClockChange} (hsteady : SteadyFrom w offset cs)
    (hordered : cs.Pairwise fun a b => a.instant < b.instant) (u : Int) :
    u ≤ w - wallOffsetFrom offset cs w ↔ u + offsetFrom offset cs u ≤ w := by
  induction cs generalizing offset with
  | nil =>
      rw [wallOffsetFrom, offsetFrom]
      omega
  | cons c cs ih =>
      rw [List.pairwise_cons] at hordered
      have hcs := ih hsteady.2 hordered.2
      rw [wallOffsetFrom, offsetFrom]
      by_cases hpast : c.instant + max offset c.offset ≤ w
      · rw [if_pos hpast]
        by_cases hu : c.instant ≤ u
        · rw [if_pos hu]
          exact hcs
        · -- before a change that is past at `w`, both sides hold
          have hoff : offsetFrom c.offset cs u = c.offset := by
            apply offsetFrom_of_lt
            intro d hd
            have := hordered.1 d hd
            omega
          rw [hoff] at hcs
          rw [if_neg hu]
          omega
      · have hnext : w < c.instant + min offset c.offset := by
          rcases hsteady.1 with h | h
          · omega
          · exact h
        rw [if_neg hpast]
        by_cases hu : c.instant ≤ u
        · rw [if_pos hu]
          have hgt : w < u + offsetFrom c.offset cs u :=
            wall_gt_of_steady hsteady.2 (by omega) (fun d hd => le_of_lt (hordered.1 d hd))
              hordered.2 hu
          omega
        · rw [if_neg hu]
          omega

end

theorem Zone.le_resolve_iff {z : Zone} {w : Int} (h : z.Steady w) (u : Int) :
    u ≤ z.resolve w ↔ z.wallAt u ≤ w :=
  Canonic.le_resolve_iff h z.ordered u

/-! ## Days of a clock -/

/-- The seconds of a day. -/
def daySeconds : Int := 86400

/-- The day a clock shows. -/
def dayOf (wall : Int) : Date := Date.ofOrdinal (wall / daySeconds)

/-- The last second of a day. -/
def Date.lastSecond (d : Date) : Int := d.toOrdinal * daySeconds + (daySeconds - 1)

theorem toOrdinal_dayOf (wall : Int) : (dayOf wall).toOrdinal = wall / daySeconds :=
  (Date.ofOrdinal_spec _).2

theorem valid_dayOf (wall : Int) : (dayOf wall).Valid := (Date.ofOrdinal_spec _).1

theorem dayOf_le_iff {wall : Int} {d : Date} (hd : d.Valid) :
    dayOf wall ≤ d ↔ wall ≤ d.lastSecond := by
  rw [Date.le_iff_toOrdinal (valid_dayOf wall) hd, toOrdinal_dayOf, Date.lastSecond, daySeconds]
  omega

/-- An aware `datetime`: a day and a second of it on the wall clock of a zone. -/
structure ZonedTime where
  day : Date
  second : Int
  zone : Zone

namespace ZonedTime

def wall (t : ZonedTime) : Int := t.day.toOrdinal * daySeconds + t.second

def utcoffset (t : ZonedTime) : Int := t.zone.wallOffset t.wall

/-- In seconds of UTC. -/
def instant (t : ZonedTime) : Int := t.zone.resolve t.wall

theorem instant_eq (t : ZonedTime) : t.instant = t.wall - t.utcoffset := rfl

/-- `_format_offset`: `+HH:MM`, with the seconds where there are any. -/
def formatOffset (offset : Int) : String :=
  let n : Int := offset.natAbs
  (if offset < 0 then "-" else "+") ++ Date.padded 2 (n / 3600) ++ ":" ++
    Date.padded 2 (n / 60 % 60) ++ if n % 60 = 0 then "" else ":" ++ Date.padded 2 (n % 60)

/-- `isoformat(timespec="seconds")`. -/
def isoformat (t : ZonedTime) : String :=
  t.day.isoformat ++ "T" ++ Date.padded 2 (t.second / 3600) ++ ":" ++
    Date.padded 2 (t.second / 60 % 60) ++ ":" ++ Date.padded 2 (t.second % 60) ++
    formatOffset t.utcoffset

end ZonedTime

/-! ## Days as texts

The text of a day has one length, so days and their texts have the same order. -/

/-- The last `width` decimal digits of a number. -/
def fixedDigits : Nat → Nat → List Char
  | 0, _ => []
  | width + 1, n => fixedDigits width (n / 10) ++ [(n % 10).digitChar]

@[simp] theorem length_fixedDigits (width n : Nat) : (fixedDigits width n).length = width := by
  induction width generalizing n with
  | zero => rfl
  | succ width ih => simp [fixedDigits, ih]

theorem fixedDigits_zero (width : Nat) : fixedDigits width 0 = List.replicate width '0' := by
  induction width with
  | zero => rfl
  | succ width ih =>
      rw [fixedDigits, Nat.zero_div, ih, List.replicate_succ']
      rfl

theorem digitChar_lt {a b : Nat} (h : a < b) (hb : b < 10) : a.digitChar < b.digitChar := by
  interval_cases b <;> interval_cases a <;> decide

theorem fixedDigits_lt {width a b : Nat} (h : a < b) (hb : b < 10 ^ width) :
    fixedDigits width a < fixedDigits width b := by
  induction width generalizing a b with
  | zero => omega
  | succ width ih =>
      rw [fixedDigits, fixedDigits]
      rw [Nat.pow_succ] at hb
      rcases Nat.lt_or_eq_of_le (Nat.div_le_div_right h.le : a / 10 ≤ b / 10) with hlt | heq
      · apply append_lt_append (ih hlt (by omega))
        rw [length_fixedDigits, length_fixedDigits]
      · rw [heq]
        apply List.append_left_lt
        rw [List.cons_lt_cons_iff]
        exact Or.inl (digitChar_lt (by omega) (by omega))

theorem toList_padded {width : Nat} {n : Int} (hwidth : 0 < width) (hn : n.toNat < 10 ^ width) :
    (Date.padded width n).toList = fixedDigits width n.toNat := by
  have htext : (toString n.toNat : String).toList = Nat.toDigits 10 n.toNat := Nat.toList_repr
  have hlen : (toString n.toNat : String).length = (Nat.toDigits 10 n.toNat).length := by
    rw [← String.length_toList, htext]
  simp only [Date.padded, String.toList_append, String.toList_ofList, htext, hlen]
  generalize n.toNat = k at hn
  induction width generalizing k with
  | zero => omega
  | succ width ih =>
      rw [fixedDigits]
      by_cases hk : k < 10
      · rw [Nat.toDigits_of_lt_base hk, Nat.div_eq_of_lt hk, Nat.mod_eq_of_lt hk, fixedDigits_zero]
        rfl
      · have hwidth : 0 < width := by
          by_contra hzero
          obtain rfl : width = 0 := by omega
          omega
        rw [Nat.pow_succ] at hn
        rw [Nat.toDigits_of_base_le (by omega) (by omega), ← ih hwidth (k / 10) (by omega)]
        simp

theorem length_padded {width : Nat} {n : Int} (hwidth : 0 < width) (hn : n < 10 ^ width) :
    (Date.padded width n).toList.length = width := by
  rw [toList_padded hwidth, length_fixedDigits]
  have : (n.toNat : Int) < ((10 ^ width : Nat) : Int) := by
    push_cast
    have : (0 : Int) < 10 ^ width := by positivity
    omega
  exact_mod_cast this

theorem padded_lt {width : Nat} {a b : Int} (hwidth : 0 < width) (ha : 0 ≤ a) (h : a < b)
    (hb : b < 10 ^ width) : (Date.padded width a).toList < (Date.padded width b).toList := by
  have hb' : b.toNat < 10 ^ width := by
    zify
    omega
  rw [toList_padded hwidth (by omega), toList_padded hwidth hb']
  exact fixedDigits_lt (by omega) hb'

namespace Date

/-- The years `date` has. -/
def InRange (d : Date) : Prop := 1 ≤ d.year ∧ d.year ≤ 9999

theorem ordinal_bounds {d : Date} (hd : d.Valid) (h : d.InRange) :
    1 ≤ d.toOrdinal ∧ d.toOrdinal ≤ 3652059 := by
  constructor
  · exact hd.year_pos_iff.mp h.1
  · have hlast : Date.Valid ⟨9999, 12, 31⟩ := ⟨by decide, by decide, by decide, by decide⟩
    have hle : d ≤ ⟨9999, 12, 31⟩ := by
      have hyear := h.2
      have hmonth := hd.month_le
      have hday := hd.day_le
      have hlen := (Date.daysInMonth_bounds d.year d.month).2
      rintro (hlt | ⟨-, hlt | ⟨-, hlt⟩⟩)
      · simp only at hlt
        omega
      · simp only at hlt
        omega
      · simp only at hlt
        omega
    exact (Date.le_iff_toOrdinal hd hlast).mp hle

/-- A day of the calendar is one of Python's when its ordinal is. -/
theorem inRange_of_ordinal {d : Date} (hd : d.Valid) (hlow : 1 ≤ d.toOrdinal)
    (hhigh : d.toOrdinal ≤ 3652059) : d.InRange := by
  have hlast : (⟨9999, 12, 31⟩ : Date).Valid := ⟨by decide, by decide, by decide, by decide⟩
  refine ⟨hd.year_pos_iff.mpr hlow, ?_⟩
  by_contra hlate
  have hlt : (⟨9999, 12, 31⟩ : Date) < d := Or.inl (by simp only; omega)
  rw [lt_iff_toOrdinal hlast hd] at hlt
  have hordinal : (⟨9999, 12, 31⟩ : Date).toOrdinal = 3652059 := by decide
  omega

/-- An earlier day has an earlier text, whatever follows it. -/
theorem isoformat_append_lt {d e : Date} (hd : d.Valid) (he : e.Valid) (hyear : d.InRange)
    (hyear' : e.InRange) (h : d < e) (s t : String) : d.isoformat ++ s < e.isoformat ++ t := by
  have hmonth := hd.month_le
  have hmonth' := he.month_le
  have hpos := hd.month_pos
  have hday := (daysInMonth_bounds d.year d.month).2
  have hday' := (daysInMonth_bounds e.year e.month).2
  have hdpos := hd.day_pos
  have hdle := hd.day_le
  have hele := he.day_le
  simp only [InRange] at hyear hyear'
  rw [String.lt_iff_toList_lt]
  simp only [isoformat, String.toList_append, List.append_assoc]
  rcases h with h | ⟨hsame, h | ⟨hsame', h⟩⟩
  · apply append_lt_append (padded_lt (by omega) (by omega) h (by omega))
    rw [length_padded (by omega) (by omega), length_padded (by omega) (by omega)]
  · rw [hsame]
    apply List.append_left_lt
    apply List.append_left_lt
    apply append_lt_append (padded_lt (by omega) (by omega) h (by omega))
    rw [length_padded (by omega) (by omega), length_padded (by omega) (by omega)]
  · rw [hsame, hsame']
    apply List.append_left_lt
    apply List.append_left_lt
    apply List.append_left_lt
    apply List.append_left_lt
    apply append_lt_append (padded_lt (by omega) (by omega) h (by omega))
    rw [length_padded (by omega) (by omega), length_padded (by omega) (by omega)]

end Date

end Canonic
