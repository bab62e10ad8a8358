import Canonic.Semantic.Periods

set_option autoImplicit false

/-! # Periods of a time dimension

`period_end` and `floor_to_grain` of `trust/periods.py`. The periods of a grain follow each other
without a gap: the number of the period that a moment is in and the instant at which a number starts
determine each other. -/

namespace Canonic

open Date

/-! ## Moments -/

/-- A naive `datetime`. -/
structure Moment where
  day : Date
  hour : Int
  minute : Int
  second : Int
  microsecond : Int
  deriving DecidableEq, Repr

def hourMicros : Int := 3600000000

def dayMicros : Int := 86400000000

namespace Moment

/-- Microseconds since the start of the day before 1 January of year 1. -/
def instant (m : Moment) : Int :=
  m.day.toOrdinal * dayMicros +
    (((m.hour * 60 + m.minute) * 60 + m.second) * 1000000 + m.microsecond)

/-- The moment of an instant. -/
def ofInstant (n : Int) : Moment :=
  { day := ofOrdinal (n / dayMicros)
    hour := n % dayMicros / hourMicros
    minute := n % hourMicros / 60000000
    second := n % 60000000 / 1000000
    microsecond := n % 1000000 }

/-- Python's bounds on a `datetime`. -/
def checked (m : Moment) : Except Err Moment :=
  if 1 ≤ m.day.year ∧ m.day.year ≤ 9999 then .ok m
  else .error (.internal "date value out of range")

/-- `moment + timedelta(microseconds=n)`. -/
def add (m : Moment) (n : Int) : Except Err Moment := checked (ofInstant (m.instant + n))

/-- `moment.replace(hour=0, minute=0, second=0, microsecond=0)`. -/
def midnight (m : Moment) : Moment := ⟨m.day, 0, 0, 0, 0⟩

/-- A moment of the calendar and the clock. -/
structure Valid (m : Moment) : Prop where
  day : m.day.Valid
  year : m.day.InRange
  hour : 0 ≤ m.hour ∧ m.hour < 24
  minute : 0 ≤ m.minute ∧ m.minute < 60
  second : 0 ≤ m.second ∧ m.second < 60
  microsecond : 0 ≤ m.microsecond ∧ m.microsecond < 1000000

theorem valid_iff {m : Moment} : m.Valid ↔
    ((1 ≤ m.day.month ∧ m.day.month ≤ 12) ∧
      1 ≤ m.day.day ∧ m.day.day ≤ Date.daysInMonth m.day.year m.day.month) ∧
    (1 ≤ m.day.year ∧ m.day.year ≤ 9999) ∧ (0 ≤ m.hour ∧ m.hour < 24) ∧
    (0 ≤ m.minute ∧ m.minute < 60) ∧ (0 ≤ m.second ∧ m.second < 60) ∧
    0 ≤ m.microsecond ∧ m.microsecond < 1000000 := by
  constructor
  · intro h
    exact ⟨⟨⟨h.day.month_pos, h.day.month_le⟩, h.day.day_pos, h.day.day_le⟩, h.year, h.hour,
      h.minute, h.second, h.microsecond⟩
  · rintro ⟨⟨⟨h₁, h₂⟩, h₃, h₄⟩, hyear, hhour, hminute, hsecond, hmicro⟩
    exact ⟨⟨h₁, h₂, h₃, h₄⟩, hyear, hhour, hminute, hsecond, hmicro⟩

instance (m : Moment) : Decidable m.Valid := decidable_of_iff _ valid_iff.symm

instance : LT Moment := ⟨fun a b => a.instant < b.instant⟩

instance : LE Moment := ⟨fun a b => a.instant ≤ b.instant⟩

theorem lt_iff {a b : Moment} : a < b ↔ a.instant < b.instant := Iff.rfl

theorem le_iff {a b : Moment} : a ≤ b ↔ a.instant ≤ b.instant := Iff.rfl

end Moment

/-! ## The code -/

/-- The grain of a period (`PERIOD_GRAINS`). -/
inductive PeriodGrain where
  | hour | day | week | month | quarter | year
  deriving DecidableEq, Repr

def PeriodGrain.value : PeriodGrain → String
  | hour => "hour" | day => "day" | week => "week" | month => "month" | quarter => "quarter"
  | year => "year"

def PeriodGrain.unit : PeriodGrain → DurationUnit
  | hour => .hour | day => .day | week => .week | month => .month | quarter => .quarter
  | year => .year

/-- `period_end` of a grain of so many months: the first day of the month after the period. -/
def monthsEnd (start : Moment) (months : Int) : Except Err Moment :=
  let index := start.day.year * 12 + (start.day.month - 1) + months
  Moment.checked { start with day := ⟨index / 12, index % 12 + 1, 1⟩ }

/-- `period_end`: the first instant after the period that begins at `start`. -/
def periodEnd (start : Moment) (grain : PeriodGrain) : Except Err Moment :=
  match grain with
  | .hour => start.add hourMicros
  | .day => start.add dayMicros
  | .week => start.add (7 * dayMicros)
  | .month => monthsEnd start 1
  | .quarter => monthsEnd start 3
  | .year => monthsEnd start 12

/-- `floor_to_grain`: the start of the period that contains a moment. -/
def floorToGrain (moment : Moment) (grain : PeriodGrain) : Except Err Moment :=
  let day := moment.midnight
  match grain with
  | .hour => .ok { moment with minute := 0, second := 0, microsecond := 0 }
  | .day => .ok day
  | .week => day.add (-(day.day.weekday * dayMicros))
  | .month => .ok { day with day := { day.day with day := 1 } }
  | .quarter => .ok { day with day := ⟨day.day.year, 3 * ((day.day.month - 1) / 3) + 1, 1⟩ }
  | .year => .ok { day with day := ⟨day.day.year, 1, 1⟩ }

/-! ## Numbered periods -/

namespace Moment

theorem eq_of_instant {a b : Moment} (ha : a.Valid) (hb : b.Valid) (h : a.instant = b.instant) :
    a = b := by
  have hah := ha.hour
  have ham := ha.minute
  have has := ha.second
  have hau := ha.microsecond
  have hbh := hb.hour
  have hbm := hb.minute
  have hbs := hb.second
  have hbu := hb.microsecond
  unfold instant dayMicros at h
  have hday : a.day = b.day := eq_of_toOrdinal ha.day hb.day (by omega)
  rw [hday] at h
  obtain ⟨d, h₁, h₂, h₃, h₄⟩ := a
  obtain ⟨d', h₁', h₂', h₃', h₄'⟩ := b
  simp only [Moment.mk.injEq]
  simp only at *
  refine ⟨hday, ?_, ?_, ?_, ?_⟩ <;> omega

theorem toOrdinal_ofInstant (n : Int) : (ofInstant n).day.toOrdinal = n / dayMicros :=
  (ofOrdinal_spec _).2

theorem instant_ofInstant (n : Int) : (ofInstant n).instant = n := by
  unfold instant ofInstant dayMicros hourMicros
  simp only [(ofOrdinal_spec _).2]
  omega

theorem valid_ofInstant {n : Int} (h : (ofInstant n).day.InRange) : (ofInstant n).Valid := by
  refine ⟨(ofOrdinal_spec _).1, h, ?_, ?_, ?_, ?_⟩ <;>
    · unfold ofInstant
      simp only [dayMicros, hourMicros]
      omega

theorem checked_eq_ok {m m' : Moment} (h : m.checked = .ok m') : m' = m ∧ m.day.InRange := by
  unfold checked at h
  split at h
  next hyear => exact ⟨(Except.ok.inj h).symm, hyear⟩
  next => cases h

theorem add_eq_ok {m m' : Moment} {n : Int} (h : m.add n = .ok m') :
    m'.Valid ∧ m'.instant = m.instant + n := by
  obtain ⟨rfl, hyear⟩ := checked_eq_ok h
  exact ⟨valid_ofInstant hyear, instant_ofInstant _⟩

/-- The time of day of a valid moment is less than a day. -/
theorem Valid.instant_bounds {m : Moment} (h : m.Valid) :
    m.day.toOrdinal * dayMicros ≤ m.instant ∧ m.instant < (m.day.toOrdinal + 1) * dayMicros := by
  have h₁ := h.hour
  have h₂ := h.minute
  have h₃ := h.second
  have h₄ := h.microsecond
  unfold instant dayMicros
  omega

end Moment

/-- The instant at which a period starts. -/
def periodStart (g : PeriodGrain) (i : Int) : Int :=
  if g = .hour then i * hourMicros else unitStart g.unit i * dayMicros

/-- The number of the period that a moment is in. -/
def periodNumber (g : PeriodGrain) (m : Moment) : Int :=
  if g = .hour then m.instant / hourMicros else unitIndex g.unit m.day

theorem periodStart_lt (g : PeriodGrain) {i j : Int} (h : i < j) :
    periodStart g i < periodStart g j := by
  unfold periodStart
  by_cases hg : g = .hour
  · rw [if_pos hg, if_pos hg, hourMicros]
    omega
  · have := unitStart_lt g.unit h
    rw [if_neg hg, if_neg hg, dayMicros]
    omega

theorem periodStart_le_iff (g : PeriodGrain) {i j : Int} :
    periodStart g i ≤ periodStart g j ↔ i ≤ j := by
  constructor
  · intro h
    by_contra hlt
    have := periodStart_lt g (not_le.mp hlt)
    omega
  · intro h
    rcases h.lt_or_eq with hlt | rfl
    · exact (periodStart_lt g hlt).le
    · exact le_rfl

theorem periodNumber_spec (g : PeriodGrain) {m : Moment} (hm : m.Valid) :
    periodStart g (periodNumber g m) ≤ m.instant ∧
      m.instant < periodStart g (periodNumber g m + 1) := by
  unfold periodStart periodNumber
  by_cases hg : g = .hour
  · rw [if_pos hg, if_pos hg, if_pos hg, hourMicros]
    omega
  · have hday := hm.instant_bounds
    have hspec := unitIndex_spec g.unit hm.day
    rw [if_neg hg, if_neg hg, if_neg hg]
    unfold dayMicros at hday ⊢
    omega

/-- A moment is in a period exactly from its start up to the start of the next. -/
theorem periodNumber_eq_iff (g : PeriodGrain) {m : Moment} (hm : m.Valid) {i : Int} :
    periodNumber g m = i ↔ periodStart g i ≤ m.instant ∧ m.instant < periodStart g (i + 1) := by
  have hspec := periodNumber_spec g hm
  constructor
  · rintro rfl
    exact hspec
  · rintro ⟨hlow, hhigh⟩
    have hle : i < periodNumber g m + 1 := by
      by_contra h
      have := (periodStart_le_iff g).mpr (not_lt.mp h)
      omega
    have hge : periodNumber g m < i + 1 := by
      by_contra h
      have := (periodStart_le_iff g).mpr (not_lt.mp h)
      omega
    omega

/-- The instant of a moment at the start of a day. -/
theorem instant_midnight (m : Moment) : m.midnight.instant = m.day.toOrdinal * dayMicros := by
  show m.day.toOrdinal * dayMicros + (((0 * 60 + 0) * 60 + 0) * 1000000 + 0) = _
  omega

theorem valid_midnight {m : Moment} {d : Date} (hd : d.Valid) (hyear : d.InRange) :
    ({ m.midnight with day := d } : Moment).Valid :=
  ⟨hd, hyear, ⟨le_rfl, show (0 : Int) < 24 by decide⟩, ⟨le_rfl, show (0 : Int) < 60 by decide⟩,
    ⟨le_rfl, show (0 : Int) < 60 by decide⟩, ⟨le_rfl, show (0 : Int) < 1000000 by decide⟩⟩

/-- `floor_to_grain` gives the start of the period. -/
theorem floorToGrain_eq_ok {g : PeriodGrain} {m s : Moment} (hm : m.Valid)
    (h : floorToGrain m g = .ok s) : s.Valid ∧ s.instant = periodStart g (periodNumber g m) := by
  have hday : ∀ d : Date, g ≠ .hour → floorDate m.day g.unit = .ok d → d.InRange →
      ({ m.midnight with day := d } : Moment).Valid ∧
        ({ m.midnight with day := d } : Moment).instant = periodStart g (periodNumber g m) := by
    intro d hg hd hyear
    obtain ⟨hvalid, hordinal⟩ := floorDate_eq_ok hm.day hd
    refine ⟨valid_midnight hvalid hyear, ?_⟩
    have hinstant : ({ m.midnight with day := d } : Moment).instant = d.toOrdinal * dayMicros :=
      instant_midnight ⟨d, 0, 0, 0, 0⟩
    rw [hinstant, periodStart, periodNumber, if_neg hg, if_neg hg, hordinal]
  cases g with
  | hour =>
      obtain rfl := Except.ok.inj h
      have hminute := hm.minute
      have hsecond := hm.second
      have hmicro := hm.microsecond
      refine ⟨⟨hm.day, hm.year, hm.hour, ⟨le_rfl, show (0 : Int) < 60 by decide⟩,
        ⟨le_rfl, show (0 : Int) < 60 by decide⟩, ⟨le_rfl, show (0 : Int) < 1000000 by decide⟩⟩, ?_⟩
      show _ = m.instant / hourMicros * hourMicros
      unfold Moment.instant hourMicros dayMicros
      simp only
      omega
  | day =>
      obtain rfl := Except.ok.inj h
      exact hday m.day (by decide) rfl hm.year
  | week =>
      obtain ⟨hvalid, hinstant⟩ := Moment.add_eq_ok h
      refine ⟨hvalid, ?_⟩
      rw [hinstant, instant_midnight]
      show _ = (7 * ((m.day.toOrdinal + 6) / 7) - 6) * dayMicros
      have hweekday : m.midnight.day.weekday = (m.day.toOrdinal + 6) % 7 := rfl
      rw [hweekday, dayMicros]
      omega
  | month | quarter | year =>
      obtain rfl := Except.ok.inj h
      exact hday _ (by decide) rfl hm.year

theorem Moment.checked_of_inRange {m : Moment} (h : m.day.InRange) : m.checked = .ok m := if_pos h

/-- `floor_to_grain` returns. -/
theorem floorToGrain_exists (g : PeriodGrain) {m : Moment} (hm : m.Valid) :
    ∃ s, floorToGrain m g = .ok s := by
  cases g with
  | hour | day | month | quarter | year => exact ⟨_, rfl⟩
  | week =>
      have hbounds := ordinal_bounds hm.day hm.year
      have hinstant : m.midnight.instant + -(m.midnight.day.weekday * dayMicros) =
          (7 * ((m.day.toOrdinal + 6) / 7) - 6) * dayMicros := by
        have hweekday : m.midnight.day.weekday = (m.day.toOrdinal + 6) % 7 := rfl
        rw [instant_midnight, hweekday, dayMicros]
        omega
      refine ⟨_, Moment.checked_of_inRange (inRange_of_ordinal (ofOrdinal_spec _).1 ?_ ?_)⟩
      · rw [Moment.toOrdinal_ofInstant, hinstant, dayMicros]
        omega
      · rw [Moment.toOrdinal_ofInstant, hinstant, dayMicros]
        omega

/-- A moment at which no time of its day has passed. -/
theorem Moment.Valid.time_eq_zero {m : Moment} (h : m.Valid) {n : Int}
    (hn : m.instant = n * dayMicros) : m.day.toOrdinal = n ∧ m = m.midnight := by
  have hday := h.instant_bounds
  have h₁ := h.hour
  have h₂ := h.minute
  have h₃ := h.second
  have h₄ := h.microsecond
  unfold Moment.instant dayMicros at *
  have hordinal : m.day.toOrdinal = n := by omega
  refine ⟨hordinal, ?_⟩
  obtain ⟨d, h, mi, sec, mu⟩ := m
  simp only [Moment.midnight, Moment.mk.injEq, true_and]
  simp only at *
  omega

/-- From the start of a period, `period_end` gives the start of the next. -/
theorem periodEnd_eq_ok {g : PeriodGrain} {s e : Moment} {i : Int} (hs : s.Valid)
    (hstart : s.instant = periodStart g i) (h : periodEnd s g = .ok e) :
    e.Valid ∧ e.instant = periodStart g (i + 1) := by
  have hadd : ∀ n, s.add n = .ok e → periodStart g i + n = periodStart g (i + 1) →
      e.Valid ∧ e.instant = periodStart g (i + 1) := by
    intro n hn hnext
    obtain ⟨hvalid, hinstant⟩ := Moment.add_eq_ok hn
    exact ⟨hvalid, by rw [hinstant, hstart, hnext]⟩
  have hmonths : ∀ k : Nat, g ≠ .hour → g.unit.months = some k → monthsEnd s k = .ok e →
      e.Valid ∧ e.instant = periodStart g (i + 1) := by
    intro k hg hk hn
    rw [periodStart, if_neg hg] at hstart
    obtain ⟨hordinal, hmidnight⟩ := hs.time_eq_zero hstart
    rw [unitStart_months hk] at hordinal
    obtain ⟨hindex, -⟩ := index_of_monthStart hs.day hordinal
    obtain ⟨rfl, hyear⟩ := Moment.checked_eq_ok hn
    have hlen := monthLength_bounds (s.day.index + k)
    obtain ⟨hvalid, hnext⟩ := valid_of_index (s.day.index + k) 1 le_rfl (by omega)
    rw [hmidnight]
    refine ⟨valid_midnight hvalid hyear, ?_⟩
    have hfirst : (⟨(s.day.index + k) / 12, (s.day.index + k) % 12 + 1, 1⟩ : Date).toOrdinal =
        unitStart g.unit (i + 1) := by
      rw [hvalid.toOrdinal_eq, hnext, unitStart_months hk, hindex, mul_add, mul_one]
    rw [periodStart, if_neg hg, ← hfirst]
    exact instant_midnight ⟨_, 0, 0, 0, 0⟩
  cases g with
  | hour =>
      apply hadd _ h
      show i * hourMicros + hourMicros = (i + 1) * hourMicros
      ring
  | day =>
      apply hadd _ h
      show i * dayMicros + dayMicros = (i + 1) * dayMicros
      ring
  | week =>
      apply hadd _ h
      show (7 * i - 6) * dayMicros + 7 * dayMicros = (7 * (i + 1) - 6) * dayMicros
      ring
  | month => exact hmonths 1 (by decide) rfl h
  | quarter => exact hmonths 3 (by decide) rfl h
  | year => exact hmonths 12 (by decide) rfl h

/-- Before the last year, a week more is in the calendar. -/
theorem Moment.add_exists {s : Moment} (hs : s.Valid) (hyear : s.day.year < 9999) {n : Int}
    (hpos : 0 ≤ n) (hle : n ≤ 7 * dayMicros) : ∃ e, s.add n = .ok e := by
  have hlow := (ordinal_bounds hs.day hs.year).1
  have hhigh : s.day.toOrdinal < 3651695 := by
    have hlast : (⟨9999, 1, 1⟩ : Date).Valid := ⟨by decide, by decide, by decide, by decide⟩
    have hlt : s.day < ⟨9999, 1, 1⟩ := Or.inl hyear
    exact (lt_iff_toOrdinal hs.day hlast).mp hlt
  have hday := hs.instant_bounds
  unfold dayMicros at hle hday
  refine ⟨_, Moment.checked_of_inRange (inRange_of_ordinal (ofOrdinal_spec _).1 ?_ ?_)⟩
  · rw [Moment.toOrdinal_ofInstant, dayMicros]
    omega
  · rw [Moment.toOrdinal_ofInstant, dayMicros]
    omega

/-- `period_end` returns before the last year. -/
theorem periodEnd_exists (g : PeriodGrain) {s : Moment} (hs : s.Valid) (hyear : s.day.year < 9999) :
    ∃ e, periodEnd s g = .ok e := by
  have hmonths : ∀ k : Int, 0 ≤ k → k ≤ 12 → ∃ e, monthsEnd s k = .ok e := by
    intro k hpos hle
    have hm := hs.day.month_pos
    have hm' := hs.day.month_le
    have hpast := hs.year.1
    refine ⟨_, Moment.checked_of_inRange ⟨?_, ?_⟩⟩
    · show 1 ≤ (s.day.year * 12 + (s.day.month - 1) + k) / 12
      omega
    · show (s.day.year * 12 + (s.day.month - 1) + k) / 12 ≤ 9999
      omega
  cases g with
  | hour => exact Moment.add_exists hs hyear (by decide) (by decide)
  | day => exact Moment.add_exists hs hyear (by decide) (by decide)
  | week => exact Moment.add_exists hs hyear (by decide) (by decide)
  | month => exact hmonths 1 (by decide) (by decide)
  | quarter => exact hmonths 3 (by decide) (by decide)
  | year => exact hmonths 12 (by decide) (by decide)

/-! ## Periods partition time -/

/-- The start of a period is floored to itself. -/
theorem floorToGrain_start {g : PeriodGrain} {s : Moment} {i : Int} (hs : s.Valid)
    (hstart : s.instant = periodStart g i) : periodNumber g s = i ∧ floorToGrain s g = .ok s := by
  have hindex : periodNumber g s = i := by
    rw [periodNumber_eq_iff g hs, hstart]
    exact ⟨le_rfl, periodStart_lt g (by omega)⟩
  obtain ⟨t, ht⟩ := floorToGrain_exists g hs
  obtain ⟨hvalid, hinstant⟩ := floorToGrain_eq_ok hs ht
  rw [hindex, ← hstart] at hinstant
  exact ⟨hindex, by rw [ht, Moment.eq_of_instant hvalid hs hinstant]⟩

/-- A moment is floored to the start of the period it is in. -/
theorem floorToGrain_iff {g : PeriodGrain} {m s : Moment} {i : Int} (hm : m.Valid) (hs : s.Valid)
    (hstart : s.instant = periodStart g i) :
    floorToGrain m g = .ok s ↔ s.instant ≤ m.instant ∧ m.instant < periodStart g (i + 1) := by
  rw [hstart, ← periodNumber_eq_iff g hm]
  constructor
  · intro h
    obtain ⟨-, hinstant⟩ := floorToGrain_eq_ok hm h
    rw [hstart] at hinstant
    exact le_antisymm ((periodStart_le_iff g).mp hinstant.ge)
      ((periodStart_le_iff g).mp hinstant.le)
  · rintro rfl
    obtain ⟨t, ht⟩ := floorToGrain_exists g hm
    obtain ⟨hvalid, hinstant⟩ := floorToGrain_eq_ok hm ht
    rw [ht, Moment.eq_of_instant hvalid hs (hinstant.trans hstart.symm)]

/-- The start of a period is not in a later year. -/
theorem year_floorToGrain {g : PeriodGrain} {m s : Moment} (hm : m.Valid) {year : Int}
    (hyear : m.day.year < year) (h : floorToGrain m g = .ok s) : s.day.year < year := by
  obtain ⟨hs, hstart⟩ := floorToGrain_eq_ok hm h
  have hspec := periodNumber_spec g hm
  have hsday := hs.instant_bounds
  have hmday := hm.instant_bounds
  rw [← hstart] at hspec
  have hle : s.day ≤ m.day := by
    rw [le_iff_toOrdinal hs.day hm.day]
    unfold dayMicros at hsday hmday
    omega
  have hnot : ¬ (m.day.year < s.day.year ∨ _) := hle
  omega

/-- The period of a moment starts at its floor and ends where the next starts. -/
structure InPeriod (g : PeriodGrain) (m s e : Moment) : Prop where
  floor : floorToGrain m g = .ok s
  ends : periodEnd s g = .ok e
  starts_le : s ≤ m
  lt_ends : m < e
  /-- The floor is its own floor. -/
  idempotent : floorToGrain s g = .ok s
  /-- Every moment of the period has the same floor. -/
  constant : ∀ m' : Moment, m'.Valid → s ≤ m' → m' < e → floorToGrain m' g = .ok s
  /-- The end starts a period, and no period starts in between. -/
  next : floorToGrain e g = .ok e ∧
    ∀ t : Moment, t.Valid → floorToGrain t g = .ok t → s < t → e ≤ t

theorem inPeriod_of_valid (g : PeriodGrain) {m : Moment} (hm : m.Valid)
    (hyear : m.day.year < 9999) : ∃ s e, InPeriod g m s e := by
  obtain ⟨s, hfloor⟩ := floorToGrain_exists g hm
  obtain ⟨hs, hstart⟩ := floorToGrain_eq_ok hm hfloor
  have hspec := periodNumber_spec g hm
  have hbefore := year_floorToGrain hm hyear hfloor
  obtain ⟨e, hend⟩ := periodEnd_exists g hs hbefore
  obtain ⟨he, hnext⟩ := periodEnd_eq_ok hs hstart hend
  have hiff := fun {m' : Moment} (hm' : m'.Valid) => @floorToGrain_iff g m' s _ hm' hs hstart
  refine ⟨s, e, hfloor, hend, ?_, ?_, (floorToGrain_start hs hstart).2, ?_,
    (floorToGrain_start he hnext).2, ?_⟩
  · rw [Moment.le_iff, hstart]
    exact hspec.1
  · rw [Moment.lt_iff, hnext]
    exact hspec.2
  · intro m' hm' hlow hhigh
    rw [Moment.lt_iff, hnext] at hhigh
    exact (hiff hm').mpr ⟨hlow, hhigh⟩
  · intro t ht hself hlt
    by_contra hno
    rw [Moment.le_iff, not_le, hnext] at hno
    have hsame := (hiff ht).mpr ⟨le_of_lt hlt, hno⟩
    rw [hself] at hsame
    rw [Except.ok.inj hsame, Moment.lt_iff] at hlt
    omega

end Canonic
