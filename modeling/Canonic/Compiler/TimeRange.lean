import Canonic.Compiler.Query
import Canonic.Except
import Canonic.Semantic.Periods

set_option autoImplicit false

/-! # Relative time ranges

`last: N units` of `compiler/time_range.py`: the days from the start of one period up to the start
of another are so many whole periods. -/

namespace Canonic

open Date

/-- The days from `start` up to before `stop` are `n` periods of a unit, none of them cut. -/
structure WholePeriods (u : DurationUnit) (n : Nat) (start stop : Date) : Prop where
  /-- The first day starts a period. -/
  starts : floorDate start u = .ok start
  /-- Each day is in a period. -/
  covered : ∀ d : Date, d.Valid → start ≤ d → d < stop → ∃ p, floorDate d u = .ok p
  /-- The periods are `n`. -/
  counted : {p | ∃ d : Date, d.Valid ∧ start ≤ d ∧ d < stop ∧ floorDate d u = .ok p}.ncard = n
  /-- A day in the period of one of the days is one of them. -/
  complete : ∀ d d' p : Date, d.Valid → start ≤ d → d < stop → floorDate d u = .ok p →
    d'.Valid → floorDate d' u = .ok p → start ≤ d' ∧ d' < stop

theorem floorDate_exists {u : DurationUnit} {d : Date} (hu : DurationUnit.day.rank ≤ u.rank)
    (hd : d.Valid) (hyear : d.year ≤ 9999) (hpos : 1 ≤ unitStart u (unitIndex u d)) :
    ∃ s, floorDate d u = .ok s := by
  cases u with
  | minute | hour => simp [DurationUnit.rank] at hu
  | day | month | quarter | year => exact ⟨_, rfl⟩
  | week =>
      obtain ⟨hvalid, hordinal⟩ := ofOrdinal_spec (d.toOrdinal + -d.weekday)
      have hstart : unitStart .week (unitIndex .week d) = 7 * ((d.toOrdinal + 6) / 7) - 6 := rfl
      have hweekday : d.weekday = (d.toOrdinal + 6) % 7 := rfl
      exact ⟨_, checked_eq_self hvalid hd hyear (by omega) (by omega)⟩

section

variable {u : DurationUnit} {start stop : Date} {first : Int} {n : Nat}
  (hu : DurationUnit.day.rank ≤ u.rank) (hstart : start.Valid) (hstop : stop.Valid)
  (hfirst : start.toOrdinal = unitStart u first) (hlast : stop.toOrdinal = unitStart u (first + n))

include hstart hstop hfirst hlast in
/-- The days between two period starts are those of the periods in between. -/
theorem between_iff {d : Date} (hd : d.Valid) :
    start ≤ d ∧ d < stop ↔ first ≤ unitIndex u d ∧ unitIndex u d < first + n := by
  have hspec := unitIndex_spec u hd
  rw [le_iff_toOrdinal hstart hd, lt_iff_toOrdinal hd hstop, hfirst, hlast]
  constructor
  · rintro ⟨hlow, hhigh⟩
    constructor
    · have hlt : unitStart u first < unitStart u (unitIndex u d + 1) := by omega
      by_contra h
      have := (unitStart_le_iff u).mpr (show unitIndex u d + 1 ≤ first by omega)
      omega
    · by_contra h
      have := (unitStart_le_iff u).mpr (not_lt.mp h)
      omega
  · rintro ⟨hlow, hhigh⟩
    have h₁ := (unitStart_le_iff u).mpr hlow
    have h₂ := (unitStart_le_iff u).mpr (show unitIndex u d + 1 ≤ first + n by omega)
    omega

include hu hstart hstop hfirst hlast in
/-- Between the starts of two periods lie the whole periods in between. -/
theorem wholePeriods_of_starts (hpos : 1 ≤ start.toOrdinal) (hyear : stop.year ≤ 9999) :
    WholePeriods u n start stop := by
  have hfloor : ∀ d : Date, d.Valid → first ≤ unitIndex u d → d.year ≤ 9999 →
      ∃ p, floorDate d u = .ok p := by
    intro d hd hlow hdyear
    apply floorDate_exists hu hd hdyear
    have := (unitStart_le_iff u).mpr hlow
    omega
  have hbefore : ∀ d : Date, d < stop → d.year ≤ 9999 := by
    intro d hlt
    have hlt' : d.year < stop.year ∨ _ := hlt
    omega
  have hbetween := fun {d : Date} (hd : d.Valid) =>
    @between_iff u start stop first n hstart hstop hfirst hlast d hd
  -- a floored day is the start of the period with its number
  have hsame : ∀ {d p : Date}, d.Valid → floorDate d u = .ok p →
      p = ofOrdinal (unitStart u (unitIndex u d)) := by
    intro d p hd hp
    obtain ⟨hvalid, hordinal⟩ := floorDate_eq_ok hd hp
    exact eq_of_toOrdinal hvalid (ofOrdinal_spec _).1 (hordinal.trans (ofOrdinal_spec _).2.symm)
  have hinj : ∀ {i j : Int}, ofOrdinal (unitStart u i) = ofOrdinal (unitStart u j) → i = j := by
    intro i j h
    have heq : unitStart u i = unitStart u j := by
      rw [← (ofOrdinal_spec (unitStart u i)).2, h, (ofOrdinal_spec _).2]
    exact le_antisymm ((unitStart_le_iff u).mp heq.le) ((unitStart_le_iff u).mp heq.ge)
  constructor
  · have hindex : unitIndex u start = first := by
      rw [unitIndex_eq_iff u hstart, hfirst]
      exact ⟨le_rfl, unitStart_lt u (by omega)⟩
    have hle : start ≤ stop := by
      rw [le_iff_toOrdinal hstart hstop, hfirst, hlast]
      exact (unitStart_le_iff u).mpr (by omega)
    have hyears : ¬ (stop.year < start.year ∨ _) := hle
    obtain ⟨p, hp⟩ := hfloor start hstart hindex.ge (by omega)
    have hpstart : p = start := by
      rw [hsame hstart hp, hindex, ← hfirst]
      exact eq_of_toOrdinal (ofOrdinal_spec _).1 hstart (ofOrdinal_spec _).2
    rw [hp, hpstart]
  · intro d hd hlow hhigh
    exact hfloor d hd ((hbetween hd).mp ⟨hlow, hhigh⟩).1 (hbefore d hhigh)
  -- the floored days are the starts of the periods from the first to the last
  · have himage : {p | ∃ d : Date, d.Valid ∧ start ≤ d ∧ d < stop ∧ floorDate d u = .ok p} =
        (fun i => ofOrdinal (unitStart u i)) '' Set.Ico first (first + n) := by
      ext p
      constructor
      · rintro ⟨d, hd, hlow, hhigh, hp⟩
        exact ⟨unitIndex u d, (hbetween hd).mp ⟨hlow, hhigh⟩, (hsame hd hp).symm⟩
      · rintro ⟨i, hi, rfl⟩
        obtain ⟨hvalid, hordinal⟩ := ofOrdinal_spec (unitStart u i)
        have hindex : unitIndex u (ofOrdinal (unitStart u i)) = i := by
          rw [unitIndex_eq_iff u hvalid, hordinal]
          exact ⟨le_rfl, unitStart_lt u (by omega)⟩
        obtain ⟨hlow, hhigh⟩ := (hbetween hvalid).mpr (by rw [hindex]; exact hi)
        obtain ⟨p, hp⟩ := hfloor _ hvalid (by rw [hindex]; exact hi.1) (hbefore _ hhigh)
        refine ⟨_, hvalid, hlow, hhigh, ?_⟩
        rw [hp, hsame hvalid hp, hindex]
    have hon : Set.InjOn (fun i => ofOrdinal (unitStart u i)) (Set.Ico first (first + n)) :=
      fun i _ j _ h => hinj h
    rw [himage, hon.ncard_image, ← Finset.coe_Ico, Set.ncard_coe_finset, Int.card_Ico]
    omega
  · intro d d' p hd hlow hhigh hp hd' hp'
    have hindex : unitIndex u d = unitIndex u d' :=
      hinj ((hsame hd hp).symm.trans (hsame hd' hp'))
    exact (hbetween hd').mpr (hindex ▸ (hbetween hd).mp ⟨hlow, hhigh⟩)

end

/-- The calendar, of the years 1 to 9999, has the days a range of the last units is built from: the
first day of its first period, and the day after the anchor when the current period is included. -/
structure LastInCalendar (o : Duration) (includeCurrent : Bool) (day : Date) : Prop where
  first : 1 ≤ unitStart o.unit (unitIndex o.unit day - o.count)
  next : includeCurrent = true → day < ⟨9999, 12, 31⟩

section

variable {o : Duration} {includeCurrent : Bool} {day : Date}
  (hlong : DurationUnit.day.rank ≤ o.unit.rank) (hday : day.Valid) (hyear : day.InRange)

theorem lastDay_valid : Valid ⟨9999, 12, 31⟩ := ⟨by decide, by decide, by decide, by decide⟩

theorem le_lastDay {d : Date} (hd : d.Valid) (h : d.year ≤ 9999) : d ≤ ⟨9999, 12, 31⟩ := by
  have hmonth := hd.month_le
  have hlength := hd.day_le_monthLength
  have hbounds := monthLength_bounds d.index
  show ¬ (9999 < d.year ∨ 9999 = d.year ∧ (12 < d.month ∨ 12 = d.month ∧ 31 < d.day))
  omega

include hday hyear in
/-- All days but the last of the calendar have a day after them. -/
theorem addDays_one_iff : (∃ stop, day.addDays 1 = .ok stop) ↔ day < ⟨9999, 12, 31⟩ := by
  obtain ⟨hvalid, hordinal⟩ := ofOrdinal_spec (day.toOrdinal + 1)
  rw [lt_iff_toOrdinal hday lastDay_valid]
  constructor
  · rintro ⟨stop, hstop⟩
    obtain ⟨hstopValid, hstopOrdinal, -, hlast⟩ := addDays_eq_ok hstop
    have hle := (le_iff_toOrdinal hstopValid lastDay_valid).mp (le_lastDay hstopValid hlast)
    omega
  · intro hlt
    have hpos := hday.year_pos_iff.mp hyear.1
    exact ⟨_, checked_eq_self hvalid lastDay_valid le_rfl (by omega) (by omega)⟩

/-- The start of the current period, and so many periods before it. -/
structure LastStarts (o : Duration) (day start current : Date) : Prop where
  floor_eq : floorDate day o.unit = .ok current
  start_eq : addToDate current o (-1) = .ok start
  validCurrent : current.Valid
  validStart : start.Valid
  current_eq : current.toOrdinal = unitStart o.unit (unitIndex o.unit day)
  toOrdinal_eq : start.toOrdinal = unitStart o.unit (unitIndex o.unit day - o.count)
  year_pos : 1 ≤ start.year

include hlong hday hyear in
theorem lastStarts_iff : (∃ start current, LastStarts o day start current) ↔
    1 ≤ unitStart o.unit (unitIndex o.unit day - o.count) := by
  constructor
  · rintro ⟨start, current, s⟩
    rw [← s.toOrdinal_eq]
    exact s.validStart.year_pos_iff.mp s.year_pos
  · intro hpos
    have hback := (unitStart_le_iff o.unit).mpr
      (show unitIndex o.unit day - o.count ≤ unitIndex o.unit day by omega)
    obtain ⟨current, hcurrent⟩ := floorDate_exists hlong hday hyear.2 (by omega)
    obtain ⟨hvalid, hordinal⟩ := floorDate_eq_ok hday hcurrent
    obtain ⟨start, hstart, hstartOrdinal, heq⟩ := addToDate_back hlong hvalid hordinal
    have hle := (unitIndex_spec o.unit hday).1
    refine ⟨start, current, hcurrent, ?_, hvalid, hstart, hordinal, hstartOrdinal, ?_⟩
    · rw [heq]
      exact checked_eq_self hstart hday hyear.2 (by omega) (by omega)
    · exact hstart.year_pos_iff.mpr (by omega)

include hlong hday in
theorem lastStarts_of_ok {start current : Date} (hcurrent : floorDate day o.unit = .ok current)
    (hstart : addToDate current o (-1) = .ok start) : LastStarts o day start current := by
  obtain ⟨hvalid, hordinal⟩ := floorDate_eq_ok hday hcurrent
  obtain ⟨z, hz, hzOrdinal, heq⟩ := addToDate_back hlong hvalid hordinal
  obtain ⟨rfl, hyear, -⟩ := checked_eq_ok (heq ▸ hstart)
  exact ⟨hcurrent, hstart, hvalid, hz, hordinal, hzOrdinal, hyear⟩

/-- What a resolved range of the last units is made of. -/
structure LastResolved (o : Duration) (includeCurrent : Bool) (day : Date)
    (resolved : ResolvedTimeRange) (start current stop : Date) : Prop
    extends LastStarts o day start current where
  start_some : resolved.start = some start
  stop_some : resolved.stop = some stop
  stop_eq : (if includeCurrent then day.addDays 1 else .ok current) = .ok stop

include hlong hday in
theorem resolveTimeRange_eq_ok {lib : Lib} {r : TimeRange} {asOf : Option DateTime}
    {resolved : ResolvedTimeRange} (hbounds : r.bounds = .last o includeCurrent hlong)
    (hanchor : (asOf.getD lib.now).day = day) (hok : resolveTimeRange lib r asOf = .ok resolved) :
    ∃ start current stop, LastResolved o includeCurrent day resolved start current stop := by
  rw [resolveTimeRange, hbounds] at hok
  obtain ⟨current, hcurrent, hok⟩ := bind_eq_ok.mp hok
  obtain ⟨start, hstart, hok⟩ := bind_eq_ok.mp hok
  rw [hanchor] at hcurrent hok
  have s := lastStarts_of_ok hlong hday hcurrent hstart
  cases includeCurrent with
  | false =>
      obtain rfl := Except.ok.inj hok
      exact ⟨start, current, current, s, rfl, rfl, rfl⟩
  | true =>
      obtain ⟨stop, hstop, hok⟩ := bind_eq_ok.mp hok
      obtain rfl := Except.ok.inj hok
      exact ⟨start, current, stop, s, rfl, rfl, hstop⟩

include hlong hday hyear in
/-- A range of the last units is resolved exactly when the calendar has its days. -/
theorem resolveTimeRange_last_ok_iff {lib : Lib} {r : TimeRange} {asOf : Option DateTime}
    (hbounds : r.bounds = .last o includeCurrent hlong)
    (hanchor : (asOf.getD lib.now).day = day) :
    (∃ resolved, resolveTimeRange lib r asOf = .ok resolved) ↔
      LastInCalendar o includeCurrent day := by
  constructor
  · rintro ⟨resolved, hok⟩
    obtain ⟨start, current, stop, s⟩ := resolveTimeRange_eq_ok hlong hday hbounds hanchor hok
    refine ⟨(lastStarts_iff hlong hday hyear).mp ⟨start, current, s.toLastStarts⟩, ?_⟩
    rintro rfl
    exact (addDays_one_iff hday hyear).mp ⟨stop, s.stop_eq⟩
  · intro h
    obtain ⟨start, current, s⟩ := (lastStarts_iff hlong hday hyear).mpr h.first
    rw [resolveTimeRange, hbounds]
    simp only [hanchor, s.floor_eq, s.start_eq, ok_bind]
    cases includeCurrent with
    | false => exact ⟨_, rfl⟩
    | true =>
        obtain ⟨stop, hstop⟩ := (addDays_one_iff hday hyear).mpr (h.next rfl)
        simp only [if_true, hstop, ok_bind]
        exact ⟨_, rfl⟩

include hlong hday hyear in
/-- The days before the current period are whole periods. -/
theorem LastStarts.wholePeriods {start current : Date} (s : LastStarts o day start current) :
    WholePeriods o.unit o.count start current := by
  have hle : current ≤ day := by
    rw [le_iff_toOrdinal s.validCurrent hday, s.current_eq]
    exact (unitIndex_spec o.unit hday).1
  have hyears : ¬ (day.year < current.year ∨ _) := hle
  have hlast := hyear.2
  refine wholePeriods_of_starts hlong s.validStart s.validCurrent s.toOrdinal_eq ?_
    (s.validStart.year_pos_iff.mp s.year_pos) (by omega)
  rw [s.current_eq]
  congr 1
  omega

include hday in
/-- With the current period the range goes on up to the anchor day. -/
theorem LastStarts.between_iff {start current stop : Date} (s : LastStarts o day start current)
    (hstop : day.addDays 1 = .ok stop) {d : Date} (hd : d.Valid) : start ≤ d ∧ d < stop ↔
      (start ≤ d ∧ d < current) ∨ (current ≤ d ∧ d ≤ day) := by
  obtain ⟨hstopValid, hstopOrdinal, -⟩ := addDays_eq_ok hstop
  have hback : start.toOrdinal ≤ current.toOrdinal := by
    rw [s.toOrdinal_eq, s.current_eq]
    exact (unitStart_le_iff o.unit).mpr (by omega)
  have hle : current.toOrdinal ≤ day.toOrdinal := by
    rw [s.current_eq]
    exact (unitIndex_spec o.unit hday).1
  rw [le_iff_toOrdinal s.validStart hd, lt_iff_toOrdinal hd hstopValid,
    lt_iff_toOrdinal hd s.validCurrent, le_iff_toOrdinal s.validCurrent hd,
    le_iff_toOrdinal hd hday, hstopOrdinal]
  omega

end

/-- **The range of the last units.** It is resolved exactly when the calendar has its days. The
units before the period of the anchor day are whole periods; with the current one the range goes
on up to the anchor day. -/
theorem resolveTimeRange_last {lib : Lib} {r : TimeRange} {asOf : Option DateTime} {o : Duration}
    {includeCurrent : Bool} {hlong : DurationUnit.day.rank ≤ o.unit.rank}
    (hbounds : r.bounds = .last o includeCurrent hlong)
    (hday : (asOf.getD lib.now).day.Valid) (hyear : (asOf.getD lib.now).day.InRange) :
    ((∃ resolved, resolveTimeRange lib r asOf = .ok resolved) ↔
      LastInCalendar o includeCurrent (asOf.getD lib.now).day) ∧
    ∀ resolved, resolveTimeRange lib r asOf = .ok resolved →
      ∃ start current stop, resolved.start = some start ∧ resolved.stop = some stop ∧
        floorDate (asOf.getD lib.now).day o.unit = .ok current ∧
        WholePeriods o.unit o.count start current ∧
        (includeCurrent = false → stop = current) ∧
        (includeCurrent = true → ∀ d : Date, d.Valid → (start ≤ d ∧ d < stop ↔
          (start ≤ d ∧ d < current) ∨ (current ≤ d ∧ d ≤ (asOf.getD lib.now).day))) := by
  refine ⟨resolveTimeRange_last_ok_iff hlong hday hyear hbounds rfl, fun resolved hok => ?_⟩
  obtain ⟨start, current, stop, s⟩ := resolveTimeRange_eq_ok hlong hday hbounds rfl hok
  refine ⟨start, current, stop, s.start_some, s.stop_some, s.floor_eq,
    s.wholePeriods hlong hday hyear, ?_, ?_⟩
  · rintro rfl
    exact (Except.ok.inj s.stop_eq).symm
  · rintro rfl d hd
    exact s.between_iff hday s.stop_eq hd

/-- Two months before the middle of March 2024, and March up to that day. -/
theorem resolveTimeRange_months : ((∃ resolved, resolveTimeRange (Lib.ofTexts [])
      ⟨"at", .last ⟨2, .month, by decide⟩ true (by decide)⟩ (some ⟨⟨2024, 3, 15⟩, "2024-03-15"⟩) =
        .ok resolved) ↔ LastInCalendar ⟨2, .month, by decide⟩ true ⟨2024, 3, 15⟩) ∧
    LastInCalendar ⟨2, .month, by decide⟩ true ⟨2024, 3, 15⟩ ∧
    ∃ start current stop : Date,
      some (⟨2024, 1, 1⟩ : Date) = some start ∧ some (⟨2024, 3, 16⟩ : Date) = some stop ∧
        floorDate ⟨2024, 3, 15⟩ .month = .ok current ∧
        WholePeriods .month 2 start current ∧ (true = false → stop = current) ∧
        (true = true → ∀ d : Date, d.Valid → (start ≤ d ∧ d < stop ↔
          (start ≤ d ∧ d < current) ∨ (current ≤ d ∧ d ≤ ⟨2024, 3, 15⟩))) := by
  have h := @resolveTimeRange_last (Lib.ofTexts [])
    ⟨"at", .last ⟨2, .month, by decide⟩ true (by decide)⟩ (some ⟨⟨2024, 3, 15⟩, "2024-03-15"⟩)
    ⟨2, .month, by decide⟩ true (by decide) rfl
    ⟨by decide, by decide, by decide, by decide⟩ ⟨by decide, by decide⟩
  exact ⟨h.1, ⟨by decide, fun _ => Or.inl (by decide)⟩,
    h.2 ⟨"at", some ⟨2024, 1, 1⟩, some ⟨2024, 3, 16⟩, Or.inl rfl⟩ rfl⟩

end Canonic
