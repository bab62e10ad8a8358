import Canonic.Compiler.Compose
import Canonic.Semantic.Zone

set_option autoImplicit false

/-! # Watermarks

`contracts/finality.py`: a watermark expression names a business day, counted from the day of a
reference instant in a time zone, and the watermark is the end of that day. A result over several
leaves, or over several statements, reports the earliest of their watermarks, compared as texts.

The rows up to a watermark are those of its day and of earlier days, to the second, where the clock
is not moved over the end of the day. Texts are ordered by their days, so the merged watermark has
the earliest day; between offsets from UTC that differ, days are not ordered like instants. -/

namespace Canonic

/-! ## Expressions -/

/-- A character as `re.IGNORECASE` compares it with a letter of the grammar. -/
def ignoreCase (c : Char) : Char :=
  if c.toNat = 304 ∨ c.toNat = 305 then 'i' else foldCase c

/-- The text after a word. -/
def afterWord : List Char → List Char → Option (List Char)
  | [], cs => some cs
  | _ :: _, [] => none
  | w :: ws, c :: cs => if ignoreCase c = w then afterWord ws cs else none

/-- `\s*days?\s*$`. -/
def endsInDays (cs : List Char) : Bool :=
  match afterWord ['d', 'a', 'y'] (cs.dropWhile isPySpace) with
  | none => false
  | some rest => ((afterWord ['s'] rest).getD rest).all isPySpace

/-- `_WATERMARK_RE`: the sign and the digits of the offset, if there is one. -/
def matchWatermark (expr : String) : Option (Option (Char × List Char)) :=
  match afterWord "business_day".toList (expr.toList.dropWhile isPySpace) with
  | none => none
  | some rest =>
      match rest.dropWhile isPySpace with
      | [] => some none
      | c :: cs =>
          let digits := (cs.dropWhile isPySpace).takeWhile fun d => (decimalDigit d).isSome
          let tail := (cs.dropWhile isPySpace).dropWhile fun d => (decimalDigit d).isSome
          if (c = '+' ∨ c = '-') ∧ digits ≠ [] ∧ endsInDays tail = true then some (some (c, digits))
          else none

/-- The signed days of an offset; `int` refuses more digits than it reads. -/
def offsetDays : Option (Char × List Char) → Except Err Int
  | none => .ok 0
  | some (sign, digits) =>
      match pyInt (String.ofList digits) with
      | some n => .ok ((if sign = '+' then 1 else -1) * n)
      | none => .error (.internal
          (s!"Exceeds the limit ({maxStrDigits} digits) for integer string " ++
          s!"conversion: value has {digits.length} digits; use sys.set_int_max_str_digits() to " ++
          "increase the limit"))

/-- `timedelta(days=n)`. -/
def timedeltaDays (n : Int) : Except Err Int :=
  if n < -2147483648 ∨ 2147483647 < n then
    .error (.internal "Python int too large to convert to C int")
  else if 999999999 < n.natAbs then
    .error (.internal s!"days={n}; must have magnitude <= 999999999")
  else .ok n

/-- `_resolve_tz`, against a time zone database. -/
def resolveTz (zones : String → Option Zone) (tz : String) : Except Err Zone :=
  match zones tz with
  | some z => .ok z
  | none => .error (.internal s!"unknown timezone {pyRepr tz}")

/-- `_prev_business_day`, which reads and returns a day. -/
def prevBusinessDay (d : Date) : Except Err Date :=
  if d.weekday = 5 then d.addDays (-1)
  else if d.weekday = 6 then d.addDays (-2)
  else .ok d

/-- `astimezone(zone).date()` of an instant in microseconds. -/
def localDay (zone : Zone) (instant : Int) : Except Err Date :=
  (dayOf (zone.wallAt (instant / 1000000))).checked

/-- `evaluate_watermark`; `now` is the wall clock, read where there is no `as_of`. -/
def evaluateWatermark (zones : String → Option Zone) (now : Int) (expr tz : String)
    (asOf : Option Int) : Except Err ZonedTime := do
  let zone ← resolveTz zones tz
  match matchWatermark expr with
  | none => .error (.internal (s!"unsupported watermark expression {pyRepr expr}; " ++
      "expected 'business_day' optionally followed by '± N day[s]'"))
  | some offset =>
      let base ← localDay zone (asOf.getD now)
      let baseDay ← prevBusinessDay base
      let days ← offsetDays offset
      let days ← timedeltaDays days
      let target ← baseDay.addDays days
      let target ← prevBusinessDay target
      return ⟨target, 23 * 3600 + 59 * 60 + 59, zone⟩

/-- `watermark_to_iso`, which every aware time passes as it is. -/
def watermarkToIso (w : ZonedTime) : String := w.isoformat

/-! ## Merged watermarks -/

/-- The finality block of one response. -/
structure FinalityOut where
  watermark : String
  sourcesUsed : List String
  finalRows : Option Nat := none
  provisionalRows : Option Nat := none
  deriving DecidableEq, Repr

/-- The sum of the counts there are, if there is one. -/
def sumCounts (counts : List (Option Nat)) : Option Nat :=
  match counts.filterMap id with
  | [] => none
  | n :: ns => some (n + ns.sum)

/-- `_merged_finality`, from the finality blocks of the statements. -/
def mergedFinality (blocks : List (Option FinalityOut)) : Option FinalityOut :=
  match blocks.filterMap id with
  | [] => none
  | f :: fs => some
      { watermark := fs.foldl (fun w g => if g.watermark < w then g.watermark else w) f.watermark
        sourcesUsed := sortedSet ((f :: fs).flatMap (·.sourcesUsed))
        finalRows := sumCounts ((f :: fs).map (·.finalRows))
        provisionalRows := sumCounts ((f :: fs).map (·.provisionalRows)) }

/-! ## Business days -/

/-- The ordinal of the last business day up to a day. -/
def businessOrdinal (n : Int) : Int := n - max 0 ((n + 6) % 7 - 4)

theorem businessOrdinal_mono {m n : Int} (h : m ≤ n) : businessOrdinal m ≤ businessOrdinal n := by
  simp only [businessOrdinal]
  omega

theorem weekday_businessOrdinal (n : Int) : (businessOrdinal n + 6) % 7 ≤ 4 := by
  simp only [businessOrdinal]
  omega

theorem prevBusinessDay_eq_ok {d e : Date} (hd : d.Valid) (hyear : d.InRange)
    (h : prevBusinessDay d = .ok e) :
    e.Valid ∧ e.InRange ∧ e.toOrdinal = businessOrdinal d.toOrdinal := by
  unfold prevBusinessDay Date.weekday at h
  simp only [businessOrdinal]
  split at h
  next hsat =>
    have hmove := Date.addDays_eq_ok h
    exact ⟨hmove.1, hmove.2.2, by omega⟩
  next hsat =>
    split at h
    next hsun =>
      have hmove := Date.addDays_eq_ok h
      exact ⟨hmove.1, hmove.2.2, by omega⟩
    next hsun =>
      cases h
      exact ⟨hd, hyear, by omega⟩

/-- What a watermark is evaluated to: the end of a business day, counted from the business day of
the reference instant. -/
structure Evaluated (zones : String → Option Zone) (now : Int) (expr tz : String)
    (asOf : Option Int) (w : ZonedTime) : Prop where
  zone : zones tz = some w.zone
  second : w.second = daySeconds - 1
  valid : w.day.Valid
  inRange : w.day.InRange
  days : ∃ offset n, matchWatermark expr = some offset ∧ offsetDays offset = .ok n ∧
    w.day.toOrdinal = businessOrdinal
      (businessOrdinal (dayOf (w.zone.wallAt (asOf.getD now / 1000000))).toOrdinal + n)

theorem evaluateWatermark_eq_ok {zones : String → Option Zone} {now : Int} {expr tz : String}
    {asOf : Option Int} {w : ZonedTime} (h : evaluateWatermark zones now expr tz asOf = .ok w) :
    Evaluated zones now expr tz asOf w := by
  unfold evaluateWatermark at h
  obtain ⟨zone, hzone, h⟩ := bind_eq_ok.mp h
  unfold resolveTz at hzone
  split at hzone
  next z hz =>
    cases hzone
    split at h
    next => simp at h
    next offset hoffset =>
      simp only [bind_eq_ok, pure_eq_ok] at h
      obtain ⟨base, hbase, baseDay, hbaseDay, n, hn, days, hdays, target, htarget, day, hday,
        rfl⟩ :=
        h
      obtain ⟨rfl, hyear⟩ := Date.checked_eq_ok hbase
      have hprev := prevBusinessDay_eq_ok (valid_dayOf _) hyear hbaseDay
      have hmove := Date.addDays_eq_ok htarget
      have hlast := prevBusinessDay_eq_ok hmove.1 hmove.2.2 hday
      have hsame : days = n := by
        unfold timedeltaDays at hdays
        split at hdays
        next => simp at hdays
        next =>
          split at hdays
          next => simp at hdays
          next => exact (Except.ok.inj hdays).symm
      refine ⟨hz, by simp [daySeconds], hlast.1, hlast.2.1, offset, n, hoffset, hn, ?_⟩
      rw [hlast.2.2, hmove.2.1, hprev.2.2, hsame]
  next => simp at hzone

/-! ## What is evaluated -/

/-- A day that Python can hold has a business day up to it. -/
theorem exists_prevBusinessDay {d : Date} (hd : d.Valid) (h : d.InRange) :
    ∃ e, prevBusinessDay d = .ok e := by
  have hbounds := Date.ordinal_bounds hd h
  unfold prevBusinessDay Date.weekday
  split
  next hsat =>
    refine ⟨_, Date.checked_eq_self (Date.ofOrdinal_spec _).1 hd h.2 ?_ ?_⟩
    · rw [(Date.ofOrdinal_spec _).2]
      omega
    · rw [(Date.ofOrdinal_spec _).2]
      omega
  next hsat =>
    split
    next hsun =>
      refine ⟨_, Date.checked_eq_self (Date.ofOrdinal_spec _).1 hd h.2 ?_ ?_⟩
      · rw [(Date.ofOrdinal_spec _).2]
        omega
      · rw [(Date.ofOrdinal_spec _).2]
        omega
    next hsun => exact ⟨d, rfl⟩

/-- An expression is evaluated where the days it leads to are days that Python can hold. -/
theorem exists_evaluateWatermark {zones : String → Option Zone} {now : Int} {expr tz : String}
    {asOf : Option Int} {zone : Zone} {o : Option (Char × List Char)} {n : Int}
    (hzone : zones tz = some zone) (ho : matchWatermark expr = some o) (hn : offsetDays o = .ok n)
    (hbase : (dayOf (zone.wallAt (asOf.getD now / 1000000))).InRange)
    (htarget : (Date.ofOrdinal (businessOrdinal
      (dayOf (zone.wallAt (asOf.getD now / 1000000))).toOrdinal + n)).InRange) :
    ∃ w, evaluateWatermark zones now expr tz asOf = .ok w := by
  have hresolve : resolveTz zones tz = .ok zone := by rw [resolveTz, hzone]
  have hlocal : localDay zone (asOf.getD now) =
      .ok (dayOf (zone.wallAt (asOf.getD now / 1000000))) := if_pos hbase
  obtain ⟨base, hprev⟩ := exists_prevBusinessDay (valid_dayOf _) hbase
  obtain ⟨hvalid, hrange, hord⟩ := prevBusinessDay_eq_ok (valid_dayOf _) hbase hprev
  rw [← hord] at htarget
  have hbounds := Date.ordinal_bounds hvalid hrange
  have hbounds' := Date.ordinal_bounds (Date.ofOrdinal_spec _).1 htarget
  rw [(Date.ofOrdinal_spec _).2] at hbounds'
  have hdays : timedeltaDays n = .ok n := by
    unfold timedeltaDays
    rw [if_neg (by omega), if_neg (by omega)]
  have hadd : base.addDays n = .ok (Date.ofOrdinal (base.toOrdinal + n)) := if_pos htarget
  obtain ⟨day, hlast⟩ := exists_prevBusinessDay (Date.ofOrdinal_spec _).1 htarget
  refine ⟨⟨day, 23 * 3600 + 59 * 60 + 59, zone⟩, ?_⟩
  unfold evaluateWatermark
  refine bind_eq_ok.mpr ⟨zone, hresolve, ?_⟩
  rw [ho]
  simp only [bind_eq_ok, pure_eq_ok]
  exact ⟨_, hlocal, base, hprev, n, hn, n, hdays, _, hadd, day, hlast, rfl⟩

namespace Evaluated

variable {zones : String → Option Zone} {now : Int} {expr tz : String} {asOf : Option Int}
  {w : ZonedTime} (h : Evaluated zones now expr tz asOf w)

include h

theorem weekday_le : w.day.weekday ≤ 4 := by
  obtain ⟨offset, n, -, -, hday⟩ := h.days
  unfold Date.weekday
  rw [hday]
  exact weekday_businessOrdinal _

theorem wall_eq : w.wall = w.day.lastSecond := by
  rw [ZonedTime.wall, h.second, Date.lastSecond]

/-- The rows up to a watermark, to the second, are those of its day and of earlier days. -/
theorem le_instant_iff (hsteady : w.zone.Steady w.day.lastSecond) (u : Int) :
    u ≤ w.instant ↔ dayOf (w.zone.wallAt u) ≤ w.day := by
  rw [dayOf_le_iff h.valid, ← Zone.le_resolve_iff hsteady, ZonedTime.instant, h.wall_eq]

/-- A later reference day and a larger offset lead to a later day. -/
theorem day_mono {now' : Int} {expr' : String} {asOf' : Option Int} {w' : ZonedTime}
    (h' : Evaluated zones now' expr' tz asOf' w') {o o' : Option (Char × List Char)} {n n' : Int}
    (ho : matchWatermark expr = some o) (ho' : matchWatermark expr' = some o')
    (hn : offsetDays o = .ok n) (hn' : offsetDays o' = .ok n') (hle : n ≤ n')
    (hday : dayOf (w.zone.wallAt (asOf.getD now / 1000000)) ≤
      dayOf (w.zone.wallAt (asOf'.getD now' / 1000000))) : w.day ≤ w'.day := by
  have hzone : w'.zone = w.zone := Option.some.inj (h'.zone.symm.trans h.zone)
  obtain ⟨o₁, n₁, ho₁, hn₁, hord⟩ := h.days
  obtain ⟨o₂, n₂, ho₂, hn₂, hord'⟩ := h'.days
  obtain rfl : o = o₁ := Option.some.inj (ho.symm.trans ho₁)
  obtain rfl : o' = o₂ := Option.some.inj (ho'.symm.trans ho₂)
  obtain rfl : n = n₁ := Except.ok.inj (hn.symm.trans hn₁)
  obtain rfl : n' = n₂ := Except.ok.inj (hn'.symm.trans hn₂)
  rw [Date.le_iff_toOrdinal (valid_dayOf _) (valid_dayOf _)] at hday
  rw [Date.le_iff_toOrdinal h.valid h'.valid, hord, hord', hzone]
  apply businessOrdinal_mono
  have := businessOrdinal_mono hday
  omega

section

variable {zones' : String → Option Zone} {now' : Int} {expr' tz' : String} {asOf' : Option Int}
  {w' : ZonedTime} (h' : Evaluated zones' now' expr' tz' asOf' w')

include h'

/-- The text of an earlier day is the smaller one. -/
theorem day_le_of_text_le (hle : ¬ watermarkToIso w' < watermarkToIso w) : w.day ≤ w'.day := by
  intro hlt
  apply hle
  simp only [watermarkToIso, ZonedTime.isoformat, String.append_assoc]
  exact Date.isoformat_append_lt h'.valid h.valid h'.inRange h.inRange hlt _ _

/-- At one offset from UTC, days are ordered like instants. -/
theorem instant_le_of_offset (hday : w.day ≤ w'.day) (hoffset : w.utcoffset = w'.utcoffset) :
    w.instant ≤ w'.instant := by
  rw [Date.le_iff_toOrdinal h.valid h'.valid] at hday
  rw [ZonedTime.instant_eq, ZonedTime.instant_eq, h.wall_eq, h'.wall_eq, hoffset]
  simp only [Date.lastSecond, daySeconds]
  omega

/-- On one clock, days are ordered like instants. -/
theorem instant_le_of_zone (hday : w.day ≤ w'.day) (hzone : w.zone = w'.zone)
    (hsteady : w.zone.Steady w.day.lastSecond) (hsteady' : w'.zone.Steady w'.day.lastSecond) :
    w.instant ≤ w'.instant := by
  have hwall : w.zone.wallAt w.instant ≤ w.day.lastSecond := by
    rw [← Zone.le_resolve_iff hsteady, ZonedTime.instant, h.wall_eq]
  rw [Date.le_iff_toOrdinal h.valid h'.valid] at hday
  have hlast : w.day.lastSecond ≤ w'.day.lastSecond := by
    simp only [Date.lastSecond, daySeconds]
    omega
  rw [h'.le_instant_iff hsteady', dayOf_le_iff h'.valid, ← hzone]
  exact hwall.trans hlast

end

end Evaluated

/-! ## The earliest text -/

/-- The text a merge keeps is one of the texts, and none is smaller. -/
theorem foldl_earliest {α : Type} (text : α → String) (fs : List α) (w : String) :
    let m := fs.foldl (fun w g => if text g < w then text g else w) w
    m ∈ w :: fs.map text ∧ ∀ t ∈ w :: fs.map text, ¬ t < m := by
  induction fs generalizing w with
  | nil =>
      refine ⟨List.mem_cons_self, ?_⟩
      intro t ht
      rw [List.mem_singleton.mp ht]
      exact lt_irrefl w
  | cons f fs ih =>
      simp only [List.foldl_cons, List.map_cons]
      split
      next hlt =>
        obtain ⟨hmem, hmin⟩ := ih (text f)
        refine ⟨List.mem_cons_of_mem _ hmem, ?_⟩
        intro t ht
        rcases List.mem_cons.mp ht with rfl | ht
        · intro hm
          exact hmin (text f) List.mem_cons_self (lt_trans hlt hm)
        · exact hmin t ht
      next hge =>
        obtain ⟨hmem, hmin⟩ := ih w
        constructor
        · rcases List.mem_cons.mp hmem with h | h
          · rw [h]
            exact List.mem_cons_self
          · exact List.mem_cons_of_mem _ (List.mem_cons_of_mem _ h)
        · intro t ht
          rcases List.mem_cons.mp ht with rfl | ht
          · exact hmin _ List.mem_cons_self
          · rcases List.mem_cons.mp ht with rfl | ht
            · intro hm
              exact hmin w List.mem_cons_self (lt_of_le_of_lt (not_lt.mp hge) hm)
            · exact hmin t (List.mem_cons_of_mem _ ht)

/-- A text is a watermark's. -/
def IsWatermark (zones : String → Option Zone) (w : ZonedTime) (text : String) : Prop :=
  text = watermarkToIso w ∧
    ∃ now expr tz asOf, evaluateWatermark zones now expr tz asOf = .ok w

/-- A merged text is one of the texts, and its watermark is the earliest instant among those of its
clock and of its offset from UTC. -/
structure EarliestOf (zones : String → Option Zone) (texts : List String) (merged : String) :
    Prop where
  mem : merged ∈ texts
  offset : ∀ w w', ∀ t ∈ texts, IsWatermark zones w merged → IsWatermark zones w' t →
    w.utcoffset = w'.utcoffset → w.instant ≤ w'.instant
  clock : ∀ w w', ∀ t ∈ texts, IsWatermark zones w merged → IsWatermark zones w' t →
    w.zone = w'.zone → w.zone.Steady w.day.lastSecond → w'.zone.Steady w'.day.lastSecond →
      w.instant ≤ w'.instant

theorem earliestOf_of_min {zones : String → Option Zone} {texts : List String} {merged : String}
    (hmem : merged ∈ texts) (hmin : ∀ t ∈ texts, ¬ t < merged) :
    EarliestOf zones texts merged := by
  have hday : ∀ w w', ∀ t ∈ texts, IsWatermark zones w merged → IsWatermark zones w' t →
      w.day ≤ w'.day := by
    rintro w w' t ht ⟨hw, now, expr, tz, asOf, heval⟩ ⟨hw', now', expr', tz', asOf', heval'⟩
    apply (evaluateWatermark_eq_ok heval).day_le_of_text_le (evaluateWatermark_eq_ok heval')
    rw [← hw, ← hw']
    exact hmin t ht
  refine ⟨hmem, ?_, ?_⟩
  · intro w w' t ht hw hw' hoffset
    have hle := hday w w' t ht hw hw'
    obtain ⟨-, now, expr, tz, asOf, heval⟩ := hw
    obtain ⟨-, now', expr', tz', asOf', heval'⟩ := hw'
    exact (evaluateWatermark_eq_ok heval).instant_le_of_offset (evaluateWatermark_eq_ok heval')
      hle hoffset
  · intro w w' t ht hw hw' hzone hsteady hsteady'
    have hle := hday w w' t ht hw hw'
    obtain ⟨-, now, expr, tz, asOf, heval⟩ := hw
    obtain ⟨-, now', expr', tz', asOf', heval'⟩ := hw'
    exact (evaluateWatermark_eq_ok heval).instant_le_of_zone (evaluateWatermark_eq_ok heval')
      hle hzone hsteady hsteady'

theorem mergeFinality_earliest {zones : String → Option Zone} {ps : List Physical}
    {m : FinalityMetadata} (h : mergeFinality ps = some m) :
    EarliestOf zones ((ps.filterMap (·.finality)).map (·.watermark)) m.watermark := by
  unfold mergeFinality at h
  split at h
  next => simp at h
  next f fs hfs =>
    obtain rfl := Option.some.inj h
    rw [hfs]
    obtain ⟨hmem, hmin⟩ := foldl_earliest FinalityMetadata.watermark fs f.watermark
    exact earliestOf_of_min hmem hmin

theorem mergedFinality_earliest {zones : String → Option Zone} {blocks : List (Option FinalityOut)}
    {m : FinalityOut} (h : mergedFinality blocks = some m) :
    EarliestOf zones ((blocks.filterMap id).map (·.watermark)) m.watermark := by
  unfold mergedFinality at h
  split at h
  next => simp at h
  next f fs hfs =>
    obtain rfl := Option.some.inj h
    rw [hfs]
    obtain ⟨hmem, hmin⟩ := foldl_earliest FinalityOut.watermark fs f.watermark
    exact earliestOf_of_min hmem hmin

/-! ## The law of watermarks -/

/-- What a watermark promises of a time zone database. -/
structure WatermarkLaw (zones : String → Option Zone) : Prop where
  evaluates : ∀ now expr tz asOf zone o n, zones tz = some zone → matchWatermark expr = some o →
    offsetDays o = .ok n → (dayOf (zone.wallAt (asOf.getD now / 1000000))).InRange →
      (Date.ofOrdinal (businessOrdinal
        (dayOf (zone.wallAt (asOf.getD now / 1000000))).toOrdinal + n)).InRange →
        ∃ w, evaluateWatermark zones now expr tz asOf = .ok w
  business : ∀ now expr tz asOf w, evaluateWatermark zones now expr tz asOf = .ok w →
    0 ≤ w.day.weekday ∧ w.day.weekday ≤ 4
  monotone : ∀ now expr tz asOf w now' expr' asOf' w',
    evaluateWatermark zones now expr tz asOf = .ok w →
    evaluateWatermark zones now' expr' tz asOf' = .ok w' →
    ∀ o o' n n', matchWatermark expr = some o → matchWatermark expr' = some o' →
      offsetDays o = .ok n → offsetDays o' = .ok n' → n ≤ n' →
      dayOf (w.zone.wallAt (asOf.getD now / 1000000)) ≤
        dayOf (w.zone.wallAt (asOf'.getD now' / 1000000)) → w.day ≤ w'.day
  settled : ∀ now expr tz asOf w, evaluateWatermark zones now expr tz asOf = .ok w →
    w.zone.Steady w.day.lastSecond →
      ∀ t : Int, t / 1000000 ≤ w.instant ↔ dayOf (w.zone.wallAt (t / 1000000)) ≤ w.day
  leaves : ∀ ps m, mergeFinality ps = some m →
    EarliestOf zones ((ps.filterMap (·.finality)).map (·.watermark)) m.watermark
  statements : ∀ blocks m, mergedFinality blocks = some m →
    EarliestOf zones ((blocks.filterMap id).map (·.watermark)) m.watermark

/-- **The watermark law.** In any time zone database a watermark ends a business day, follows the
reference instant and the offset, and parts the instants of that day from those after it. -/
theorem watermarkLaw (zones : String → Option Zone) : WatermarkLaw zones where
  evaluates _ _ _ _ _ _ _ hzone ho hn hbase htarget :=
    exists_evaluateWatermark hzone ho hn hbase htarget
  business now expr tz asOf w h :=
    ⟨Int.emod_nonneg _ (by omega), (evaluateWatermark_eq_ok h).weekday_le⟩
  monotone now expr tz asOf w now' expr' asOf' w' h h' o o' n n' ho ho' hn hn' hle hday :=
    (evaluateWatermark_eq_ok h).day_mono (evaluateWatermark_eq_ok h') ho ho' hn hn' hle hday
  settled now expr tz asOf w h hsteady t :=
    (evaluateWatermark_eq_ok h).le_instant_iff hsteady (t / 1000000)
  leaves _ _ h := mergeFinality_earliest h
  statements _ _ h := mergedFinality_earliest h

/-! ## A station, a repeated evening and two offices -/

private def clockZones (tz : String) : Option Zone :=
  if tz = "Antarctica/Casey" then
    -- at 2 on the morning of Friday, 5 March 2010, the clock goes back to 11 in the evening
    some ⟨11 * 3600, [⟨733835 * 86400 + 15 * 3600, 8 * 3600⟩], List.pairwise_singleton _ _⟩
  else if tz = "Asia/Damascus" then
    -- the last hour of Thursday, 28 October 2021, is shown twice
    some ⟨3 * 3600, [⟨738091 * 86400 + 21 * 3600, 2 * 3600⟩], List.pairwise_singleton _ _⟩
  else if tz = "Europe/Paris" then some ⟨3600, [], .nil⟩
  else if tz = "Asia/Tokyo" then some ⟨9 * 3600, [], .nil⟩
  else none

/-- The day, the instant and the text of `business_day` at an instant in seconds of UTC. -/
private def clockMark (tz : String) (utc : Int) : Option (Date × Int × String) :=
  match evaluateWatermark clockZones 0 "business_day" tz (some (1000000 * utc)) with
  | .ok w => some (w.day, w.instant, watermarkToIso w)
  | .error _ => none

/-- The day a clock shows at an instant in microseconds. -/
private def clockDay (tz : String) (t : Int) : Option Date :=
  (clockZones tz).map fun z => dayOf (z.wallAt (t / 1000000))

/-- An hour later the station has an earlier day. A row half a second after the watermark is of its
day, and so is a row in the hour that Damascus shows again. Of the watermarks of two offices on one
day, the merge reports the one of Paris, eight hours after that of Tokyo. -/
theorem watermark_counterexample :
    ((clockMark "Antarctica/Casey" (733835 * 86400 + 14 * 3600 + 1800)).map (·.1) =
        some ⟨2010, 3, 5⟩ ∧
      (clockMark "Antarctica/Casey" (733835 * 86400 + 15 * 3600 + 1800)).map (·.1) =
        some ⟨2010, 3, 4⟩) ∧
    (clockMark "Europe/Paris" (738091 * 86400 + 12 * 3600) =
        some (⟨2021, 10, 28⟩, 63771145199, "2021-10-28T23:59:59+01:00") ∧
      clockDay "Europe/Paris" (1000000 * 63771145199 + 500000) = some ⟨2021, 10, 28⟩ ∧
      ¬ (1000000 * 63771145199 + 500000 : Int) ≤ 1000000 * 63771145199) ∧
    (clockMark "Asia/Damascus" (738091 * 86400 + 12 * 3600) =
        some (⟨2021, 10, 28⟩, 63771137999, "2021-10-28T23:59:59+03:00") ∧
      clockDay "Asia/Damascus" (1000000 * (63771137999 + 1800)) = some ⟨2021, 10, 28⟩ ∧
      ¬ (1000000 * (63771137999 + 1800) : Int) ≤ 1000000 * 63771137999) ∧
    (clockMark "Asia/Tokyo" (738091 * 86400 + 12 * 3600) =
        some (⟨2021, 10, 28⟩, 63771116399, "2021-10-28T23:59:59+09:00") ∧
      (mergedFinality [some ⟨"2021-10-28T23:59:59+01:00", ["orders"], none, none⟩,
        some ⟨"2021-10-28T23:59:59+09:00", ["sales"], none, none⟩]).map (·.watermark) =
          some "2021-10-28T23:59:59+01:00" ∧
      ¬ (63771145199 : Int) ≤ 63771116399) := by
  decide

end Canonic
