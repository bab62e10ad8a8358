import Mathlib
import Canonic.Semantic.Calendar
import Canonic.PyText

set_option autoImplicit false

/-! # The laws of durations

What the rolling windows and the offset prefilters take from `add_to_date`: a move keeps the order
of days, and there and back again it misses the first day by at most the three days that a month
can be short of. The second half reads a duration back from its text, `Duration.parse` of
`str(duration)`. -/

namespace Canonic

/-! ## There and back -/

section

variable {a b a' b' : Date} {o : Duration} {sign : Int}

/-- A move keeps the order of days. -/
theorem Moves.mono (ha : a.Valid) (hb : b.Valid) (ha' : a'.Valid) (hb' : b'.Valid)
    (h : Moves a o sign a') (h' : Moves b o sign b') (hle : a ≤ b) : a' ≤ b' := by
  cases h with
  | months k hk hindex hday =>
      cases h' with
      | months k' hk' hindex' hday' =>
          obtain rfl : k = k' := Option.some.inj (hk.symm.trans hk')
          rw [show a ≤ b ↔ ¬ b < a from Iff.rfl, Date.lt_iff_index hb ha] at hle
          show ¬ b' < a'
          rw [Date.lt_iff_index hb' ha']
          -- in one month the shorter of the two days is cut no later than the longer
          rintro (hlt | ⟨heq, hlt⟩)
          · omega
          · rw [heq] at hday'
            omega
      | days n hmonths => simp [hk] at hmonths
  | days n hmonths hn hordinal =>
      cases h' with
      | months k hk => simp [hmonths] at hk
      | days n' hmonths' hn' hordinal' =>
          obtain rfl : n = n' := Option.some.inj (hn.symm.trans hn')
          rw [Date.le_iff_toOrdinal ha hb] at hle
          rw [Date.le_iff_toOrdinal ha' hb']
          omega

/-- A move and the move back end in the month they began in, on the same day or on the last day
that the month between them has. -/
theorem Moves.return {d m r : Date} (hd : d.Valid) (hr : r.Valid) (h : Moves d o sign m)
    (h' : Moves m o (-sign) r) : r ≤ d ∧ d.toOrdinal ≤ r.toOrdinal + 3 := by
  rw [Date.le_iff_toOrdinal hr hd]
  cases h with
  | months k hk hindex hday =>
      cases h' with
      | months k' hk' hindex' hday' =>
          obtain rfl : k = k' := Option.some.inj (hk.symm.trans hk')
          have hsame : r.index = d.index := by
            rw [hindex', hindex, Int.neg_mul]
            omega
          have hlen := Date.monthLength_bounds m.index
          have hlen' := Date.monthLength_bounds d.index
          have hday2 := hd.day_le_monthLength
          rw [hr.toOrdinal_eq, hd.toOrdinal_eq, hsame]
          rw [hsame] at hday'
          omega
      | days n hmonths => simp [hk] at hmonths
  | days n hmonths hn hordinal =>
      cases h' with
      | months k hk => simp [hmonths] at hk
      | days n' hmonths' hn' hordinal' =>
          obtain rfl : n = n' := Option.some.inj (hn.symm.trans hn')
          have hsame : r.toOrdinal = d.toOrdinal := by
            rw [hordinal', hordinal, Int.neg_mul]
            omega
          omega

end

/-! ## Reading a duration -/

def isDecimal (c : Char) : Bool := (decimalDigit c).isSome

/-- `[a-z]`. -/
def isLowerLetter (c : Char) : Bool := 97 ≤ c.toNat && c.toNat ≤ 122

/-- `str.lower` of a character, as far as the patterns below can see it: they match no letter
outside ASCII, in lower case or not, but the Kelvin sign, which is a `k` in lower case. -/
def lowerChar (c : Char) : Char := if c.toNat = 8490 then 'k' else c.toLower

namespace DurationUnit

def all : List DurationUnit := [minute, hour, day, week, month, quarter, year]

/-- `DurationUnit(value)`. -/
def ofValue (value : String) : Option DurationUnit := all.find? fun u => u.value == value

/-- `_SHORT_UNITS`. -/
def ofShort (c : Char) : Option DurationUnit :=
  if c = 'd' then some day
  else if c = 'w' then some week
  else if c = 'm' then some month
  else if c = 'q' then some quarter
  else if c = 'y' then some year
  else none

end DurationUnit

/-- `^\s*(\d+)`: the digits, and what follows them. -/
def leadingDigits (cs : List Char) : List Char × List Char :=
  ((cs.dropWhile isPySpace).takeWhile isDecimal, (cs.dropWhile isPySpace).dropWhile isDecimal)

/-- `_SHORT.match`: the digits and the unit. -/
def matchShort (cs : List Char) : Option (List Char × DurationUnit) :=
  match leadingDigits cs with
  | (_, []) => none
  | (digits, c :: rest) =>
      if digits ≠ [] ∧ rest.all isPySpace = true then
        (DurationUnit.ofShort c).map fun unit => (digits, unit)
      else none

/-- What `([a-z]+?)s?` keeps of a word: a last `s` goes to the plural when a letter is before
it. -/
def singular (word : List Char) : List Char :=
  if 2 ≤ word.length ∧ word.getLast? = some 's' then word.dropLast else word

/-- `_LONG.match`: the digits and the word of the unit. -/
def matchLong (cs : List Char) : Option (List Char × List Char) :=
  let (digits, rest) := leadingDigits cs
  let word := (rest.dropWhile isPySpace).takeWhile isLowerLetter
  let tail := (rest.dropWhile isPySpace).dropWhile isLowerLetter
  if digits ≠ [] ∧ rest.takeWhile isPySpace ≠ [] ∧ word ≠ [] ∧ tail.all isPySpace = true then
    some (digits, singular word)
  else none

namespace Duration

/-- `cls(int(digits), unit)`. -/
def ofDigits (digits : List Char) (unit : DurationUnit) : Except Err Duration :=
  match pyInt (String.ofList digits) with
  | none => .error (.internal (s!"Exceeds the limit ({maxStrDigits} digits) for integer string " ++
      s!"conversion: value has {digits.length} digits; use sys.set_int_max_str_digits() to " ++
      "increase the limit"))
  | some count =>
      if h : 1 ≤ count.toNat then .ok ⟨count.toNat, unit, h⟩
      else .error (.internal s!"a duration must be at least 1 {unit.value}, got {count}")

/-- The refusal of a text that is no duration. -/
def unreadable (text : String) : Err :=
  .internal (s!"{pyRepr text} is not a duration; write '<n> <unit>' with unit one of " ++
    ", ".intercalate (DurationUnit.all.map DurationUnit.value))

/-- `Duration.parse`: the short form first, then the long one. -/
def parse (text : String) : Except Err Duration :=
  let lowered := text.toList.map lowerChar
  match matchShort lowered with
  | some (digits, unit) => ofDigits digits unit
  | none =>
      match matchLong lowered with
      | none => .error (unreadable text)
      | some (digits, word) =>
          match DurationUnit.ofValue (String.ofList word) with
          | none => .error (unreadable text)
          | some unit => ofDigits digits unit

/-- `str(duration)`: Python writes no integer of more digits than it reads. -/
def str (d : Duration) : Except Err String :=
  if (toString d.count).length ≤ maxStrDigits then .ok d.text
  else .error (.internal (s!"Exceeds the limit ({maxStrDigits} digits) for integer string " ++
    "conversion; use sys.set_int_max_str_digits() to increase the limit"))

end Duration

/-! ## The text of a duration -/

theorem isDecimal_of_isDigit {c : Char} (h : c.isDigit = true) : isDecimal c = true := by
  rw [isDecimal, decimalDigit_ascii h]
  rfl

theorem toLower_eq_self {c : Char} (h : ¬ (65 ≤ c.toNat ∧ c.toNat ≤ 90)) : c.toLower = c := by
  unfold Char.toLower
  apply dif_neg
  intro hupper
  have hlow : 'A'.val.toNat ≤ c.toNat := UInt32.le_iff_toNat_le.mp hupper.1
  have hhigh : c.toNat ≤ 'Z'.val.toNat := UInt32.le_iff_toNat_le.mp hupper.2
  exact h ⟨hlow, hhigh⟩

/-- Lowering leaves the characters of a duration's text as they are. -/
theorem lowerChar_eq_self {c : Char} (h : c.isDigit = true ∨ c = ' ' ∨ isLowerLetter c = true) :
    lowerChar c = c := by
  have hrange : ¬ (65 ≤ c.toNat ∧ c.toNat ≤ 90) ∧ c.toNat ≠ 8490 := by
    rcases h with h | rfl | h
    · have := toNat_of_isDigit h
      omega
    · decide
    · simp only [isLowerLetter, Bool.and_eq_true, decide_eq_true_eq] at h
      omega
  rw [lowerChar, if_neg hrange.2, toLower_eq_self hrange.1]

theorem isPySpace_of_isLowerLetter {c : Char} (h : isLowerLetter c = true) :
    isPySpace c = false := by
  simp only [isLowerLetter, Bool.and_eq_true, decide_eq_true_eq] at h
  rw [isPySpace, decide_eq_false_iff_not]
  simp only [List.mem_cons, List.not_mem_nil, or_false]
  omega

/-- The word that stands for a number of units. -/
def DurationUnit.word (u : DurationUnit) (count : Nat) : List Char :=
  u.value.toList ++ if count = 1 then [] else ['s']

@[simp] theorem DurationUnit.ofValue_value (u : DurationUnit) : ofValue u.value = some u := by
  cases u <;> rfl

/-- The name of a unit is a word that is no plural. -/
theorem DurationUnit.value_spec (u : DurationUnit) : u.value.toList ≠ [] ∧
    u.value.toList.all isLowerLetter = true ∧ u.value.toList.getLast? ≠ some 's' := by
  cases u <;> decide

theorem singular_plural {word : List Char} (h : word ≠ []) : singular (word ++ ['s']) = word := by
  have hlen := List.length_pos_iff.mpr h
  rw [singular, if_pos ⟨by rw [List.length_append]; simp; omega, by simp⟩, List.dropLast_concat]

theorem DurationUnit.singular_word (u : DurationUnit) (count : Nat) :
    singular (u.word count) = u.value.toList := by
  unfold DurationUnit.word
  split
  · rw [List.append_nil, singular, if_neg fun h => u.value_spec.2.2 h.2]
  · exact singular_plural u.value_spec.1

theorem DurationUnit.word_letters (u : DurationUnit) (count : Nat) :
    ∀ c ∈ u.word count, isLowerLetter c = true := by
  intro c hc
  rcases List.mem_append.mp hc with hc | hc
  · exact List.all_eq_true.mp u.value_spec.2.1 c hc
  · split at hc
    · simp at hc
    · obtain rfl := List.mem_singleton.mp hc
      rfl

theorem Duration.toList_text (d : Duration) :
    d.text.toList = Nat.toDigits 10 d.count ++ ' ' :: d.unit.word d.count := by
  have hsuffix : (if d.count = 1 then "" else "s").toList = if d.count = 1 then [] else ['s'] := by
    split <;> rfl
  have hblank : (toString " ").toList = [' '] := rfl
  have hvalue : toString d.unit.value = d.unit.value := rfl
  have hcount : (toString d.count).toList = Nat.toDigits 10 d.count := Nat.toList_repr
  rw [Duration.text, DurationUnit.word, String.toList_append, hsuffix]
  simp only [String.toList_append, hblank, hvalue, hcount]
  simp

theorem Duration.lower_text (d : Duration) : d.text.toList.map lowerChar = d.text.toList := by
  rw [Duration.toList_text]
  apply List.map_congr_left (g := id) _ |>.trans (List.map_id _)
  intro c hc
  apply lowerChar_eq_self
  rcases List.mem_append.mp hc with hc | hc
  · exact .inl (Nat.isDigit_of_mem_toDigits (by decide) (by decide) hc)
  · rcases List.mem_cons.mp hc with rfl | hc
    · exact .inr (.inl rfl)
    · exact .inr (.inr (d.unit.word_letters d.count c hc))

section

variable {digits rest : List Char} (hdigits : ∀ c ∈ digits, c.isDigit = true) (hne : digits ≠ [])

include hdigits hne

/-- The digits of a text that begins with them and goes on with a blank. -/
theorem leadingDigits_append :
    leadingDigits (digits ++ ' ' :: rest) = (digits, ' ' :: rest) := by
  have hstart : (digits ++ ' ' :: rest).dropWhile isPySpace = digits ++ ' ' :: rest := by
    cases digits with
    | nil => exact absurd rfl hne
    | cons c cs =>
        exact List.dropWhile_cons_of_neg (by simp [isPySpace_of_isDigit (hdigits c (by simp))])
  have hdecimal : ∀ c ∈ digits, isDecimal c = true := fun c hc =>
    isDecimal_of_isDigit (hdigits c hc)
  rw [leadingDigits, hstart, List.takeWhile_append_of_pos hdecimal,
    List.dropWhile_append_of_pos hdecimal]
  simp [show isDecimal ' ' = false by decide]

/-- A blank after the digits is no short unit. -/
theorem matchShort_append : matchShort (digits ++ ' ' :: rest) = none := by
  rw [matchShort, leadingDigits_append hdigits hne]
  simp [DurationUnit.ofShort]

theorem matchLong_append {word : List Char} (hletters : ∀ c ∈ word, isLowerLetter c = true)
    (hword : word ≠ []) : matchLong (digits ++ ' ' :: word) = some (digits, singular word) := by
  have hstart : (' ' :: word).dropWhile isPySpace = word := by
    cases word with
    | nil => exact absurd rfl hword
    | cons c cs =>
        have hc : isPySpace c = false := isPySpace_of_isLowerLetter (hletters c (by simp))
        rw [List.dropWhile_cons_of_pos (by decide), List.dropWhile_cons_of_neg (by simp [hc])]
  have htake : word.takeWhile isLowerLetter = word := by simpa using hletters
  have hdrop : word.dropWhile isLowerLetter = [] := by simpa using hletters
  rw [matchLong, leadingDigits_append hdigits hne]
  simp only [hstart, htake, hdrop]
  apply if_pos
  refine ⟨hne, ?_, hword, rfl⟩
  simp [show isPySpace ' ' = true by decide]

end

/-! ## The laws -/

/-- A duration is read back from its text, as long as Python writes and reads its number. -/
theorem Duration.parse_str {x : Duration} (h : (toString x.count).length ≤ maxStrDigits) :
    x.str.bind parse = .ok x := by
  have hdigits : ∀ c ∈ Nat.toDigits 10 x.count, c.isDigit = true := fun c hc =>
    Nat.isDigit_of_mem_toDigits (by decide) (by decide) hc
  have hne : Nat.toDigits 10 x.count ≠ [] := Nat.toDigits_ne_nil
  have hword : x.unit.word x.count ≠ [] := by
    simp [DurationUnit.word, x.unit.value_spec.1]
  have hlen : (Nat.toDigits 10 x.count).length ≤ maxStrDigits := by
    rwa [← Nat.toList_repr, String.length_toList]
  have hcount : pyInt (String.ofList (Nat.toDigits 10 x.count)) = some (x.count : Int) := by
    rw [pyInt_digits hdigits hne hlen, Nat.ofDigitChars_ten_toDigits]
    rfl
  rw [str, if_pos h, Except.bind, parse]
  simp only [x.lower_text]
  simp only [x.toList_text]
  rw [matchShort_append hdigits hne,
    matchLong_append hdigits hne (x.unit.word_letters x.count) hword]
  simp only [x.unit.singular_word, String.ofList_toList, DurationUnit.ofValue_value]
  rw [ofDigits, hcount]
  exact dif_pos x.count_pos

example : (Duration.parse " 90D ").toOption = some ⟨90, .day, by decide⟩ ∧
    (Duration.parse "1 wee\u212as").toOption = some ⟨1, .week, by decide⟩ ∧
    (Duration.parse "5m").toOption = some ⟨5, .month, by decide⟩ ∧
    (Duration.parse "0 days").toOption = none ∧ (Duration.parse "7 s").toOption = none := by
  decide

/-- A move by a duration keeps the order of days; there and back again it comes to the first day
or to at most three days before it, so that the day moved back bounds every day that is moved
forward to it; and a duration whose number Python writes is read back from its text. -/
theorem duration_laws :
    (∀ (o : Duration) (sign : Int) {a b a' b' : Date}, a.Valid → b.Valid → a ≤ b →
      addToDate a o sign = .ok a' → addToDate b o sign = .ok b' → a' ≤ b') ∧
    (∀ (o : Duration) (sign : Int) {d m r : Date}, d.Valid → addToDate d o sign = .ok m →
      addToDate m o (-sign) = .ok r → r ≤ d ∧ d.toOrdinal ≤ r.toOrdinal + 3) ∧
    (∀ (o : Duration) {d y s z margin : Date}, d.Valid → s.Valid → addToDate d o 1 = .ok y →
      addToDate s o (-1) = .ok z → z.addDays (-3) = .ok margin → s ≤ y → margin ≤ d) ∧
    (∀ (o : Duration) {d y e z margin : Date}, d.Valid → e.Valid → addToDate d o 1 = .ok y →
      addToDate e o (-1) = .ok z → z.addDays 3 = .ok margin → y < e → d < margin) ∧
    (∀ x : Duration, (toString x.count).length ≤ maxStrDigits →
      x.str.bind Duration.parse = .ok x) := by
  refine ⟨?_, ?_, ?_, ?_, fun x => Duration.parse_str⟩
  · intro o sign a b a' b' ha hb hle hmove hmove'
    obtain ⟨ha', hmoves, -⟩ := addToDate_eq_ok ha hmove
    obtain ⟨hb', hmoves', -⟩ := addToDate_eq_ok hb hmove'
    exact hmoves.mono ha hb ha' hb' hmoves' hle
  · intro o sign d m r hd hmove hback
    obtain ⟨hm, hmoves, -⟩ := addToDate_eq_ok hd hmove
    obtain ⟨hr, hmoves', -⟩ := addToDate_eq_ok hm hback
    exact hmoves.return hd hr hmoves'
  · intro o d y s z margin hd hs hmove hback hmargin hle
    obtain ⟨hy, hmoves, -⟩ := addToDate_eq_ok hd hmove
    obtain ⟨hz, hmoves', -⟩ := addToDate_eq_ok hs hback
    obtain ⟨hvalid, hordinal, -⟩ := Date.addDays_eq_ok hmargin
    have hzd := hmoves.le_of_le hd hy hs hz hmoves' hle
    rw [Date.le_iff_toOrdinal hz hd] at hzd
    rw [Date.le_iff_toOrdinal hvalid hd]
    omega
  · intro o d y e z margin hd he hmove hback hmargin hlt
    obtain ⟨hy, hmoves, -⟩ := addToDate_eq_ok hd hmove
    obtain ⟨hz, hmoves', -⟩ := addToDate_eq_ok he hback
    obtain ⟨hvalid, hordinal, -⟩ := Date.addDays_eq_ok hmargin
    have hdz := hmoves.le_of_lt hd hy he hz hmoves' hlt
    rw [Date.le_iff_toOrdinal hd hz] at hdz
    rw [Date.lt_iff_toOrdinal hd hvalid]
    omega

def oneMonth : Duration := ⟨1, .month, Nat.one_pos⟩

/-- The end of January 2026 moved by a month: it stays before the end of February, comes back on
28 January, and lies between the margins of 28 February and 1 March moved back. -/
theorem duration_laws_january :
    (⟨2026, 2, 28⟩ : Date) ≤ ⟨2026, 3, 28⟩ ∧ (⟨2026, 1, 28⟩ : Date) ≤ ⟨2026, 1, 31⟩ ∧
    (⟨2026, 1, 25⟩ : Date) ≤ ⟨2026, 1, 31⟩ ∧ (⟨2026, 1, 31⟩ : Date) < ⟨2026, 2, 4⟩ ∧
    oneMonth.str.bind Duration.parse = .ok oneMonth := by
  have hjan : Date.Valid ⟨2026, 1, 31⟩ := ⟨by decide, by decide, by decide, by decide⟩
  have hfeb : Date.Valid ⟨2026, 2, 28⟩ := ⟨by decide, by decide, by decide, by decide⟩
  have hmar : Date.Valid ⟨2026, 3, 1⟩ := ⟨by decide, by decide, by decide, by decide⟩
  have hle : (⟨2026, 1, 31⟩ : Date) ≤ ⟨2026, 2, 28⟩ :=
    (Date.le_iff_toOrdinal hjan hfeb).mpr (by decide)
  have hsame : (⟨2026, 2, 28⟩ : Date) ≤ ⟨2026, 2, 28⟩ :=
    (Date.le_iff_toOrdinal hfeb hfeb).mpr le_rfl
  have hlt : (⟨2026, 2, 28⟩ : Date) < ⟨2026, 3, 1⟩ := .inr ⟨rfl, .inl (by decide)⟩
  obtain ⟨hmono, hreturn, hfrom, huntil, hparse⟩ := duration_laws
  refine ⟨?_, ?_, ?_, ?_, ?_⟩
  · exact hmono oneMonth 1 hjan hfeb hle (by decide) (by decide)
  · exact (hreturn oneMonth 1 hjan (by decide : _ = Except.ok ⟨2026, 2, 28⟩) (by decide)).1
  · exact hfrom oneMonth hjan hfeb (by decide : _ = Except.ok ⟨2026, 2, 28⟩)
      (by decide : _ = Except.ok ⟨2026, 1, 28⟩) (by decide) hsame
  · exact huntil oneMonth hjan hmar (by decide : _ = Except.ok ⟨2026, 2, 28⟩)
      (by decide : _ = Except.ok ⟨2026, 2, 1⟩) (by decide) hlt
  · exact hparse oneMonth (by decide)

/-- A number of days too long for Python to write. -/
def longDuration : Duration where
  count := 10 ^ maxStrDigits
  unit := .day
  count_pos := Nat.one_le_pow _ _ (by decide)

theorem longDuration_str : longDuration.str.bind Duration.parse ≠ .ok longDuration := by
  have hlong : ¬ (toString longDuration.count).length ≤ maxStrDigits := by
    show ¬ (Nat.repr longDuration.count).length ≤ maxStrDigits
    rw [← String.length_toList, Nat.toList_repr,
      Nat.length_toDigits_le_iff (by decide) (by decide)]
    exact lt_irrefl _
  rw [Duration.str, if_neg hlong]
  exact nofun

end Canonic
