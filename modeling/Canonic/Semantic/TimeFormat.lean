import Canonic.Except
import Canonic.PyText
import Canonic.Semantic.IsoWeek
import Canonic.Semantic.Models
import Canonic.Trust.Periods

set_option autoImplicit false

/-! # Time formats

`semantic/time_format.py`: how the labels of a time dimension spell the periods they stand for. A
format is read once as a pattern, which parses labels, and once as a template, which renders them.
-/

namespace Canonic

/-! ## Formats -/

/-- What `_TOKEN` finds in a format: a placeholder, or a character outside of one. The dot of the
pattern matches no line feed. -/
inductive FormatToken where
  | text (c : Char)
  | placeholder (c : Char)
  deriving DecidableEq, Repr

def formatTokens : List Char → List FormatToken
  | '%' :: '\n' :: cs => .text '%' :: formatTokens ('\n' :: cs)
  | '%' :: c :: cs => .placeholder c :: formatTokens cs
  | c :: cs => .text c :: formatTokens cs
  | [] => []

/-- One piece of a compiled pattern: a character, or the digits of a placeholder. -/
inductive PatternItem where
  | char (c : Char)
  | group (directive : Char)
  deriving DecidableEq, Repr

/-- `DIRECTIVES`, by their names. -/
def knownDirectives : List Char := ['Y', 'G', 'q', 'm', 'V', 'd', 'H']

/-- How many digits a placeholder reads. -/
def directiveWidth (d : Char) : Nat := if d ∈ ['Y', 'G'] then 4 else if d = 'q' then 1 else 2

/-- The digits a placeholder reads: `[1-4]` or `\d`. -/
def isDirectiveDigit (d c : Char) : Bool :=
  if d = 'q' then c ∈ ['1', '2', '3', '4'] else (decimalDigit c).isSome

/-- `_placeholders`. -/
def placeholders (ds : List Char) : String :=
  ", ".intercalate (ds.map fun d => String.ofList ['%', d])

/-- A validated `time_format` for one grain. -/
structure TimeFormat where
  format : String
  grain : PeriodGrain
  directives : List Char
  pattern : List PatternItem
  deriving DecidableEq, Repr

/-- One turn of the loop of `TimeFormat.compile`. -/
def compileToken (format : String) (found : List Char × List PatternItem) :
    FormatToken → Except String (List Char × List PatternItem)
  | .text c => .ok (found.1, found.2 ++ [.char c])
  | .placeholder d =>
      if d = '%' then .ok (found.1, found.2 ++ [.char '%'])
      else if d ∉ knownDirectives then
        .error ("time_format " ++ pyRepr format ++ " uses the unsupported placeholder " ++
          String.ofList ['%', d] ++ "; use " ++ placeholders knownDirectives)
      else if d ∈ found.1 then
        .error ("time_format " ++ pyRepr format ++ " uses " ++ String.ofList ['%', d] ++ " twice")
      else .ok (found.1 ++ [d], found.2 ++ [.group d])

/-- A `%` behind the last placeholder. -/
def endsWithPercent (tokens : List FormatToken) : Bool :=
  (tokens.reverse.takeWhile fun t => match t with | .text _ => true | .placeholder _ => false).any
    (· == .text '%')

/-- `TimeFormat.compile`; an error is the text of an `InvalidTimeFormat`. -/
def TimeFormat.compile (format : String) (grain : PeriodGrain) : Except String TimeFormat := do
  let tokens := formatTokens format.toList
  let (found, pattern) ← tokens.foldlM (compileToken format) ([], [])
  if endsWithPercent tokens then
    .error ("time_format " ++ pyRepr format ++ " ends with a lone '%'")
  else
    let required := requiredDirectives grain.value
    if (∀ d ∈ found, d ∈ required) ∧ ∀ d ∈ required, d ∈ found then
      .ok ⟨format, grain, found, pattern⟩
    else
      .error ("time_format " ++ pyRepr format ++ " does not fit time_grain " ++
        pyRepr grain.value ++ ": a " ++ grain.value ++ " label needs exactly " ++
        placeholders required)

/-- `pattern.fullmatch`: the digits of each placeholder. -/
def fullmatch : List PatternItem → List Char → Option (List (Char × List Char))
  | [], [] => some []
  | [], _ :: _ => none
  | .char _ :: _, [] => none
  | .char c :: items, d :: cs => if c = d then fullmatch items cs else none
  | .group d :: items, cs =>
      let digits := cs.take (directiveWidth d)
      if digits.length = directiveWidth d ∧ digits.all (isDirectiveDigit d) then
        (fullmatch items (cs.drop (directiveWidth d))).map ((d, digits) :: ·)
      else none

/-- `datetime(year, month, day, hour)`; `none` is a `ValueError`. -/
def datetime (year month day hour : Int) : Option Moment :=
  if (1 ≤ year ∧ year ≤ 9999) ∧ (1 ≤ month ∧ month ≤ 12) ∧
      (1 ≤ day ∧ day ≤ Date.daysInMonth year month) ∧ (0 ≤ hour ∧ hour < 24) then
    some ⟨⟨year, month, day⟩, hour, 0, 0, 0⟩
  else none

namespace TimeFormat

/-- `sorts_chronologically`. -/
def sortsChronologically (f : TimeFormat) : Bool := f.directives = requiredDirectives f.grain.value

/-- The start of the period that numbers stand for. -/
def ofParts (grain : PeriodGrain) (parts : List (Char × Int)) : Option Moment :=
  if grain = .week then do
    let year ← parts.lookup 'G'
    let week ← parts.lookup 'V'
    let monday ← fromIsoCalendar year week
    return ⟨monday, 0, 0, 0, 0⟩
  else do
    let month := match parts.lookup 'q' with
      | some q => 3 * (q - 1) + 1
      | none => (parts.lookup 'm').getD 1
    let year ← parts.lookup 'Y'
    datetime year month ((parts.lookup 'd').getD 1) ((parts.lookup 'H').getD 0)

/-- `TimeFormat.parse`. -/
def parse (f : TimeFormat) (text : String) : Option Moment := do
  let groups ← fullmatch f.pattern (stripSpaces text.toList)
  let parts ← f.directives.mapM fun d => do
    let digits ← groups.lookup d
    let n ← pyInt (String.ofList digits)
    return (d, n)
  ofParts f.grain parts

/-- What a placeholder stands for at the start of a period. -/
def placeholderText (start : Moment) (d : Char) : String :=
  if d = 'Y' then Date.padded 4 start.day.year
  else if d = 'G' then Date.padded 4 (isocalendar start.day).1
  else if d = 'q' then toString ((start.day.month - 1) / 3 + 1)
  else if d = 'm' then Date.padded 2 start.day.month
  else if d = 'V' then Date.padded 2 (isocalendar start.day).2
  else if d = 'd' then Date.padded 2 start.day.day
  else if d = 'H' then Date.padded 2 start.hour
  else "%"

/-- `TimeFormat.render`. -/
def render (f : TimeFormat) (start : Moment) : String :=
  String.ofList ((formatTokens f.format.toList).flatMap fun
    | .text c => [c]
    | .placeholder d => (placeholderText start d).toList)

end TimeFormat

/-! ## Patterns and templates -/

/-- What a token is compiled to. -/
def FormatToken.item : FormatToken → PatternItem
  | .text c => .char c
  | .placeholder d => if d = '%' then .char '%' else .group d

/-- The placeholder a token is. -/
def FormatToken.directive? : FormatToken → Option Char
  | .text _ => none
  | .placeholder d => if d = '%' then none else some d

/-- The placeholder an item reads. -/
def PatternItem.directive? : PatternItem → Option Char
  | .char _ => none
  | .group d => some d

/-- The text of an item, given those of the placeholders. -/
def PatternItem.text (v : Char → List Char) : PatternItem → List Char
  | .char c => [c]
  | .group d => v d

theorem FormatToken.item_directive? (t : FormatToken) : t.item.directive? = t.directive? := by
  cases t with
  | text c => rfl
  | placeholder d =>
      rw [FormatToken.item, FormatToken.directive?]
      split
      · rfl
      · rfl

/-- The loop collects the placeholders and their items, each placeholder once. -/
theorem compileToken_foldlM {format : String} {tokens : List FormatToken} :
    ∀ {found result : List Char × List PatternItem},
      tokens.foldlM (compileToken format) found = .ok result → found.1.Nodup →
        result.1 = found.1 ++ tokens.filterMap (·.directive?) ∧
          result.2 = found.2 ++ tokens.map (·.item) ∧ result.1.Nodup ∧
          ∀ d ∈ tokens.filterMap (·.directive?), d ∈ knownDirectives := by
  -- on the tokens: a directive is known and has not been seen
  induction tokens with
  | nil =>
      intro found result h hnodup
      obtain rfl := Except.ok.inj h
      simp [hnodup]
  | cons t tokens ih =>
      intro found result h hnodup
      rw [List.foldlM_cons] at h
      obtain ⟨next, hnext, hrest⟩ := bind_eq_ok.mp h
      cases t with
      | text c =>
          obtain rfl := Except.ok.inj hnext
          obtain ⟨h₁, h₂, h₃, h₄⟩ := ih hrest hnodup
          refine ⟨h₁, ?_, h₃, h₄⟩
          rw [h₂, List.append_assoc]
          rfl
      | placeholder d =>
          rw [compileToken] at hnext
          by_cases hpercent : d = '%'
          · rw [if_pos hpercent] at hnext
            obtain rfl := Except.ok.inj hnext
            obtain ⟨h₁, h₂, h₃, h₄⟩ := ih hrest hnodup
            rw [List.filterMap_cons, List.map_cons, FormatToken.directive?, FormatToken.item,
              if_pos hpercent, if_pos hpercent]
            refine ⟨h₁, ?_, h₃, h₄⟩
            rw [h₂, List.append_assoc]
            rfl
          · rw [if_neg hpercent] at hnext
            by_cases hknown : d ∉ knownDirectives
            · rw [if_pos hknown] at hnext
              cases hnext
            · rw [if_neg hknown] at hnext
              by_cases htwice : d ∈ found.1
              · rw [if_pos htwice] at hnext
                cases hnext
              · rw [if_neg htwice] at hnext
                obtain rfl := Except.ok.inj hnext
                have hnodup' : (found.1 ++ [d]).Nodup := by
                  rw [List.nodup_append]
                  refine ⟨hnodup, List.nodup_singleton d, ?_⟩
                  rintro a ha b hb rfl
                  exact htwice (List.mem_singleton.mp hb ▸ ha)
                obtain ⟨h₁, h₂, h₃, h₄⟩ := ih hrest hnodup'
                rw [List.filterMap_cons, List.map_cons, FormatToken.directive?, FormatToken.item,
                  if_neg hpercent, if_neg hpercent]
                refine ⟨?_, ?_, h₃, ?_⟩
                · rw [h₁, List.append_assoc]
                  rfl
                · rw [h₂, List.append_assoc]
                  rfl
                · intro x hx
                  rcases List.mem_cons.mp hx with rfl | hx
                  · exact not_not.mp hknown
                  · exact h₄ x hx

/-- A compiled format: its placeholders are those its grain needs, each once. -/
structure TimeFormat.Compiled (f : TimeFormat) : Prop where
  directives_eq : f.directives = (formatTokens f.format.toList).filterMap (·.directive?)
  pattern_eq : f.pattern = (formatTokens f.format.toList).map (·.item)
  nodup : f.directives.Nodup
  required : ∀ d, d ∈ f.directives ↔ d ∈ requiredDirectives f.grain.value

theorem TimeFormat.compile_eq_ok {format : String} {grain : PeriodGrain} {f : TimeFormat}
    (h : TimeFormat.compile format grain = .ok f) :
    f.format = format ∧ f.grain = grain ∧ f.Compiled := by
  unfold TimeFormat.compile at h
  obtain ⟨⟨found, pattern⟩, hfold, h⟩ := bind_eq_ok.mp h
  obtain ⟨h₁, h₂, h₃, -⟩ := compileToken_foldlM hfold List.nodup_nil
  simp only at h
  split at h
  · cases h
  · split at h
    next hrequired =>
      obtain rfl := Except.ok.inj h
      exact ⟨rfl, rfl, h₁, h₂, h₃, fun d => ⟨hrequired.1 d, hrequired.2 d⟩⟩
    next => cases h

/-- A text made from the template matches the pattern, with the texts of the placeholders. -/
theorem fullmatch_render {v : Char → List Char} {items : List PatternItem}
    (hv : ∀ d ∈ items.filterMap (·.directive?),
      (v d).length = directiveWidth d ∧ (v d).all (isDirectiveDigit d) = true) :
    fullmatch items (items.flatMap (·.text v)) =
      some ((items.filterMap (·.directive?)).map fun d => (d, v d)) := by
  induction items with
  | nil => rfl
  | cons item items ih =>
      cases item with
      | char c =>
          rw [List.flatMap_cons]
          show (if c = c then fullmatch items (items.flatMap (·.text v)) else none) = _
          rw [if_pos rfl, ih hv]
          rfl
      | group d =>
          obtain ⟨hlen, hall⟩ := hv d (by simp [PatternItem.directive?])
          have htake : (v d ++ items.flatMap (·.text v)).take (directiveWidth d) = v d := by
            rw [← hlen, List.take_left]
          have hdrop : (v d ++ items.flatMap (·.text v)).drop (directiveWidth d) =
              items.flatMap (·.text v) := by
            rw [← hlen, List.drop_left]
          rw [List.flatMap_cons]
          show fullmatch (.group d :: items) (v d ++ items.flatMap (·.text v)) = _
          rw [fullmatch]
          simp only [htake, hdrop]
          rw [if_pos ⟨hlen, hall⟩, ih fun x hx => hv x (by
            simp only [List.filterMap_cons, PatternItem.directive?, List.mem_cons]
            exact Or.inr hx)]
          rfl

/-- A text that matches the pattern is made from the template, with the digits of the groups. -/
theorem render_of_fullmatch {items : List PatternItem} : ∀ {cs : List Char}
    {groups : List (Char × List Char)}, fullmatch items cs = some groups →
      groups.map (·.1) = items.filterMap (·.directive?) ∧
        (∀ p ∈ groups, p.2.length = directiveWidth p.1 ∧
          p.2.all (isDirectiveDigit p.1) = true ∧ ∀ c ∈ p.2, c ∈ cs) ∧
        ∀ v : Char → List Char, (∀ p ∈ groups, v p.1 = p.2) → items.flatMap (·.text v) = cs := by
  -- on the pattern: an item takes as many characters as it renders
  induction items with
  | nil =>
      intro cs groups h
      cases cs with
      | nil =>
          obtain rfl := Option.some.inj h
          exact ⟨rfl, by simp, fun _ _ => rfl⟩
      | cons c cs => cases h
  | cons item items ih =>
      intro cs groups h
      cases item with
      | char c =>
          cases cs with
          | nil => cases h
          | cons d cs =>
              rw [fullmatch] at h
              by_cases hsame : c = d
              · rw [if_pos hsame] at h
                obtain ⟨h₁, h₂, h₃⟩ := ih h
                refine ⟨h₁, fun p hp => ?_, fun v hv => ?_⟩
                · obtain ⟨hlen, hall, hmem⟩ := h₂ p hp
                  exact ⟨hlen, hall, fun x hx => List.mem_cons_of_mem _ (hmem x hx)⟩
                · rw [List.flatMap_cons, h₃ v hv, hsame]
                  rfl
              · rw [if_neg hsame] at h
                cases h
      | group d =>
          rw [fullmatch] at h
          by_cases hdigits : (cs.take (directiveWidth d)).length = directiveWidth d ∧
              (cs.take (directiveWidth d)).all (isDirectiveDigit d) = true
          · rw [if_pos hdigits] at h
            obtain ⟨rest, hrest, rfl⟩ := Option.map_eq_some_iff.mp h
            obtain ⟨h₁, h₂, h₃⟩ := ih hrest
            refine ⟨?_, fun p hp => ?_, fun v hv => ?_⟩
            · rw [List.map_cons, h₁]
              rfl
            · rcases List.mem_cons.mp hp with rfl | hp
              · exact ⟨hdigits.1, hdigits.2, fun x hx => List.mem_of_mem_take hx⟩
              · obtain ⟨hlen, hall, hmem⟩ := h₂ p hp
                exact ⟨hlen, hall, fun x hx => List.mem_of_mem_drop (hmem x hx)⟩
            · have hhead := hv _ List.mem_cons_self
              rw [List.flatMap_cons, h₃ v fun p hp => hv p (List.mem_cons_of_mem _ hp)]
              show v d ++ _ = _
              rw [hhead, List.take_append_drop]
          · rw [if_neg hdigits] at h
            cases h

/-! ## Digits -/

theorem isDigit_fixedDigits {width n : Nat} : ∀ c ∈ fixedDigits width n, c.isDigit = true := by
  induction width generalizing n with
  | zero => simp [fixedDigits]
  | succ width ih =>
      intro c hc
      rw [fixedDigits, List.mem_append, List.mem_singleton] at hc
      rcases hc with hc | rfl
      · exact ih c hc
      · rw [Nat.isDigit_digitChar, decide_eq_true_eq]
        omega

theorem ofDigitChars_fixedDigits {width n : Nat} (hn : n < 10 ^ width) :
    Nat.ofDigitChars 10 (fixedDigits width n) 0 = n := by
  induction width generalizing n with
  | zero =>
      obtain rfl : n = 0 := by omega
      rfl
  | succ width ih =>
      rw [Nat.pow_succ] at hn
      rw [fixedDigits, Nat.ofDigitChars_append, ih (by omega),
        Nat.ofDigitChars_cons_digitChar_of_lt_ten (by omega), Nat.ofDigitChars_nil]
      omega

/-- ASCII digits are the digits of their number. -/
theorem fixedDigits_ofDigitChars {cs : List Char} (h : ∀ c ∈ cs, c.isDigit = true) :
    fixedDigits cs.length (Nat.ofDigitChars 10 cs 0) = cs ∧
      Nat.ofDigitChars 10 cs 0 < 10 ^ cs.length := by
  induction cs using List.reverseRecOn with
  | nil => exact ⟨rfl, by decide⟩
  | append_singleton cs c ih =>
      obtain ⟨hdigits, hlt⟩ := ih fun d hd => h d (List.mem_append_left _ hd)
      have hrange := toNat_of_isDigit (h c (by simp))
      have hvalue : Nat.ofDigitChars 10 (cs ++ [c]) 0 =
          10 * Nat.ofDigitChars 10 cs 0 + (c.toNat - 48) := by
        rw [Nat.ofDigitChars_append, Nat.ofDigitChars_cons, Nat.ofDigitChars_nil]
        rfl
      have hchar : (c.toNat - 48).digitChar = c := by
        have hc : c = Char.ofNat c.toNat := (Char.ofNat_toNat c).symm
        rw [hc]
        generalize c.toNat = k at hrange
        obtain ⟨hlow, hhigh⟩ := hrange
        interval_cases k <;> decide
      rw [List.length_append, List.length_singleton, fixedDigits, hvalue, Nat.pow_succ]
      have hdiv : (10 * Nat.ofDigitChars 10 cs 0 + (c.toNat - 48)) / 10 =
          Nat.ofDigitChars 10 cs 0 := by omega
      have hmod : (10 * Nat.ofDigitChars 10 cs 0 + (c.toNat - 48)) % 10 = c.toNat - 48 := by omega
      rw [hdiv, hmod, hdigits, hchar]
      exact ⟨rfl, by omega⟩

/-! ## The numbers of a label -/

namespace TimeFormat

/-- The number a placeholder stands for at the start of a period. -/
def component (start : Moment) (d : Char) : Int :=
  if d = 'Y' then start.day.year
  else if d = 'G' then (isocalendar start.day).1
  else if d = 'q' then (start.day.month - 1) / 3 + 1
  else if d = 'm' then start.day.month
  else if d = 'V' then (isocalendar start.day).2
  else if d = 'd' then start.day.day
  else start.hour

/-- A placeholder is rendered as the digits of its number. -/
theorem placeholderText_toList {start : Moment} {d : Char} (hd : d ∈ knownDirectives)
    (hpos : 0 ≤ component start d) (hlt : component start d < 10 ^ directiveWidth d) :
    (placeholderText start d).toList =
      fixedDigits (directiveWidth d) (component start d).toNat := by
  have hlt' : (component start d).toNat < 10 ^ directiveWidth d := by
    rw [← Nat.cast_lt (α := Int), Int.toNat_of_nonneg hpos]
    push_cast
    exact hlt
  simp only [knownDirectives, List.mem_cons, List.not_mem_nil, or_false] at hd
  rcases hd with rfl | rfl | rfl | rfl | rfl | rfl | rfl
  · exact toList_padded (by decide) hlt'
  · exact toList_padded (by decide) hlt'
  · have hq : ∀ n : Int, 0 ≤ n → n < 10 → (toString n).toList = fixedDigits 1 n.toNat := by
      intro n h₁ h₂
      interval_cases n <;> decide
    exact hq _ hpos hlt
  · exact toList_padded (by decide) hlt'
  · exact toList_padded (by decide) hlt'
  · exact toList_padded (by decide) hlt'
  · exact toList_padded (by decide) hlt'

theorem render_toList {f : TimeFormat} (hf : f.Compiled) (start : Moment) :
    (f.render start).toList =
      f.pattern.flatMap (·.text fun d => (placeholderText start d).toList) := by
  rw [render, String.toList_ofList, hf.pattern_eq, List.flatMap_map]
  apply List.flatMap_congr
  intro t _
  cases t with
  | text c => rfl
  | placeholder d =>
      rw [FormatToken.item]
      by_cases hd : d = '%'
      · rw [if_pos hd, hd]
        simp [placeholderText, PatternItem.text]
      · rw [if_neg hd]
        rfl

/-- A moment that a period starts at. -/
structure Starts (g : PeriodGrain) (s : Moment) : Prop where
  valid : s.Valid
  floor : floorToGrain s g = .ok s

/-- All periods but the hours start at midnight. -/
theorem Starts.midnight {g : PeriodGrain} {s : Moment} (h : Starts g s) (hg : g ≠ .hour) :
    s.day.toOrdinal = unitStart g.unit (unitIndex g.unit s.day) ∧ s = s.midnight := by
  obtain ⟨-, hinstant⟩ := floorToGrain_eq_ok h.valid h.floor
  rw [periodStart, periodNumber, if_neg hg, if_neg hg] at hinstant
  exact h.valid.time_eq_zero hinstant

/-- A week starts on a Monday. -/
theorem Starts.week {s : Moment} (h : Starts .week s) : s = s.midnight ∧ s.day.weekday = 0 := by
  obtain ⟨hordinal, hmidnight⟩ := h.midnight (by decide)
  refine ⟨hmidnight, ?_⟩
  have hstart : ∀ i : Int, unitStart PeriodGrain.week.unit i = 7 * i - 6 := fun _ => rfl
  rw [hstart] at hordinal
  unfold Date.weekday
  omega

/-- The ISO year and week of the start of a week. -/
theorem Starts.iso {s : Moment} (h : Starts .week s) :
    fromIsoCalendar (isocalendar s.day).1 (isocalendar s.day).2 = some s.day ∧
      (1 ≤ (isocalendar s.day).1 ∧ (isocalendar s.day).1 ≤ 9999) ∧
      1 ≤ (isocalendar s.day).2 ∧ (isocalendar s.day).2 ≤ 53 := by
  have hiso := fromIsoCalendar_isocalendar h.valid.day h.valid.year h.week.2
  exact ⟨hiso, fromIsoCalendar_bounds hiso⟩

theorem isDirectiveDigit_of_isDigit {d c : Char} (hd : d ≠ 'q') (hc : c.isDigit = true) :
    isDirectiveDigit d c = true := by
  rw [isDirectiveDigit, if_neg hd, decimalDigit_ascii hc]
  rfl

/-- The numbers of the start of a period have as many digits as their placeholders read. -/
theorem component_bounds {g : PeriodGrain} {s : Moment} (hs : Starts g s) {d : Char}
    (hd : d ∈ requiredDirectives g.value) : d ∈ knownDirectives ∧ 0 ≤ component s d ∧
      component s d < 10 ^ directiveWidth d ∧
      (fixedDigits (directiveWidth d) (component s d).toNat).all (isDirectiveDigit d) = true := by
  have hyear := hs.valid.year
  have hm := hs.valid.day.month_pos
  have hm' := hs.valid.day.month_le
  have hday := hs.valid.day.day_pos
  have hday' := hs.valid.day.day_le
  have hlen := Date.daysInMonth_bounds s.day.year s.day.month
  have hhour := hs.valid.hour
  unfold Date.InRange at hyear
  -- the digits of every placeholder but the quarter are any digits
  have hall : ∀ n : Nat, d ≠ 'q' →
      (fixedDigits (directiveWidth d) n).all (isDirectiveDigit d) = true := by
    intro n hq
    rw [List.all_eq_true]
    exact fun c hc => isDirectiveDigit_of_isDigit hq (isDigit_fixedDigits c hc)
  have hcases : d ∈ ['Y', 'm', 'd', 'H'] ∨ d = 'q' ∨ (g = .week ∧ d ∈ ['G', 'V']) := by
    revert hd
    cases g <;> simp [requiredDirectives, PeriodGrain.value] <;> grind
  rcases hcases with hcal | rfl | ⟨rfl, hiso⟩
  · simp only [List.mem_cons, List.not_mem_nil, or_false] at hcal
    rcases hcal with rfl | rfl | rfl | rfl
    · refine ⟨by decide, ?_, ?_, hall _ (by decide)⟩ <;> simp [component, directiveWidth] <;> omega
    · refine ⟨by decide, ?_, ?_, hall _ (by decide)⟩ <;> simp [component, directiveWidth] <;> omega
    · refine ⟨by decide, ?_, ?_, hall _ (by decide)⟩ <;> simp [component, directiveWidth] <;> omega
    · refine ⟨by decide, ?_, ?_, hall _ (by decide)⟩ <;> simp [component, directiveWidth] <;> omega
  · have hq : ∀ n : Int, 1 ≤ n → n ≤ 4 →
        (fixedDigits 1 n.toNat).all (isDirectiveDigit 'q') = true := by
      intro n h₁ h₂
      interval_cases n <;> decide
    have hvalue : component s 'q' = (s.day.month - 1) / 3 + 1 := by simp [component]
    refine ⟨by decide, by omega, ?_, ?_⟩
    · show component s 'q' < 10 ^ 1
      omega
    · exact hq _ (by omega) (by omega)
  · obtain ⟨-, hyear', hweek⟩ := hs.iso
    simp only [List.mem_cons, List.not_mem_nil, or_false] at hiso
    rcases hiso with rfl | rfl
    · refine ⟨by decide, ?_, ?_, hall _ (by decide)⟩ <;> simp [component, directiveWidth] <;> omega
    · refine ⟨by decide, ?_, ?_, hall _ (by decide)⟩ <;> simp [component, directiveWidth] <;> omega

theorem lookup_map_self {β : Type} (v : Char → β) (ds : List Char) (d : Char) :
    (ds.map fun x => (x, v x)).lookup d = if d ∈ ds then some (v d) else none := by
  induction ds with
  | nil => rfl
  | cons x ds ih =>
      rw [List.map_cons, List.lookup_cons]
      by_cases hx : d = x
      · subst hx
        simp
      · have hbeq : (d == x) = false := by simpa using hx
        rw [hbeq, ih]
        simp [hx]

theorem mapM_some {β : Type} {f : Char → Option β} {v : Char → β} {ds : List Char}
    (h : ∀ d ∈ ds, f d = some (v d)) : ds.mapM f = some (ds.map v) := by
  induction ds with
  | nil => rfl
  | cons d ds ih =>
      rw [List.mapM_cons, h d List.mem_cons_self, ih fun x hx => h x (List.mem_cons_of_mem _ hx)]
      rfl

/-- The numbers of the start of a period lead back to it. -/
theorem ofParts_starts {g : PeriodGrain} {s : Moment} (hs : Starts g s)
    {parts : List (Char × Int)} (hparts : ∀ d, parts.lookup d =
      if d ∈ requiredDirectives g.value then some (component s d) else none) :
    ofParts g parts = some s := by
  -- the moment is named by its date and hour, as nothing is left below the hour
  have hcalendar : ∀ y m d h : Int, y = s.day.year → m = s.day.month → d = s.day.day →
      h = s.hour → s.minute = 0 ∧ s.second = 0 ∧ s.microsecond = 0 → datetime y m d h = some s := by
    rintro y m d h rfl rfl rfl rfl ⟨hminute, hsecond, hmicro⟩
    have hvalid := hs.valid.day
    rw [datetime, if_pos ⟨hs.valid.year, ⟨hvalid.month_pos, hvalid.month_le⟩,
      ⟨hvalid.day_pos, hvalid.day_le⟩, hs.valid.hour⟩]
    obtain ⟨⟨y, m, d⟩, h, mi, sec, mu⟩ := s
    simp only at hminute hsecond hmicro
    rw [hminute, hsecond, hmicro]
  have hyes : ∀ d, d ∈ requiredDirectives g.value → parts.lookup d = some (component s d) :=
    fun d hd => (hparts d).trans (if_pos hd)
  have hno : ∀ d, d ∉ requiredDirectives g.value → parts.lookup d = none :=
    fun d hd => (hparts d).trans (if_neg hd)
  have hfloor := hs.floor
  cases g with
  | week =>
      rw [ofParts, if_pos rfl, hyes 'G' (by decide), hyes 'V' (by decide)]
      show (fromIsoCalendar (isocalendar s.day).1 (isocalendar s.day).2).bind _ = _
      rw [hs.iso.1]
      exact congrArg some hs.week.1.symm
  | year =>
      have hsame := Except.ok.inj hfloor
      rw [ofParts, if_neg (by decide), hyes 'Y' (by decide), hno 'q' (by decide),
        hno 'm' (by decide), hno 'd' (by decide), hno 'H' (by decide)]
      apply hcalendar _ _ _ _ rfl
      · rw [← hsame]
        rfl
      · rw [← hsame]
        rfl
      · rw [← hsame]
        rfl
      · rw [← hsame]
        exact ⟨rfl, rfl, rfl⟩
  | quarter =>
      have hsame := Except.ok.inj hfloor
      have hmonth : s.day.month = 3 * ((s.day.month - 1) / 3) + 1 :=
        (congrArg (fun m : Moment => m.day.month) hsame).symm
      rw [ofParts, if_neg (by decide), hyes 'Y' (by decide), hyes 'q' (by decide),
        hno 'd' (by decide), hno 'H' (by decide)]
      apply hcalendar _ _ _ _ rfl
      · show 3 * ((s.day.month - 1) / 3 + 1 - 1) + 1 = s.day.month
        rw [add_sub_cancel_right, ← hmonth]
      · rw [← hsame]
        rfl
      · rw [← hsame]
        rfl
      · rw [← hsame]
        exact ⟨rfl, rfl, rfl⟩
  | month =>
      have hsame := Except.ok.inj hfloor
      rw [ofParts, if_neg (by decide), hyes 'Y' (by decide), hno 'q' (by decide),
        hyes 'm' (by decide), hno 'd' (by decide), hno 'H' (by decide)]
      apply hcalendar _ _ _ _ rfl rfl
      · rw [← hsame]
        rfl
      · rw [← hsame]
        rfl
      · rw [← hsame]
        exact ⟨rfl, rfl, rfl⟩
  | day =>
      have hsame := Except.ok.inj hfloor
      rw [ofParts, if_neg (by decide), hyes 'Y' (by decide), hno 'q' (by decide),
        hyes 'm' (by decide), hyes 'd' (by decide), hno 'H' (by decide)]
      apply hcalendar _ _ _ _ rfl rfl rfl
      · rw [← hsame]
        rfl
      · rw [← hsame]
        exact ⟨rfl, rfl, rfl⟩
  | hour =>
      have hsame := Except.ok.inj hfloor
      rw [ofParts, if_neg (by decide), hyes 'Y' (by decide), hno 'q' (by decide),
        hyes 'm' (by decide), hyes 'd' (by decide), hyes 'H' (by decide)]
      apply hcalendar _ _ _ _ rfl rfl rfl rfl
      rw [← hsame]
      exact ⟨rfl, rfl, rfl⟩

end TimeFormat

end Canonic
