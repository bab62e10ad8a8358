import Canonic.Core.DecomposeMethods
import Canonic.Lib
import Canonic.Semantic.LabelRoundTrip
import Canonic.Sql.Analytic

set_option autoImplicit false

/-! # The periods of a decomposition

`_period_predicate` and `_period_index` of `core/decompose.py`: the filter that fetches the rows of
two periods, and the attribution of a fetched row to one of them by the bucket it is in. The SQL
parser reads the filter, the warehouse its bounds, and `datetime.fromisoformat` the texts of
buckets; of these, only what they do with comparisons and ISO texts is used.
-/

namespace Canonic

open TimeFormat (Starts)

/-! ## Values -/

/-- A value of a period dimension, as a request or a row has it. An offset from UTC is in
microseconds. -/
inductive PeriodValue where
  | datetime (moment : Moment) (utcoffset : Option Int)
  | date (day : Date)
  | bool (b : Bool)
  | int (n : Int)
  | text (s : String)
  | null
  | other (str : String)
  deriving DecidableEq, Repr

/-- The time of a moment, to the second. -/
def Moment.timeText (m : Moment) : String :=
  Date.padded 2 m.hour ++ ":" ++ Date.padded 2 m.minute ++ ":" ++ Date.padded 2 m.second

/-- An offset as `isoformat` writes it. -/
def offsetText (offset : Int) : String :=
  let n : Int := offset.natAbs
  let seconds := n / 1000000
  (if offset < 0 then "-" else "+") ++ Date.padded 2 (seconds / 3600) ++ ":" ++
    Date.padded 2 (seconds / 60 % 60) ++
    (if n % 60000000 = 0 then "" else ":" ++ Date.padded 2 (seconds % 60)) ++
    (if n % 1000000 = 0 then "" else "." ++ Date.padded 6 (n % 1000000))

/-- `str(value)`. -/
def PeriodValue.str : PeriodValue → String
  | .datetime m offset =>
      m.day.isoformat ++ " " ++ m.timeText ++
        (if m.microsecond = 0 then "" else "." ++ Date.padded 6 m.microsecond) ++
        (offset.map offsetText).getD ""
  | .date d => d.isoformat
  | .bool b => if b then "True" else "False"
  | .int n => toString n
  | .text s => s
  | .null => "None"
  | .other s => s

/-! ## Reading the start of a period -/

/-- `_YEAR`. -/
def yearForms : List (List PatternItem) := [[.group 'Y']]

/-- `_MONTH`. -/
def monthForms : List (List PatternItem) := [[.group 'Y', .char '-', .group 'm']]

/-- `_QUARTER`. -/
def quarterForms : List (List PatternItem) :=
  [[.group 'Y', .char '-', .char 'Q', .group 'q'], [.group 'Y', .char 'Q', .group 'q'],
   [.group 'Y', .char '-', .char 'q', .group 'q'], [.group 'Y', .char 'q', .group 'q']]

/-- `_WEEK`. -/
def weekForms : List (List PatternItem) :=
  [[.group 'Y', .char '-', .char 'W', .group 'V'], [.group 'Y', .char 'W', .group 'V'],
   [.group 'Y', .char '-', .char 'w', .group 'V'], [.group 'Y', .char 'w', .group 'V']]

/-- The groups of the first form that a text has. -/
def matchForms (forms : List (List PatternItem)) (text : List Char) :
    Option (List (Char × List Char)) :=
  forms.findSome? (fullmatch · text)

/-- `int(match[d])`. -/
def groupNumber (groups : List (Char × List Char)) (d : Char) : Option Int :=
  (groups.lookup d).bind fun digits => pyInt (String.ofList digits)

/-- The Monday of an ISO week, at midnight. -/
def isoMonday (year week : Int) : Option Moment :=
  (fromIsoCalendar year week).map fun monday => ⟨monday, 0, 0, 0, 0⟩

/-- `value.astimezone(UTC).replace(tzinfo=None) if value.tzinfo else value`. -/
def naiveUtc (m : Moment) : Option Int → Except Err (Option Moment)
  | none => .ok (some m)
  | some offset => some <$> m.add (-offset)

section

-- `datetime.fromisoformat`: a moment and its offset; `none` is a `ValueError`
variable (fromisoformat : String → Option (Moment × Option Int))

/-- `parse_period_start` of a stripped text without a `time_format`. -/
def parsePeriodText (text : List Char) (grain : PeriodGrain) : Except Err (Option Moment) :=
  match matchForms yearForms text with
  | some groups => .ok do datetime (← groupNumber groups 'Y') 1 1 0
  | none =>
    match matchForms monthForms text with
    | some groups => .ok do
        let year ← groupNumber groups 'Y'
        let month ← groupNumber groups 'm'
        -- on a week grain the second number is the week
        if grain = .week then isoMonday year month else datetime year month 1 0
    | none =>
      match matchForms quarterForms text with
      | some groups => .ok do
          datetime (← groupNumber groups 'Y') (3 * ((← groupNumber groups 'q') - 1) + 1) 1 0
      | none =>
        match matchForms weekForms text with
        | some groups => .ok do isoMonday (← groupNumber groups 'Y') (← groupNumber groups 'V')
        | none =>
          match fromisoformat (String.ofList text) with
          | some (m, offset) => naiveUtc m offset
          | none => .ok none

/-- `parse_period_start`. -/
def parsePeriodStart (value : PeriodValue) (grain : PeriodGrain)
    (timeFormat : Option TimeFormat) : Except Err (Option Moment) :=
  match value with
  | .datetime m offset => naiveUtc m offset
  | .date d => .ok (some ⟨d, 0, 0, 0, 0⟩)
  | .bool _ => .ok none
  | .int n =>
      match timeFormat with
      | some f => .ok (f.parse (toString n))
      | none =>
          if grain = .year ∧ 1 ≤ n ∧ n ≤ 9999 then .ok (some ⟨⟨n, 1, 1⟩, 0, 0, 0, 0⟩) else .ok none
  | .text s =>
      match timeFormat with
      | some f => .ok (f.parse s)
      | none => parsePeriodText fromisoformat (stripSpaces s.toList) grain
  | .null => .ok none
  | .other _ => .ok none

/-! ## The filter and the attribution -/

/-- `_Period`: the two periods that are compared. -/
structure Period where
  grain : PeriodGrain
  base : Option Moment
  compare : Option Moment
  predicate : String
  labels : PeriodLabels
  byLabel : Bool := false
  deriving DecidableEq, Repr

/-- A moment as `_instant` spells it, without the quotes. -/
def instantText (m : Moment) : String :=
  if m = m.midnight then m.day.isoformat else m.day.isoformat ++ " " ++ m.timeText

/-- `_target`. -/
def periodTarget (joinAlias : String) (dimension : Dimension) : String :=
  if dimension.isDerived then dimension.name else joinAlias ++ "." ++ dimension.column.getD "None"

/-- The two literals, as `_instant` spells them, between which the rows of a period are. -/
def periodRange (grain : PeriodGrain) (start : Moment) : Except Err (String × String) := do
  return (instantText start, instantText (← periodEnd start grain))

/-- `_period_predicate`. -/
def periodPredicate (target : String) (grain : PeriodGrain) (base compare : Moment) :
    Except Err String := do
  let ranges ← [base, compare].mapM (periodRange grain)
  return "(" ++ " OR ".intercalate (ranges.map fun r =>
    "(" ++ target ++ " >= '" ++ r.1 ++ "' AND " ++ target ++ " < '" ++ r.2 ++ "')") ++ ")"

/-- `_label_key`. -/
def labelKey : PeriodValue → Option (List Char)
  | .null => none
  | value => some (stripSpaces value.str.toList)

/-- `_period_index`. -/
def periodIndex (value : PeriodValue) (period : Period) : Except Err (Option Nat) :=
  if period.byLabel then
    let key := labelKey value
    if key = labelKey (.text period.labels.base) then .ok (some 0)
    else if key = labelKey (.text period.labels.compare) then .ok (some 1)
    else .ok none
  else do
    match ← parsePeriodStart fromisoformat value period.grain none with
    | none => return none
    | some moment =>
        let start ← floorToGrain moment period.grain
        if some start = period.base then return some 0
        else if some start = period.compare then return some 1
        else return none

end

/-- A request gives a period as a text or as a number. -/
def PeriodValue.Requested : PeriodValue → Prop
  | .text _ => True
  | .int _ => True
  | _ => False

/-- A request's value in a message. -/
def PeriodValue.repr : PeriodValue → String
  | .text s => pyRepr s
  | value => value.str

/-- `_resolve_period` for a dimension without `time_grain`. -/
def resolvePeriod (fromisoformat : String → Option (Moment × Option Int)) (joinAlias : String)
    (dimension : Dimension) (name : String) (grain : PeriodGrain) (base compare : PeriodValue)
    (labels : PeriodLabels) : Except Err Period := do
  let starts ← [base, compare].mapM fun value => do
    match ← parsePeriodStart fromisoformat value grain none with
    | none => .error (.validationFailed (value.repr ++ " is not a " ++ grain.value ++
        " of dimension " ++ pyRepr name))
    | some start => floorToGrain start grain
  match starts with
  | [b, c] =>
      if b = c then
        .error (.validationFailed ("base " ++ base.repr ++ " and compare " ++ compare.repr ++
          " are the same " ++ grain.value ++ "; decompose compares two distinct periods"))
      else
        let predicate ← periodPredicate (periodTarget joinAlias dimension) grain b c
        return ⟨grain, some b, some c, predicate, labels, false⟩
  | _ => .error (.internal "unreachable")

/-! ## ISO texts -/

/-- `YYYY-MM-DD HH:MM:SS`, or with another separator. -/
def Moment.isoText (m : Moment) (sep : Char) : String :=
  m.day.isoformat ++ String.ofList [sep] ++ m.timeText

/-- A reader of texts that reads the ISO texts of days and of moments. -/
structure ReadsIso (read : String → Option Moment) : Prop where
  day : ∀ d : Date, d.Valid → d.InRange → read d.isoformat = some ⟨d, 0, 0, 0, 0⟩
  time : ∀ m : Moment, m.Valid → m.microsecond = 0 → ∀ sep ∈ [' ', 'T'],
    read (m.isoText sep) = some m

/-- The naive moments that `datetime.fromisoformat` reads. -/
def naiveOf (fromisoformat : String → Option (Moment × Option Int)) (t : String) :
    Option Moment :=
  (fromisoformat t).bind fun r => if r.2 = none then some r.1 else none

/-- A reader of ISO texts whose moments are those of the calendar. -/
structure ReadsDatetimes (fromisoformat : String → Option (Moment × Option Int)) : Prop where
  iso : ReadsIso (naiveOf fromisoformat)
  valid : ∀ t r, fromisoformat t = some r → r.1.Valid

theorem ReadsIso.instantText {read : String → Option Moment} (h : ReadsIso read) {m : Moment}
    (hm : m.Valid) (hmicro : m.microsecond = 0) : read (instantText m) = some m := by
  unfold Canonic.instantText
  by_cases hmidnight : m = m.midnight
  · rw [if_pos hmidnight, h.day m.day hm.day hm.year]
    exact congrArg some hmidnight.symm
  · rw [if_neg hmidnight]
    exact h.time m hm hmicro ' ' (by decide)

/-- The form of the text of a day, or of a moment with a separator. -/
def isoForm : Option Char → List PatternItem
  | none => [.group 'Y', .char '-', .group 'm', .char '-', .group 'd']
  | some sep => [.group 'Y', .char '-', .group 'm', .char '-', .group 'd', .char sep, .group 'H',
      .char ':', .group 'M', .char ':', .group 'S']

/-- The moment that an ISO text spells. -/
def readIso (text : String) : Option Moment := do
  let groups ← fullmatch (isoForm text.toList[10]?) text.toList
  let number := fun d => (groupNumber groups d).getD 0
  let moment ← datetime (number 'Y') (number 'm') (number 'd') (number 'H')
  if (0 ≤ number 'M' ∧ number 'M' < 60) ∧ (0 ≤ number 'S' ∧ number 'S' < 60) then
    some { moment with minute := number 'M', second := number 'S' }
  else none

theorem toList_isoformat {d : Date} (hd : d.Valid) (hyear : d.InRange) :
    d.isoformat.toList = fixedDigits 4 d.year.toNat ++
      ('-' :: (fixedDigits 2 d.month.toNat ++ '-' :: fixedDigits 2 d.day.toNat)) := by
  have hm := hd.month_pos
  have hm' := hd.month_le
  have hday := hd.day_pos
  have hday' := hd.day_le
  have hlen := Date.daysInMonth_bounds d.year d.month
  unfold Date.InRange at hyear
  rw [Date.isoformat]
  simp only [String.toList_append]
  rw [toList_padded (by decide) (by omega), toList_padded (by decide) (by omega),
    toList_padded (by decide) (by omega)]
  simp

theorem toList_timeText {m : Moment} (hm : m.Valid) :
    m.timeText.toList = fixedDigits 2 m.hour.toNat ++
      (':' :: (fixedDigits 2 m.minute.toNat ++ ':' :: fixedDigits 2 m.second.toNat)) := by
  have hhour := hm.hour
  have hminute := hm.minute
  have hsecond := hm.second
  rw [Moment.timeText]
  simp only [String.toList_append]
  rw [toList_padded (by decide) (by omega), toList_padded (by decide) (by omega),
    toList_padded (by decide) (by omega)]
  simp

/-- What a moment has where an ISO text has a group. -/
def isoComponent (m : Moment) (d : Char) : Int :=
  if d = 'Y' then m.day.year
  else if d = 'm' then m.day.month
  else if d = 'd' then m.day.day
  else if d = 'H' then m.hour
  else if d = 'M' then m.minute
  else m.second

/-- The groups of an ISO text are the digits of its moment. -/
theorem fullmatch_isoForm {m : Moment} (hm : m.Valid) {items : List PatternItem}
    (hitems : ∀ d ∈ items.filterMap (·.directive?), d ∈ ['Y', 'm', 'd', 'H', 'M', 'S']) :
    ∃ groups, fullmatch items (items.flatMap
        (·.text fun d => fixedDigits (directiveWidth d) (isoComponent m d).toNat)) = some groups ∧
      ∀ d, (groupNumber groups d).getD 0 =
        if d ∈ items.filterMap (·.directive?) then isoComponent m d else 0 := by
  have hyear := hm.year
  have hmonth := hm.day.month_pos
  have hmonth' := hm.day.month_le
  have hday := hm.day.day_pos
  have hday' := hm.day.day_le
  have hlen := Date.daysInMonth_bounds m.day.year m.day.month
  have hhour := hm.hour
  have hminute := hm.minute
  have hsecond := hm.second
  unfold Date.InRange at hyear
  have hbounds : ∀ d ∈ ['Y', 'm', 'd', 'H', 'M', 'S'], d ≠ 'q' ∧ 0 ≤ isoComponent m d ∧
      isoComponent m d < 10 ^ directiveWidth d := by
    simp only [List.forall_mem_cons, isoComponent, directiveWidth]
    simp
    omega
  refine ⟨_, fullmatch_render ?_, ?_⟩
  · intro d hd
    refine ⟨length_fixedDigits _ _, List.all_eq_true.mpr fun c hc => ?_⟩
    exact TimeFormat.isDirectiveDigit_of_isDigit (hbounds d (hitems d hd)).1
      (isDigit_fixedDigits c hc)
  · intro d
    rw [groupNumber, TimeFormat.lookup_map_self]
    by_cases hd : d ∈ items.filterMap (·.directive?)
    · obtain ⟨-, hpos, hlt⟩ := hbounds d (hitems d hd)
      rw [if_pos hd, if_pos hd, Option.bind_some, TimeFormat.pyInt_fixedDigits hpos hlt]
      rfl
    · rw [if_neg hd, if_neg hd]
      rfl

theorem datetime_of_valid {m : Moment} (hm : m.Valid) {hour : Int} (hhour : 0 ≤ hour ∧ hour < 24) :
    datetime m.day.year m.day.month m.day.day hour = some ⟨m.day, hour, 0, 0, 0⟩ :=
  if_pos ⟨hm.year, ⟨hm.day.month_pos, hm.day.month_le⟩, ⟨hm.day.day_pos, hm.day.day_le⟩, hhour⟩

theorem readsIso_readIso : ReadsIso readIso := by
  refine ⟨fun d hd hyear => ?_, fun m hm hmicro sep hsep => ?_⟩
  · have hm : Moment.Valid ⟨d, 0, 0, 0, 0⟩ := valid_midnight (m := ⟨d, 0, 0, 0, 0⟩) hd hyear
    obtain ⟨groups, hgroups, hnumber⟩ := @fullmatch_isoForm _ hm (isoForm none)
      (by simp [isoForm, PatternItem.directive?])
    have htext : d.isoformat.toList = (isoForm none).flatMap (·.text fun x =>
        fixedDigits (directiveWidth x) (isoComponent ⟨d, 0, 0, 0, 0⟩ x).toNat) := by
      rw [toList_isoformat hd hyear]
      simp [isoForm, PatternItem.text, isoComponent, directiveWidth]
    have hshort : d.isoformat.toList[10]? = none := by
      rw [List.getElem?_eq_none_iff, toList_isoformat hd hyear]
      simp
    rw [readIso, hshort, htext, hgroups]
    simp only [Option.bind_eq_bind, Option.bind_some, hnumber]
    show (datetime d.year d.month d.day 0).bind _ = _
    rw [datetime_of_valid hm (by decide)]
    rfl
  · obtain ⟨groups, hgroups, hnumber⟩ := @fullmatch_isoForm _ hm (isoForm (some sep))
      (by simp [isoForm, PatternItem.directive?])
    have htext : (m.isoText sep).toList = (isoForm (some sep)).flatMap (·.text fun x =>
        fixedDigits (directiveWidth x) (isoComponent m x).toNat) := by
      rw [Moment.isoText, String.toList_append, String.toList_append, String.toList_ofList,
        toList_isoformat hm.day hm.year, toList_timeText hm]
      simp [isoForm, PatternItem.text, isoComponent, directiveWidth]
    have hsep' : (m.isoText sep).toList[10]? = some sep := by
      have hday : m.day.isoformat.toList.length = 10 := by
        rw [toList_isoformat hm.day hm.year]
        simp
      rw [Moment.isoText, String.toList_append, String.toList_append, String.toList_ofList,
        List.append_assoc, List.getElem?_append_right (by omega), hday]
      rfl
    rw [readIso, hsep', htext, hgroups]
    simp only [Option.bind_eq_bind, Option.bind_some, hnumber]
    show (datetime m.day.year m.day.month m.day.day m.hour).bind (fun moment =>
      if (0 ≤ m.minute ∧ m.minute < 60) ∧ (0 ≤ m.second ∧ m.second < 60) then
        some { moment with minute := m.minute, second := m.second } else none) = _
    rw [datetime_of_valid hm hm.hour, Option.bind_some, if_pos ⟨hm.minute, hm.second⟩]
    obtain ⟨day, hour, minute, second, micro⟩ := m
    simp only at hmicro
    rw [hmicro]

/-- A text that starts and ends with a digit is not changed by stripping. -/
theorem stripSpaces_digits {front mid back : List Char} (hfront : front ≠ []) (hback : back ≠ [])
    (hdigits : ∀ c ∈ front ++ back, c.isDigit = true) :
    stripSpaces (front ++ (mid ++ back)) = front ++ (mid ++ back) := by
  have hdrop : ∀ {c : Char} (cs : List Char), c.isDigit = true →
      (c :: cs).dropWhile isPySpace = c :: cs := by
    intro c cs hc
    rw [List.dropWhile_cons_of_neg]
    rw [isPySpace_of_isDigit hc]
    decide
  rw [stripSpaces_eq_self_iff]
  constructor
  · cases front with
    | nil => exact absurd rfl hfront
    | cons c front => exact hdrop _ (hdigits c (by simp))
  · cases back using List.reverseRecOn with
    | nil => exact absurd rfl hback
    | append_singleton back c _ =>
        rw [← List.append_assoc, ← List.append_assoc, List.reverse_append]
        exact hdrop _ (hdigits c (by simp))

/-- A text matches no form of another length. -/
theorem matchForms_eq_none {forms : List (List PatternItem)} {text : List Char}
    (h : ∀ items ∈ forms, (items.map PatternItem.width).sum ≠ text.length) :
    matchForms forms text = none := by
  rw [matchForms, List.findSome?_eq_none_iff]
  intro items hitems
  cases hmatch : fullmatch items text with
  | none => rfl
  | some groups => exact absurd (length_of_fullmatch hmatch).symm (h items hitems)

section

variable {fromisoformat : String → Option (Moment × Option Int)}

/-- A text longer than every label form is read by `fromisoformat`. -/
theorem parsePeriodText_long {text : List Char} (hlen : 9 ≤ text.length) (g : PeriodGrain)
    {s : Moment} (hread : naiveOf fromisoformat (String.ofList text) = some s) :
    parsePeriodText fromisoformat text g = .ok (some s) := by
  have hnone : ∀ forms : List (List PatternItem),
      (∀ items ∈ forms, (items.map PatternItem.width).sum < 9) → matchForms forms text = none := by
    intro forms h
    apply matchForms_eq_none
    intro items hitems
    have := h items hitems
    omega
  obtain ⟨⟨m, offset⟩, hiso, hm⟩ := Option.bind_eq_some_iff.mp hread
  rw [parsePeriodText, hnone yearForms (by decide), hnone monthForms (by decide),
    hnone quarterForms (by decide), hnone weekForms (by decide), hiso]
  simp only at hm ⊢
  by_cases hoffset : offset = none
  · rw [if_pos hoffset] at hm
    rw [hoffset, ← Option.some.inj hm]
    rfl
  · rw [if_neg hoffset] at hm
    cases hm

theorem parsePeriodStart_day (hiso : ReadsIso (naiveOf fromisoformat)) (g : PeriodGrain) {d : Date}
    (hd : d.Valid) (hyear : d.InRange) :
    parsePeriodStart fromisoformat (.text d.isoformat) g none =
      .ok (some ⟨d, 0, 0, 0, 0⟩) := by
  have htext := toList_isoformat hd hyear
  have hstrip : stripSpaces d.isoformat.toList = d.isoformat.toList := by
    rw [htext]
    have := @stripSpaces_digits (fixedDigits 4 d.year.toNat)
      ('-' :: (fixedDigits 2 d.month.toNat ++ ['-'])) (fixedDigits 2 d.day.toNat)
      (by simp [← List.length_pos_iff]) (by simp [← List.length_pos_iff]) (by
        intro c hc
        rcases List.mem_append.mp hc with hc | hc
        · exact isDigit_fixedDigits c hc
        · exact isDigit_fixedDigits c hc)
    simpa using this
  show parsePeriodText fromisoformat (stripSpaces d.isoformat.toList) g = _
  rw [hstrip]
  apply parsePeriodText_long
  · rw [htext]
    simp
  · rw [String.ofList_toList]
    exact hiso.day d hd hyear

theorem parsePeriodStart_time (hiso : ReadsIso (naiveOf fromisoformat)) (g : PeriodGrain)
    {m : Moment} (hm : m.Valid) (hmicro : m.microsecond = 0) {sep : Char}
    (hsep : sep ∈ [' ', 'T']) :
    parsePeriodStart fromisoformat (.text (m.isoText sep)) g none = .ok (some m) := by
  have htext : (m.isoText sep).toList = fixedDigits 4 m.day.year.toNat ++
      (('-' :: (fixedDigits 2 m.day.month.toNat ++ '-' :: (fixedDigits 2 m.day.day.toNat ++
        sep :: (fixedDigits 2 m.hour.toNat ++ ':' :: (fixedDigits 2 m.minute.toNat ++ [':']))))) ++
        fixedDigits 2 m.second.toNat) := by
    rw [Moment.isoText]
    simp [toList_isoformat hm.day hm.year, toList_timeText hm]
  have hstrip : stripSpaces (m.isoText sep).toList = (m.isoText sep).toList := by
    rw [htext]
    apply stripSpaces_digits (by simp [← List.length_pos_iff]) (by simp [← List.length_pos_iff])
    intro c hc
    rcases List.mem_append.mp hc with hc | hc
    · exact isDigit_fixedDigits c hc
    · exact isDigit_fixedDigits c hc
  show parsePeriodText fromisoformat (stripSpaces (m.isoText sep).toList) g = _
  rw [hstrip]
  apply parsePeriodText_long
  · rw [htext]
    simp
  · rw [String.ofList_toList]
    exact hiso.time m hm hmicro sep hsep

/-! ## The filter on a row -/

/-- The rows of one range of a target, as a text. -/
def rangeText (target : String) (r : String × String) : String :=
  "(" ++ target ++ " >= '" ++ r.1 ++ "' AND " ++ target ++ " < '" ++ r.2 ++ "')"

/-- The rows of two ranges of a target, as a text. -/
def rangesText (target : String) (base compare : String × String) : String :=
  "(" ++ (rangeText target base ++ " OR " ++ rangeText target compare) ++ ")"

/-- The rows of one range of a column. -/
def rangeExpr (c : Sql.Column) (r : String × String) : Sql.Expr :=
  .node .paren [.node .and
    [.node .gte [.column c, .string r.1], .node .lt [.column c, .string r.2]]]

/-- The rows of two ranges of a column. -/
def rangesExpr (c : Sql.Column) (base compare : String × String) : Sql.Expr :=
  .node .paren [.node .or [rangeExpr c base, rangeExpr c compare]]

/-- The parser reads two ranges of the target as those of the column. -/
def ReadsRanges (parse : String → Option Sql.Expr) (target : String) (c : Sql.Column) : Prop :=
  ∀ l h l' h' : Moment, l.Valid → h.Valid → l'.Valid → h'.Valid →
    parse (rangesText target (instantText l, instantText h) (instantText l', instantText h')) =
      some (rangesExpr c (instantText l, instantText h) (instantText l', instantText h'))

/-- A moment that a condition compares. -/
def momentValue (m : Option Moment) : Sql.Value Int := (m.map fun t => .data t.instant).getD .null

/-- The value of a filter on the column `c` of a row, when `cast` is how the warehouse reads a
literal that it compares with the column. -/
def filterValue (cast : String → Option Moment) (c : Sql.Column) (row : Option Moment) :
    Sql.Expr → Sql.Value Int
  | .column c' => if c' = c then momentValue row else .null
  | .literal _ s => momentValue (cast s)
  | .node .paren [e] => filterValue cast c row e
  | .node .and [a, b] => .and3 (filterValue cast c row a) (filterValue cast c row b)
  | .node .or [a, b] => .or3 (filterValue cast c row a) (filterValue cast c row b)
  | .node .gte [a, b] => .ge3 (filterValue cast c row a) (filterValue cast c row b)
  | .node .lt [a, b] => .not3 (.ge3 (filterValue cast c row a) (filterValue cast c row b))
  | _ => .null

/-- Whether a filter keeps a row. -/
def KeptByPredicate (parse : String → Option Sql.Expr) (cast : String → Option Moment)
    (c : Sql.Column) (predicate : String) (row : Option Moment) : Prop :=
  ∃ e, parse predicate = some e ∧ (filterValue cast c row e).isTrue = true

/-! ## Fetched and attributed rows -/

/-- The value of a bucket that starts at `s` on the clock of the warehouse's session: a naive
datetime, a date or an ISO text of a column without a time zone; of one with a time zone the same
instant, `offset s` being how far the session is ahead of UTC at `s`. -/
inductive BucketValue (s : Moment) : Option (Moment → Int) → PeriodValue → Prop
  | naive : BucketValue s none (.datetime s none)
  | date : s = s.midnight → BucketValue s none (.date s.day)
  | dayText : s = s.midnight → BucketValue s none (.text s.day.isoformat)
  | timeText {sep : Char} : sep ∈ [' ', 'T'] → BucketValue s none (.text (s.isoText sep))
  | aware {offset : Moment → Int} {m : Moment} {shown : Int} : m.add (-shown) = s.add (-offset s) →
      BucketValue s (some offset) (.datetime m (some shown))

/-- The bucket of a row: the start of its period, or `NULL`. -/
def IsBucket (g : PeriodGrain) (zone : Option (Moment → Int)) : Option Moment → PeriodValue → Prop
  | none, v => v = .null
  | some t, v => ∃ s, floorToGrain t g = .ok s ∧ BucketValue s zone v

/-- The start of a period is in the same period in UTC: the session is not ahead of it, and for
hours less than one behind. -/
def KeepsPeriods (g : PeriodGrain) (zone : Option (Moment → Int)) : Prop :=
  ∀ offset, zone = some offset → ∀ s, Starts g s → s.day.year < 9999 →
    offset s ≤ 0 ∧ (g = .hour → -hourMicros < offset s)

/-- The start of a bucket is read back from every value without a time zone. -/
theorem BucketValue.parse (hiso : ReadsIso (naiveOf fromisoformat)) (g : PeriodGrain) {s : Moment}
    (hs : s.Valid) (hmicro : s.microsecond = 0) {v : PeriodValue} (h : BucketValue s none v) :
    parsePeriodStart fromisoformat v g none = .ok (some s) := by
  cases h with
  | naive => rfl
  | date hmidnight => exact congrArg (fun m => Except.ok (some m)) hmidnight.symm
  | dayText hmidnight =>
      rw [parsePeriodStart_day hiso g hs.day hs.year]
      exact congrArg (fun m => Except.ok (some m)) hmidnight.symm
  | timeText hsep => exact parsePeriodStart_time hiso g hs hmicro hsep

theorem parsePeriodStart_instantText (hiso : ReadsIso (naiveOf fromisoformat)) (g : PeriodGrain)
    {s : Moment} (hs : s.Valid) (hmicro : s.microsecond = 0) :
    parsePeriodStart fromisoformat (.text (instantText s)) g none = .ok (some s) := by
  unfold instantText
  split
  next hmidnight => exact BucketValue.parse hiso g hs hmicro (.dayText hmidnight)
  next =>
    have hvalue : BucketValue s none (.text (s.isoText ' ')) := .timeText (by decide)
    exact hvalue.parse hiso g hs hmicro

/-- Periods start at whole seconds. -/
theorem TimeFormat.Starts.microsecond {g : PeriodGrain} {s : Moment} (h : Starts g s) :
    s.microsecond = 0 := by
  by_cases hg : g = .hour
  · subst hg
    exact congrArg Moment.microsecond (Except.ok.inj h.floor).symm
  · exact congrArg Moment.microsecond (h.midnight hg).2

/-- The start of the period of a moment. -/
theorem starts_of_floor {g : PeriodGrain} {m s : Moment} (hm : m.Valid)
    (h : floorToGrain m g = .ok s) : Starts g s := by
  obtain ⟨hs, hstart⟩ := floorToGrain_eq_ok hm h
  exact ⟨hs, (floorToGrain_start hs hstart).2⟩

/-- An hour ends an hour after its start, another period a day after it at the earliest. -/
theorem periodStart_add_le (g : PeriodGrain) (i : Int) :
    periodStart g i + (if g = .hour then hourMicros else dayMicros) ≤ periodStart g (i + 1) := by
  unfold periodStart
  by_cases hg : g = .hour
  · rw [if_pos hg, if_pos hg, if_pos hg, hourMicros]
    omega
  · have hnext := unitStart_lt g.unit (show i < i + 1 by omega)
    rw [if_neg hg, if_neg hg, if_neg hg, dayMicros]
    omega

/-- The start of a period in a session less than a day behind is in the same period in UTC exactly
when the session is not ahead, and for hours less than one behind. -/
theorem TimeFormat.Starts.floor_shifted {g : PeriodGrain} {s : Moment} (h : Starts g s) {n : Int}
    (hlow : -dayMicros < n) {u : Moment} (hu : s.add (-n) = .ok u) :
    floorToGrain u g = .ok s ↔ n ≤ 0 ∧ (g = .hour → -hourMicros < n) := by
  obtain ⟨hvalid, hinstant⟩ := Moment.add_eq_ok hu
  obtain ⟨-, hstart⟩ := floorToGrain_eq_ok h.valid h.floor
  have hnext := periodStart_add_le g (periodNumber g s)
  rw [floorToGrain_iff hvalid h.valid hstart, hinstant]
  by_cases hg : g = .hour
  · have hhour : periodStart g (periodNumber g s + 1) = s.instant + hourMicros := by
      rw [hstart, periodStart, periodStart, if_pos hg, if_pos hg]
      ring
    rw [hhour]
    simp only [hg, true_imp_iff]
    omega
  · rw [if_neg hg, ← hstart] at hnext
    simp only [hg, false_imp_iff, and_true]
    omega

/-- What is read of a bucket is in its period. -/
theorem BucketValue.read (hiso : ReadsIso (naiveOf fromisoformat)) {g : PeriodGrain}
    {zone : Option (Moment → Int)}
    (hzone : ∀ offset, zone = some offset → ∀ s, -dayMicros < offset s)
    (hkeeps : KeepsPeriods g zone) {s : Moment} (hs : Starts g s) (hyear : s.day.year < 9999)
    {v : PeriodValue} (h : BucketValue s zone v) :
    ∃ u, parsePeriodStart fromisoformat v g none = .ok (some u) ∧ floorToGrain u g = .ok s := by
  cases zone with
  | none => exact ⟨s, h.parse hiso g hs.valid hs.microsecond, hs.floor⟩
  | some offset =>
      cases h with
      | @aware offset m shown hm =>
          have hlow := hzone offset rfl s
          obtain ⟨hbehind, hhour⟩ := hkeeps offset rfl s hs hyear
          obtain ⟨u, hu⟩ := Moment.add_exists hs.valid hyear
            (show 0 ≤ -offset s by omega) (by unfold dayMicros at *; omega)
          refine ⟨u, ?_, (hs.floor_shifted hlow hu).mpr ⟨hbehind, hhour⟩⟩
          show some <$> m.add (-shown) = _
          rw [hm, hu]
          rfl

/-- A row is attributed to the period of what is read of its bucket. -/
theorem periodIndex_read {period : Period} (hlabel : period.byLabel = false) {v : PeriodValue}
    {u s : Moment} (hparse : parsePeriodStart fromisoformat v period.grain none = .ok (some u))
    (hfloor : floorToGrain u period.grain = .ok s) :
    periodIndex fromisoformat v period = .ok
      (if some s = period.base then some 0
       else if some s = period.compare then some 1 else none) := by
  rw [periodIndex, hlabel, if_neg (by decide), hparse]
  show Except.bind (floorToGrain u period.grain) _ = _
  rw [hfloor]
  show (if some s = period.base then _ else if some s = period.compare then _ else _) = _
  split
  · rfl
  · split <;> rfl

end

/-! ## The filter and its ranges -/

/-- A range keeps the moments that are floored to its start. -/
theorem isTrue_rangeExpr {cast : String → Option Moment} (hcast : ReadsIso cast) {g : PeriodGrain}
    {b : Moment} (hb : Starts g b) {r : String × String} (hr : periodRange g b = .ok r)
    (c : Sql.Column) {row : Option Moment} (hrow : ∀ t, row = some t → t.Valid) :
    (filterValue cast c row (rangeExpr c r)).isTrue = true ↔
      ∃ t, row = some t ∧ floorToGrain t g = .ok b := by
  obtain ⟨e, hend, hr⟩ := bind_eq_ok.mp hr
  obtain rfl := Except.ok.inj hr
  obtain ⟨-, hstart⟩ := floorToGrain_eq_ok hb.valid hb.floor
  obtain ⟨he, hnext⟩ := periodEnd_eq_ok hb.valid hstart hend
  have hends : Starts g e := ⟨he, (floorToGrain_start he hnext).2⟩
  cases row with
  | none =>
      have hnull : (Sql.Value.null : Sql.Value Int).isTrue = false := rfl
      simp [rangeExpr, filterValue, momentValue, Sql.Value.ge3, Sql.Value.not3, hnull]
  | some t =>
      have hlow := hcast.instantText hb.valid hb.microsecond
      have hhigh := hcast.instantText he hends.microsecond
      simp only [Option.some.injEq, exists_eq_left']
      rw [floorToGrain_iff (hrow t rfl) hb.valid hstart, ← hnext]
      simp [rangeExpr, filterValue, momentValue, Sql.Value.ge3, Sql.Value.not3, Sql.Expr.string,
        hlow, hhigh, Sql.Value.data_le_data]

/-- The filter that is emitted is the text of the two ranges. -/
theorem periodPredicate_eq_ok {target : String} {g : PeriodGrain} {b c : Moment}
    {predicate : String} (h : periodPredicate target g b c = .ok predicate) :
    ∃ r r', periodRange g b = .ok r ∧ periodRange g c = .ok r' ∧
      predicate = rangesText target r r' := by
  simp only [periodPredicate, bind_eq_ok, pure_eq_ok] at h
  obtain ⟨ranges, hranges, rfl⟩ := h
  obtain ⟨r, rest, hr, hrest, rfl⟩ := List.forall₂_cons_left_iff.mp (mapM_eq_ok.mp hranges)
  obtain ⟨r', rest, hr', hnil, rfl⟩ := List.forall₂_cons_left_iff.mp hrest
  obtain rfl := List.forall₂_nil_left_iff.mp hnil
  refine ⟨r, r', hr, hr', ?_⟩
  rw [List.map_cons, List.map_cons, List.map_nil, String.intercalate_cons_cons,
    String.intercalate_singleton]
  rfl

/-- The ends of a range are the start of the period and that of the next. -/
theorem periodRange_eq_ok {g : PeriodGrain} {b : Moment} (hb : Starts g b) {r : String × String}
    (h : periodRange g b = .ok r) : ∃ e : Moment, e.Valid ∧ r = (instantText b, instantText e) := by
  obtain ⟨e, hend, h⟩ := bind_eq_ok.mp h
  obtain ⟨-, hstart⟩ := floorToGrain_eq_ok hb.valid hb.floor
  exact ⟨e, (periodEnd_eq_ok hb.valid hstart hend).1, (Except.ok.inj h).symm⟩

/-- The filter keeps the rows of the two periods. -/
theorem keptByPredicate_iff {parse : String → Option Sql.Expr} {cast : String → Option Moment}
    {target : String} {x : Sql.Column} (hparse : ReadsRanges parse target x)
    (hcast : ReadsIso cast) {g : PeriodGrain} {b c : Moment} (hb : Starts g b) (hc : Starts g c)
    {predicate : String} (h : periodPredicate target g b c = .ok predicate)
    {row : Option Moment} (hrow : ∀ t, row = some t → t.Valid) :
    KeptByPredicate parse cast x predicate row ↔
      ∃ t, row = some t ∧ (floorToGrain t g = .ok b ∨ floorToGrain t g = .ok c) := by
  obtain ⟨r, r', hr, hr', rfl⟩ := periodPredicate_eq_ok h
  have hread : parse (rangesText target r r') = some (rangesExpr x r r') := by
    obtain ⟨e, he, rfl⟩ := periodRange_eq_ok hb hr
    obtain ⟨e', he', rfl⟩ := periodRange_eq_ok hc hr'
    exact hparse b e c e' hb.valid he hc.valid he'
  have hvalue : (filterValue cast x row (rangesExpr x r r')).isTrue =
      ((filterValue cast x row (rangeExpr x r)).isTrue ||
        (filterValue cast x row (rangeExpr x r')).isTrue) := by
    simp [rangesExpr, filterValue]
  rw [KeptByPredicate, hread]
  simp only [Option.some.injEq, exists_eq_left', hvalue, Bool.or_eq_true,
    isTrue_rangeExpr hcast hb hr x hrow, isTrue_rangeExpr hcast hc hr' x hrow]
  simp only [← exists_or, and_or_left]

/-! ## The periods of a request -/

section

variable {fromisoformat : String → Option (Moment × Option Int)}

theorem isoMonday_valid {year week : Int} {m : Moment} (h : isoMonday year week = some m) :
    m.Valid := by
  obtain ⟨monday, hmonday, rfl⟩ := Option.map_eq_some_iff.mp h
  obtain ⟨hvalid, hrange, -⟩ := isocalendar_fromIsoCalendar hmonday
  exact valid_midnight (m := ⟨monday, 0, 0, 0, 0⟩) hvalid hrange

/-- What is read of a text is a moment of the calendar. -/
theorem parsePeriodText_valid (hfrom : ReadsDatetimes fromisoformat) {text : List Char}
    {g : PeriodGrain} {m : Moment}
    (h : parsePeriodText fromisoformat text g = .ok (some m)) : m.Valid := by
  unfold parsePeriodText at h
  split at h
  · obtain ⟨y, -, hm⟩ := Option.bind_eq_some_iff.mp (Except.ok.inj h)
    exact (TimeFormat.datetime_eq_some hm).2
  split at h
  · obtain ⟨y, -, hm⟩ := Option.bind_eq_some_iff.mp (Except.ok.inj h)
    obtain ⟨month, -, hm⟩ := Option.bind_eq_some_iff.mp hm
    split at hm
    · exact isoMonday_valid hm
    · exact (TimeFormat.datetime_eq_some hm).2
  split at h
  · obtain ⟨y, -, hm⟩ := Option.bind_eq_some_iff.mp (Except.ok.inj h)
    obtain ⟨quarter, -, hm⟩ := Option.bind_eq_some_iff.mp hm
    exact (TimeFormat.datetime_eq_some hm).2
  split at h
  · obtain ⟨y, -, hm⟩ := Option.bind_eq_some_iff.mp (Except.ok.inj h)
    obtain ⟨week, -, hm⟩ := Option.bind_eq_some_iff.mp hm
    exact isoMonday_valid hm
  split at h
  next m' offset hiso =>
    cases offset with
    | none =>
        obtain rfl := Option.some.inj (Except.ok.inj h)
        exact hfrom.valid _ _ hiso
    | some offset =>
        obtain ⟨u, hu, h⟩ := map_eq_ok.mp h
        obtain rfl := Option.some.inj h
        exact (Moment.add_eq_ok hu).1
  next => simp at h

theorem parsePeriodStart_valid (hfrom : ReadsDatetimes fromisoformat) {v : PeriodValue}
    (hv : v.Requested) {g : PeriodGrain} {m : Moment}
    (h : parsePeriodStart fromisoformat v g none = .ok (some m)) : m.Valid := by
  cases v with
  | text s => exact parsePeriodText_valid hfrom h
  | int n =>
      simp only [parsePeriodStart] at h
      split at h
      next hn =>
        obtain rfl := Option.some.inj (Except.ok.inj h)
        exact valid_midnight (m := ⟨⟨n, 1, 1⟩, 0, 0, 0, 0⟩)
          ⟨le_rfl, show (1 : Int) ≤ 12 by decide, le_rfl,
            le_trans (show (1 : Int) ≤ 28 by decide) (Date.daysInMonth_bounds n 1).1⟩ hn.2
      next => simp at h
  | _ => exact hv.elim

/-- The periods of a request are two different ones, each with the start of its grain. -/
theorem resolvePeriod_eq_ok (hfrom : ReadsDatetimes fromisoformat) {joinAlias name : String}
    {dimension : Dimension} {g : PeriodGrain} {base compare : PeriodValue}
    {labels : PeriodLabels} {period : Period} (hb : base.Requested) (hc : compare.Requested)
    (h : resolvePeriod fromisoformat joinAlias dimension name g base compare labels =
      .ok period) :
    period.grain = g ∧ period.byLabel = false ∧ ∃ b c, period.base = some b ∧
      period.compare = some c ∧ b ≠ c ∧ Starts g b ∧ Starts g c ∧
      periodPredicate (periodTarget joinAlias dimension) g b c = .ok period.predicate := by
  have hstart : ∀ {value : PeriodValue} {s : Moment}, value.Requested →
      (do match ← parsePeriodStart fromisoformat value g none with
          | none => .error (Err.validationFailed (value.repr ++ " is not a " ++ g.value ++
              " of dimension " ++ pyRepr name))
          | some start => floorToGrain start g) = Except.ok s → Starts g s := by
    intro value s hvalue hs
    obtain ⟨start, hparse, hs⟩ := bind_eq_ok.mp hs
    cases start with
    | none => cases hs
    | some m => exact starts_of_floor (parsePeriodStart_valid hfrom hvalue hparse) hs
  obtain ⟨starts, hstarts, h⟩ := bind_eq_ok.mp h
  obtain ⟨b, rest, hbase, hrest, rfl⟩ := List.forall₂_cons_left_iff.mp (mapM_eq_ok.mp hstarts)
  obtain ⟨c, rest, hcompare, hnil, rfl⟩ := List.forall₂_cons_left_iff.mp hrest
  obtain rfl := List.forall₂_nil_left_iff.mp hnil
  by_cases hsame : b = c
  · simp only [hsame, if_true] at h
    cases h
  · simp only [hsame, if_false] at h
    obtain ⟨predicate, hpredicate, h⟩ := bind_eq_ok.mp h
    obtain rfl := Except.ok.inj h
    exact ⟨rfl, rfl, b, c, rfl, rfl, hsame, hstart hb hbase, hstart hc hcompare, hpredicate⟩

/-- Two different periods before the last year are requested by their starts. -/
theorem resolvePeriod_instantText (hfrom : ReadsDatetimes fromisoformat) (joinAlias name : String)
    (dimension : Dimension) {g : PeriodGrain} {b c : Moment} (hb : Starts g b) (hc : Starts g c)
    (hbyear : b.day.year < 9999) (hcyear : c.day.year < 9999) (hne : b ≠ c)
    (labels : PeriodLabels) :
    ∃ predicate, resolvePeriod fromisoformat joinAlias dimension name g (.text (instantText b))
      (.text (instantText c)) labels = .ok ⟨g, some b, some c, predicate, labels, false⟩ := by
  obtain ⟨e, he⟩ := periodEnd_exists g hb.valid hbyear
  obtain ⟨e', he'⟩ := periodEnd_exists g hc.valid hcyear
  have hparse {s : Moment} (hs : Starts g s) := parsePeriodStart_instantText hfrom.iso g hs.valid
    hs.microsecond
  have hranges : [b, c].mapM (periodRange g) =
      .ok [(instantText b, instantText e), (instantText c, instantText e')] :=
    mapM_eq_ok.mpr (.cons (by rw [periodRange, he]; rfl)
      (.cons (by rw [periodRange, he']; rfl) .nil))
  obtain ⟨predicate, hpredicate⟩ : ∃ predicate,
      periodPredicate (periodTarget joinAlias dimension) g b c = .ok predicate := by
    rw [periodPredicate, hranges]
    exact ⟨_, rfl⟩
  refine ⟨predicate, ?_⟩
  rw [resolvePeriod]
  simp only [List.mapM_cons, List.mapM_nil, hparse hb, hparse hc, ok_bind, hb.floor, hc.floor,
    pure, Except.pure, if_neg hne, hpredicate]

end

/-- A fetched row is attributed, to the period it is in, and no other row is. -/
def Attributes (parse : String → Option Sql.Expr)
    (fromisoformat : String → Option (Moment × Option Int)) (cast : String → Option Moment)
    (x : Sql.Column) (period : Period) (row : Option Moment) (v : PeriodValue) : Prop :=
  (KeptByPredicate parse cast x period.predicate row ↔
    ∃ i, periodIndex fromisoformat v period = .ok (some i)) ∧
  ∀ i, periodIndex fromisoformat v period = .ok (some i) → ∃ t s, row = some t ∧
    floorToGrain t period.grain = .ok s ∧ [period.base, period.compare][i]? = some (some s)

section

variable {lib : Lib} {fromisoformat : String → Option (Moment × Option Int)}
  {cast : String → Option Moment} {joinAlias : String} {dimension : Dimension} {x : Sql.Column}
  {g : PeriodGrain} {zone : Option (Moment → Int)}

/-- Where a period starts in itself, what is fetched is attributed. -/
theorem attributes_of_keepsPeriods (hfrom : ReadsDatetimes fromisoformat) (hcast : ReadsIso cast)
    (hparse : ReadsRanges (lib.parseOne none) (periodTarget joinAlias dimension) x)
    (hzone : ∀ offset, zone = some offset → ∀ s, -dayMicros < offset s)
    (hkeeps : KeepsPeriods g zone) {name : String} {base compare : PeriodValue}
    {labels : PeriodLabels} {period : Period} (hb : base.Requested) (hc : compare.Requested)
    (hperiod : resolvePeriod fromisoformat joinAlias dimension name g base compare labels =
      .ok period) {row : Option Moment} {v : PeriodValue}
    (hrow : ∀ t, row = some t → t.Valid ∧ t.day.year < 9999) (hv : IsBucket g zone row v) :
    Attributes (lib.parseOne none) fromisoformat cast x period row v := by
  obtain ⟨rfl, hlabel, b, c, hbase, hcompare, hne, hbs, hcs, hpredicate⟩ :=
    resolvePeriod_eq_ok hfrom hb hc hperiod
  have hkept := keptByPredicate_iff hparse hcast hbs hcs hpredicate
    fun t (ht : row = some t) => (hrow t ht).1
  -- a row without a time is neither fetched nor attributed
  cases row with
  | none =>
      obtain rfl : v = .null := hv
      have hnone : periodIndex fromisoformat .null period = .ok none := by
        rw [periodIndex, hlabel]
        rfl
      constructor
      · rw [hkept, hnone]
        simp
      · intro i hi
        rw [hnone] at hi
        simp at hi
  | some t =>
      obtain ⟨s, hs, hvalue⟩ := hv
      obtain ⟨ht, hyear⟩ := hrow t rfl
      obtain ⟨u, hparsed, hfloor⟩ := hvalue.read hfrom.iso hzone hkeeps (starts_of_floor ht hs)
        (year_floorToGrain ht hyear hs)
      have hindex := periodIndex_read hlabel hparsed hfloor
      rw [hbase, hcompare] at hindex
      simp only [Option.some.injEq] at hindex
      constructor
      · rw [hkept, hindex]
        simp only [Option.some.injEq, exists_eq_left', hs, Except.ok.injEq]
        by_cases hsb : s = b
        · simp [hsb]
        · by_cases hsc : s = c
          · simp [hsc, Ne.symm hne]
          · simp [hsb, hsc]
      · intro i hi
        refine ⟨t, s, rfl, hs, ?_⟩
        rw [hindex] at hi
        rw [hbase, hcompare]
        by_cases hsb : s = b
        · rw [if_pos hsb] at hi
          obtain rfl := Option.some.inj (Except.ok.inj hi)
          rw [hsb]
          rfl
        · rw [if_neg hsb] at hi
          by_cases hsc : s = c
          · rw [if_pos hsc] at hi
            obtain rfl := Option.some.inj (Except.ok.inj hi)
            rw [hsc]
            rfl
          · rw [if_neg hsc] at hi
            simp at hi

/-- A period that starts on a day that starts every other kind of period too, and is not one of two
given ones. -/
theorem exists_other_start (g : PeriodGrain) (s s' : Moment) :
    ∃ c, Starts g c ∧ c.day.year < 9999 ∧ c ≠ s ∧ c ≠ s' := by
  -- the first days of 2001, 2007 and 2018 are Mondays
  have hstarts : ∀ c ∈ ([⟨⟨2001, 1, 1⟩, 0, 0, 0, 0⟩, ⟨⟨2007, 1, 1⟩, 0, 0, 0, 0⟩,
      ⟨⟨2018, 1, 1⟩, 0, 0, 0, 0⟩] : List Moment), Starts g c ∧ c.day.year < 9999 := by
    intro c hc
    simp only [List.mem_cons, List.not_mem_nil, or_false] at hc
    rcases hc with rfl | rfl | rfl
    all_goals exact ⟨⟨by decide, by cases g <;> rfl⟩, by decide⟩
  by_contra hno
  push Not at hno
  have hcases : ∀ c ∈ ([⟨⟨2001, 1, 1⟩, 0, 0, 0, 0⟩, ⟨⟨2007, 1, 1⟩, 0, 0, 0, 0⟩,
      ⟨⟨2018, 1, 1⟩, 0, 0, 0, 0⟩] : List Moment), c = s ∨ c = s' := by
    intro c hc
    by_cases hcs : c = s
    · exact .inl hcs
    · exact .inr (hno c (hstarts c hc).1 (hstarts c hc).2 hcs)
  simp only [List.forall_mem_cons] at hcases
  obtain ⟨h | h, h' | h', h'' | h'', -⟩ := hcases
  all_goals first
    | exact absurd (h.trans h'.symm) (by decide)
    | exact absurd (h.trans h''.symm) (by decide)
    | exact absurd (h'.trans h''.symm) (by decide)

/-- Where what is fetched is attributed, a period starts in itself. -/
theorem keepsPeriods_of_attributes (hfrom : ReadsDatetimes fromisoformat) (hcast : ReadsIso cast)
    (hparse : ReadsRanges (lib.parseOne none) (periodTarget joinAlias dimension) x)
    (hzone : ∀ offset, zone = some offset → ∀ s, -dayMicros < offset s)
    (hall : ∀ (name : String) (base compare : PeriodValue) (labels : PeriodLabels)
      (period : Period), base.Requested → compare.Requested →
        resolvePeriod fromisoformat joinAlias dimension name g base compare labels = .ok period →
          ∀ (row : Option Moment) (v : PeriodValue),
            (∀ t, row = some t → t.Valid ∧ t.day.year < 9999) → IsBucket g zone row v →
              Attributes (lib.parseOne none) fromisoformat cast x period row v) :
    KeepsPeriods g zone := by
  rintro offset rfl s hs hyear
  -- what is read of the bucket, where it can be read
  let read := s.add (-offset s)
  let floored := read.bind (floorToGrain · g)
  obtain ⟨c, hc, hcyear, hcs, hcread⟩ := exists_other_start g s (floored.toOption.getD s)
  obtain ⟨predicate, hperiod⟩ := resolvePeriod_instantText hfrom joinAlias "" dimension hs hc hyear
    hcyear (Ne.symm hcs) ⟨"", "", ""⟩
  have htext (m : Moment) : PeriodValue.Requested (.text (instantText m)) := trivial
  obtain ⟨hkept, -⟩ := hall _ _ _ _ _ (htext s) (htext c) hperiod (some s)
    (.datetime s (some (offset s))) (by rintro t ⟨⟩; exact ⟨hs.valid, hyear⟩)
    ⟨s, hs.floor, .aware rfl⟩
  obtain ⟨-, -, b', c', hb', hc', -, hbs, hcs', hpredicate⟩ :=
    resolvePeriod_eq_ok hfrom (htext s) (htext c) hperiod
  obtain rfl := Option.some.inj hb'
  obtain rfl := Option.some.inj hc'
  rw [keptByPredicate_iff hparse hcast hbs hcs' hpredicate
    (by rintro t ⟨⟩; exact hs.valid)] at hkept
  obtain ⟨i, hi⟩ := hkept.mp ⟨s, rfl, .inl hs.floor⟩
  cases hu : s.add (-offset s) with
  | error e =>
      have herror : parsePeriodStart fromisoformat (.datetime s (some (offset s))) g none =
          .error e := by
        show some <$> s.add (-offset s) = _
        rw [hu]
        rfl
      simp only [periodIndex, herror] at hi
      cases hi
  | ok u =>
      obtain ⟨t, ht⟩ := floorToGrain_exists g (Moment.add_eq_ok hu).1
      have hparsed : parsePeriodStart fromisoformat (.datetime s (some (offset s))) g none =
          .ok (some u) := by
        show some <$> s.add (-offset s) = _
        rw [hu]
        rfl
      have hct : c ≠ t := by
        simpa [floored, read, hu, ht, Except.bind, Except.toOption] using hcread
      rw [@periodIndex_read _ ⟨g, some s, some c, predicate, ⟨"", "", ""⟩, false⟩ rfl _ _ _
        hparsed ht] at hi
      have hts : t = s := by
        by_contra hne
        simp [hne, Ne.symm hct] at hi
      exact (hs.floor_shifted (hzone offset rfl s) hu).mp (hts ▸ ht)

end

/-- **Periods partition time**, and a decomposition reads exactly two of them where no bucket is
shown with an offset, or only with ones that leave the start of a period in that period in UTC. -/
theorem periods_partition_decompose (g : PeriodGrain) {lib : Lib}
    {fromisoformat : String → Option (Moment × Option Int)} {cast : String → Option Moment}
    {joinAlias : String} {dimension : Dimension} {x : Sql.Column} {zone : Option (Moment → Int)}
    (hfrom : ReadsDatetimes fromisoformat) (hcast : ReadsIso cast)
    (hparse : ReadsRanges (lib.parseOne none) (periodTarget joinAlias dimension) x)
    (hzone : ∀ offset, zone = some offset → ∀ s, -dayMicros < offset s) :
    (∀ m : Moment, m.Valid → m.day.year < 9999 → ∃ s e, InPeriod g m s e) ∧
    ((∀ (name : String) (base compare : PeriodValue) (labels : PeriodLabels) (period : Period),
        base.Requested → compare.Requested →
        resolvePeriod fromisoformat joinAlias dimension name g base compare labels = .ok period →
          ∀ (row : Option Moment) (v : PeriodValue),
            (∀ t, row = some t → t.Valid ∧ t.day.year < 9999) → IsBucket g zone row v →
              Attributes (lib.parseOne none) fromisoformat cast x period row v) ↔
      KeepsPeriods g zone) := by
  refine ⟨fun m hm hyear => inPeriod_of_valid g hm hyear, ?_, ?_⟩
  · exact keepsPeriods_of_attributes hfrom hcast hparse hzone
  · intro hkeeps name base compare labels period hb hc hperiod row v hrow hv
    exact attributes_of_keepsPeriods hfrom hcast hparse hzone hkeeps hb hc hperiod hrow hv

/-! ## Readers of ISO texts -/

/-- `datetime.fromisoformat` on ISO texts. -/
def isoReader (text : String) : Option (Moment × Option Int) := (readIso text).map (·, none)

theorem readIso_valid {text : String} {m : Moment} (h : readIso text = some m) : m.Valid := by
  obtain ⟨groups, -, h⟩ := Option.bind_eq_some_iff.mp h
  obtain ⟨m', hm, h⟩ := Option.bind_eq_some_iff.mp h
  obtain ⟨rfl, hvalid⟩ := TimeFormat.datetime_eq_some hm
  split at h
  next hclock =>
    obtain rfl := Option.some.inj h
    exact ⟨hvalid.day, hvalid.year, hvalid.hour, hclock.1, hclock.2, hvalid.microsecond⟩
  next => simp at h

theorem readsDatetimes_isoReader : ReadsDatetimes isoReader := by
  have hsame : naiveOf isoReader = readIso := by
    funext text
    unfold naiveOf isoReader
    cases readIso text <;> rfl
  refine ⟨hsame ▸ readsIso_readIso, fun t r h => ?_⟩
  obtain ⟨m, hm, rfl⟩ := Option.map_eq_some_iff.mp h
  exact readIso_valid hm

/-! ## A reader of ranges -/

/-- The mark on both sides of a text literal. -/
def quoteMark : Char := Char.ofNat 39

/-- A parser of two ranges: the literals stand between the quotes. -/
def readRanges (target : String) (x : Sql.Column) (text : String) : Option Sql.Expr :=
  match (text.toList.splitOn quoteMark).map String.ofList with
  | [p₀, l, p₁, h, p₂, l', p₃, h', p₄] =>
      if p₀ = "((" ++ target ++ " >= " ∧ p₁ = " AND " ++ target ++ " < " ∧
          p₂ = ") OR (" ++ target ++ " >= " ∧ p₃ = " AND " ++ target ++ " < " ∧ p₄ = "))" then
        some (rangesExpr x (l, h) (l', h'))
      else none
  | _ => none

theorem quoteMark_notMem_instantText {m : Moment} (hm : m.Valid) :
    quoteMark ∉ (instantText m).toList := by
  have hdigits (w n : Nat) : quoteMark ∉ fixedDigits w n := fun h =>
    absurd (isDigit_fixedDigits _ h) (by decide)
  have hsigns : quoteMark ≠ '-' ∧ quoteMark ≠ ':' ∧ quoteMark ≠ ' ' := by decide
  unfold instantText
  split
  · rw [toList_isoformat hm.day hm.year]
    simp [hdigits, hsigns]
  · simp only [String.toList_append, toList_isoformat hm.day hm.year, toList_timeText hm]
    simp [hdigits, hsigns]

theorem readsRanges_readRanges {target : String} (h : quoteMark ∉ target.toList) (x : Sql.Column) :
    ReadsRanges (readRanges target x) target x := by
  intro l hi l' hi' hl hhi hl' hhi'
  let pieces := ["((" ++ target ++ " >= ", instantText l, " AND " ++ target ++ " < ",
    instantText hi, ") OR (" ++ target ++ " >= ", instantText l', " AND " ++ target ++ " < ",
    instantText hi', "))"]
  have htext : (rangesText target (instantText l, instantText hi)
      (instantText l', instantText hi')).toList =
        [quoteMark].intercalate (pieces.map String.toList) := by
    simp [pieces, rangesText, rangeText, List.intercalate, quoteMark]
  have hplain : ∀ p ∈ pieces.map String.toList, quoteMark ∉ p := by
    simp [pieces, h, quoteMark_notMem_instantText, hl, hhi, hl', hhi']
    decide
  rw [readRanges, htext, List.splitOn_intercalate _ hplain (by simp [pieces]), List.map_map]
  have hback : String.ofList ∘ String.toList = id := funext fun s => String.ofList_toList
  rw [hback, List.map_id]
  exact if_pos ⟨rfl, rfl, rfl, rfl, rfl⟩

/-! ## Two sessions -/

/-- A time dimension by month, of a column with a time zone. -/
private def tripDimension : Dimension := { name := "day", column := some "day" }

private def tripColumn : Sql.Column := ⟨"", "trips", "day"⟩

private def dayLib : Lib :=
  { Lib.ofTexts [] with parseOne := fun _ text => readRanges "trips.day" tripColumn text }

/-- The middle of January is fetched, and in a session an hour ahead of UTC the bucket of January
starts in December: the row is not attributed. -/
theorem periods_partition_decompose_counterexample :
    ∃ period, resolvePeriod isoReader "trips" tripDimension "day" .month (.text "2024-01")
        (.text "2024-03") ⟨"month", "2024-01", "2024-03"⟩ = .ok period ∧
      IsBucket .month (some fun _ => hourMicros) (some ⟨⟨2024, 1, 15⟩, 12, 0, 0, 0⟩)
        (.datetime ⟨⟨2023, 12, 31⟩, 23, 0, 0, 0⟩ (some 0)) ∧
      KeptByPredicate (dayLib.parseOne none) readIso tripColumn period.predicate
        (some ⟨⟨2024, 1, 15⟩, 12, 0, 0, 0⟩) ∧
      periodIndex isoReader (.datetime ⟨⟨2023, 12, 31⟩, 23, 0, 0, 0⟩ (some 0)) period =
        .ok none := by
  obtain ⟨period, hperiod, hall⟩ := exists_ok_of_any
    (x := resolvePeriod isoReader "trips" tripDimension "day" .month (.text "2024-01")
      (.text "2024-03") ⟨"month", "2024-01", "2024-03"⟩)
    (P := fun period =>
      ((dayLib.parseOne none period.predicate).any fun e =>
        (filterValue readIso tripColumn (some ⟨⟨2024, 1, 15⟩, 12, 0, 0, 0⟩) e).isTrue) &&
      decide (periodIndex isoReader (.datetime ⟨⟨2023, 12, 31⟩, 23, 0, 0, 0⟩ (some 0)) period =
        .ok none))
    (by decide +kernel)
  obtain ⟨hkept, hindex⟩ := (Bool.and_eq_true _ _).mp hall
  refine ⟨period, hperiod, ⟨⟨⟨2024, 1, 1⟩, 0, 0, 0, 0⟩, rfl, .aware rfl⟩, ?_,
    of_decide_eq_true hindex⟩
  exact (Option.any_eq_true _ _).mp hkept

/-- The last second of a leap day is fetched for February, and attributed to it in a session five
hours behind UTC. -/
theorem periods_partition_decompose_months :
    (∃ s e, InPeriod .month ⟨⟨2024, 2, 29⟩, 23, 59, 59, 0⟩ s e) ∧
    ∃ period, resolvePeriod isoReader "trips" tripDimension "day" .month (.text "2024-01")
        (.text "2024-02") ⟨"month", "2024-01", "2024-02"⟩ = .ok period ∧
      Attributes (dayLib.parseOne none) isoReader readIso tripColumn period
        (some ⟨⟨2024, 2, 29⟩, 23, 59, 59, 0⟩)
        (.datetime ⟨⟨2024, 2, 1⟩, 0, 0, 0, 0⟩ (some (-5 * hourMicros))) := by
  have hoffset : -dayMicros < -5 * hourMicros ∧ -5 * hourMicros ≤ 0 := by decide
  obtain ⟨hpartition, hdecompose⟩ := @periods_partition_decompose .month dayLib isoReader readIso
    "trips" tripDimension tripColumn (some fun _ => -5 * hourMicros) readsDatetimes_isoReader
    readsIso_readIso (readsRanges_readRanges (by decide) tripColumn)
    (by rintro offset ⟨⟩ s; exact hoffset.1)
  obtain ⟨period, hperiod, -⟩ := exists_ok_of_any
    (x := resolvePeriod isoReader "trips" tripDimension "day" .month (.text "2024-01")
      (.text "2024-02") ⟨"month", "2024-01", "2024-02"⟩)
    (P := fun _ => true) (by decide +kernel)
  refine ⟨hpartition _ (by decide) (by decide), period, hperiod, ?_⟩
  have hkeeps : KeepsPeriods .month (some fun _ => -5 * hourMicros) := by
    rintro offset ⟨⟩ s hs hyear
    exact ⟨hoffset.2, fun hhour => by cases hhour⟩
  have htext (s : String) : PeriodValue.Requested (.text s) := trivial
  apply hdecompose.mpr hkeeps _ _ _ _ _ (htext _) (htext _) hperiod
  · rintro t ⟨⟩
    exact ⟨by decide, by decide⟩
  · exact ⟨⟨⟨2024, 2, 1⟩, 0, 0, 0, 0⟩, rfl, .aware rfl⟩

end Canonic
