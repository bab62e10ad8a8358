import Canonic.Exc
import Canonic.Text

set_option autoImplicit false

/-! # Durations and calendar days

`semantic/duration.py`: a duration is a positive number of one calendar unit, and a date moves
by it with months clamped to the end of the target month. A date is its three numbers, as in
Python; a move by days goes through the proleptic Gregorian ordinal. -/

namespace Canonic

/-- The calendar unit of a duration, shortest first. -/
inductive DurationUnit where
  | minute | hour | day | week | month | quarter | year
  deriving DecidableEq, Repr

namespace DurationUnit

def value : DurationUnit → String
  | minute => "minute" | hour => "hour" | day => "day" | week => "week"
  | month => "month" | quarter => "quarter" | year => "year"

/-- How many months one unit is, `none` for a unit of fixed length. -/
def months : DurationUnit → Option Nat
  | month => some 1
  | quarter => some 3
  | year => some 12
  | _ => none

/-- Position from the shortest unit. -/
def rank : DurationUnit → Nat
  | minute => 0 | hour => 1 | day => 2 | week => 3 | month => 4 | quarter => 5 | year => 6

end DurationUnit

/-- A positive whole number of one calendar unit. -/
structure Duration where
  count : Nat
  unit : DurationUnit
  count_pos : 1 ≤ count := by decide
  deriving DecidableEq, Repr

namespace Duration

/-- `7 days`, `1 month`. -/
def text (d : Duration) : String :=
  s!"{d.count} {d.unit.value}" ++ if d.count = 1 then "" else "s"

def months (d : Duration) : Option Nat := d.unit.months.map (· * d.count)

def days (d : Duration) : Option Nat :=
  match d.unit with
  | .day => some d.count
  | .week => some (7 * d.count)
  | _ => none

end Duration

/-- A calendar day. -/
structure Date where
  year : Int
  month : Int
  day : Int
  deriving DecidableEq, Repr

/-- A point in time, as far as the compiler reads one: its day and its ISO text. -/
structure DateTime where
  day : Date
  iso : String
  deriving DecidableEq, Repr

namespace Date

def isLeap (y : Int) : Bool := y % 4 = 0 && (y % 100 ≠ 0 || y % 400 = 0)

def daysInMonth (y m : Int) : Int :=
  if m = 2 then (if isLeap y then 29 else 28)
  else if m = 4 ∨ m = 6 ∨ m = 9 ∨ m = 11 then 30 else 31

/-- Days before 1 January of year `y`. -/
def daysBeforeYear (y : Int) : Int :=
  let p := y - 1
  p * 365 + p / 4 - p / 100 + p / 400

/-- Days of the year before month `m` (1 to 13). -/
def daysBeforeMonth (y : Int) (m : Nat) : Int :=
  ((List.range (m - 1)).map fun i => daysInMonth y (Int.ofNat i + 1)).sum

/-- The proleptic Gregorian ordinal; 1 January of year 1 is day 1. -/
def toOrdinal (d : Date) : Int :=
  daysBeforeYear d.year + daysBeforeMonth d.year d.month.toNat + d.day

/-- The month and day of the `n`-th day (from 0) of year `y`, starting the search at month `m`. -/
def monthDay (y : Int) : Nat → Int → Int → Date
  | 0, m, n => ⟨y, m, n + 1⟩
  | fuel + 1, m, n =>
      if n < daysInMonth y m ∨ m = 12 then ⟨y, m, n + 1⟩
      else monthDay y fuel (m + 1) (n - daysInMonth y m)

/-- The day with a given ordinal. -/
def ofOrdinal (n : Int) : Date :=
  -- whole 400-, 100-, 4- and 1-year cycles; the last day of a long cycle stays in its last year
  let n0 := n - 1
  let n400 := n0 / 146097
  let r400 := n0 % 146097
  let n100 := min (r400 / 36524) 3
  let r100 := r400 - n100 * 36524
  let n4 := r100 / 1461
  let r4 := r100 % 1461
  let n1 := min (r4 / 365) 3
  let r1 := r4 - n1 * 365
  let y := n400 * 400 + n100 * 100 + n4 * 4 + n1 + 1
  monthDay y 12 1 r1

/-- A number written with at least `width` digits. -/
def padded (width : Nat) (n : Int) : String :=
  let s := toString n.toNat
  String.ofList (List.replicate (width - s.length) '0') ++ s

def isoformat (d : Date) : String :=
  padded 4 d.year ++ "-" ++ padded 2 d.month ++ "-" ++ padded 2 d.day

/-- Python's bounds on a date: years 1 to 9999. -/
def checked (d : Date) : Except Err Date :=
  if 1 ≤ d.year ∧ d.year ≤ 9999 then .ok d else .error (.internal "date value out of range")

def addDays (d : Date) (n : Int) : Except Err Date := checked (ofOrdinal (d.toOrdinal + n))

/-- Monday is 0. -/
def weekday (d : Date) : Int := (d.toOrdinal + 6) % 7

end Date

/-- `add_to_date`: `day` moved by a duration, forwards for `sign = 1`, backwards for `-1`. -/
def addToDate (day : Date) (duration : Duration) (sign : Int) : Except Err Date :=
  match duration.months with
  | some months =>
      let index := day.year * 12 + (day.month - 1) + sign * months
      let year := index / 12
      let month := index % 12 + 1
      Date.checked ⟨year, month, min day.day (Date.daysInMonth year month)⟩
  | none =>
      match duration.days with
      | some days => day.addDays (sign * days)
      | none => .error (.internal
          s!"cannot move a date by {duration.text}, which is finer than a day")

/-- `floor_date`: the first day of the `unit` period containing `day`; a week starts on Monday. -/
def floorDate (day : Date) (unit : DurationUnit) : Except Err Date :=
  match unit with
  | .day => .ok day
  | .week => day.addDays (-day.weekday)
  | .month => .ok { day with day := 1 }
  | .quarter => .ok ⟨day.year, 3 * ((day.month - 1) / 3) + 1, 1⟩
  | .year => .ok ⟨day.year, 1, 1⟩
  | .minute => .error (.internal "cannot floor a date to a minute")
  | .hour => .error (.internal "cannot floor a date to a hour")

end Canonic
