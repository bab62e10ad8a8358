import Canonic.Semantic.Models

set_option autoImplicit false

/-! # Semantic queries

`compiler/query.py` and `compiler/time_range.py`: the input of the compiler, which refers to
metrics and dimensions by name only, and its typed time range. The range is resolved to two days
once and becomes one more filter. -/

namespace Canonic

/-- The bounds of a time range: the last units before the anchor day, or two days of which at
least one is given. The second is exclusive. -/
inductive TimeBounds where
  | last (duration : Duration) (includeCurrent : Bool)
      (day_or_longer : DurationUnit.day.rank ≤ duration.unit.rank)
  | dates (start stop : Option Date) (one_given : start.isSome ∨ stop.isSome)
  deriving Repr

/-- A range on one time dimension. -/
structure TimeRange where
  dimension : String
  bounds : TimeBounds
  deriving Repr

/-- A resolved-by-name request. Structured filters have become predicate texts. -/
structure SemanticQuery where
  metrics : List String
  dimensions : List String := []
  filters : List String := []
  via : List String := []
  context : Option String := none
  limit : Option Nat := none
  asOf : Option DateTime := none
  timeRange : Option TimeRange := none
  deriving Repr

/-- A time range as two days. -/
structure ResolvedTimeRange where
  dimension : String
  start : Option Date
  stop : Option Date
  one_given : start.isSome ∨ stop.isSome

namespace ResolvedTimeRange

/-- The filter a range adds to the query. -/
def predicate (r : ResolvedTimeRange) : String :=
  let lower := r.start.map fun d => s!"{r.dimension} >= '{d.isoformat}'"
  let upper := r.stop.map fun d => s!"{r.dimension} < '{d.isoformat}'"
  " AND ".intercalate (lower.toList ++ upper.toList)

/-- The same range written with days only. -/
def asExplicit (r : ResolvedTimeRange) : TimeRange :=
  ⟨r.dimension, .dates r.start r.stop r.one_given⟩

end ResolvedTimeRange

/-- `resolve_time_range`: `last` counted back from `as_of`, or from the clock without it. -/
def resolveTimeRange (lib : Lib) (r : TimeRange) (asOf : Option DateTime) :
    Except Err ResolvedTimeRange :=
  match r.bounds with
  | .dates start stop h => .ok ⟨r.dimension, start, stop, h⟩
  | .last duration includeCurrent _ => do
      let day := (asOf.getD lib.now).day
      let floor ← floorDate day duration.unit
      let start ← addToDate floor duration (-1)
      let stop ← if includeCurrent then day.addDays 1 else .ok floor
      return ⟨r.dimension, some start, some stop, Or.inl rfl⟩

/-- One dimension a range may be on: a single `date` or `timestamp` column. -/
def checkTimeRangeColumn (lib : Lib) (name : String) (s : SemanticSource) (d : Dimension) :
    Except Err Unit :=
  match d.backingColumns lib, d.jsonPath with
  | [column], none =>
      match s.columnType column with
      | some t =>
          if t.isTime then .ok ()
          else .error (.validationFailed (s!"time_range dimension {pyRepr name} reads column " ++
            s!"{pyRepr column} of type {pyRepr t.value}; it must be date or timestamp"))
      | none => .error (.validationFailed (s!"time_range dimension {pyRepr name} reads column " ++
            s!"{pyRepr column} of type None; it must be date or timestamp"))
  | _, _ => .error (.validationFailed
      s!"time_range dimension {pyRepr name} must be backed by exactly one column")

/-- `check_time_range_dimension`: every dimension of the range's name, on every source. -/
def checkTimeRangeDimension (lib : Lib) (r : TimeRange) (ss : Sources) : Except Err Unit :=
  let name := lastComponent r.dimension
  ss.list.forM fun s => (s.dimensions.filter fun d => d.dimMatches name).forM fun d =>
    checkTimeRangeColumn lib r.dimension s d

/-- `apply_time_range`: the query to plan, its range added to the filters as explicit days. -/
def applyTimeRange (lib : Lib) (q : SemanticQuery) (ss : Sources) : Except Err SemanticQuery :=
  match q.timeRange with
  | none => .ok q
  | some r => do
      checkTimeRangeDimension lib r ss
      let resolved ← resolveTimeRange lib r q.asOf
      return { q with
        filters := q.filters ++ [resolved.predicate]
        timeRange := some resolved.asExplicit }

end Canonic
