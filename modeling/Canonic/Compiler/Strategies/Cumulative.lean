import Canonic.Compiler.Strategies.Single

set_option autoImplicit false

/-! # Cumulative metrics

`strategies/cumulative.py`, `strategies/rolling.py` and `compiler/spine.py`. A running total is an
additive leaf and a window that is put over the spine when leaves are composed. A trailing window
or a period-to-date total is evaluated for each calendar day, inside its leaf, from a generated
day spine. Filters that only read the order column decide which rows are shown. -/

namespace Canonic

open Sql (Expr Query FromItem Projection)

/-! ## Filters by what they read -/

/-- The aliases and columns a bound condition reads. -/
def readColumns (e : Expr) : List (String × String) := e.columns.map fun c => (c.table, c.name)

/-- Whether a filter narrows the rows (`false`) or the shown order tuples (`true`). -/
def classifyFilter (env : Env) (shifted : ShiftMap) (metric owner : String) (tree : Dict String)
    (policy : EffectivePolicy) (orderColumns : List (String × String)) (raw : String) :
    Except Err Bool := do
  let bound ← bindFilter env shifted owner tree policy raw
  let columns := readColumns bound.1
  if columns.all (· ∉ orderColumns) then return false
  else if columns.all (· ∈ orderColumns) then return true
  else .error (.unsupportedMeasure (s!"cumulative metric {pyRepr metric}: filter {pyRepr raw} " ++
    "reads order and non-order columns at once; split it into one filter per kind"))

/-- `_split_filters`: the filters of the leaf and the visibility filters. -/
def splitFilters (env : Env) (shifted : ShiftMap) (metric : String) (filters : List String)
    (owner : String) (tree : Dict String) (policy : EffectivePolicy)
    (orderColumns : List (String × String)) : Except Err (List String × List String) := do
  let shows ← filters.mapM (classifyFilter env shifted metric owner tree policy orderColumns)
  let pairs := filters.zip shows
  return ((pairs.filter fun p => !p.2).map (·.1), (pairs.filter fun p => p.2).map (·.1))

/-- The base measure of a cumulative metric is a P0 additive one. -/
def checkCumulativeMeasure (lib : Lib) (name : String) (m : ResolvedMetric) : Except Err Unit :=
  if m.measure.additivity = .additive ∧ m.measure.isP0Compilable lib then .ok ()
  else .error (.unsupportedMeasure (s!"cumulative binding {pyRepr name}: base measure " ++
    s!"{m.source}.{pyRepr m.measure.name} must be additive and use sum, count, min or max"))

/-! ## Running totals -/

/-- The position of each order dimension among the requested ones, `none` when it is missing. -/
def orderIndex (env : Env) (metric : String) (dims : List (String × Dimension)) (owner : String)
    (tree : Dict String) (name : String) : Except Err (Option Nat) := do
  let found ← requireDimension env.sources name owner tree
    (s!"cumulative binding {pyRepr metric}: order_by dimension {pyRepr name} is not reachable " ++
      s!"from source {pyRepr owner}")
  let is := (List.range dims.length).filter fun i =>
    ((dims[i]?).map fun p => p.1 == found.1 && p.2.name == found.2.name).getD false
  return is.getLast?

/-- `_order_dimensions`: every order dimension must be requested. -/
def orderDimensions (env : Env) (metric : String) (orderBy : List String)
    (dims : List (String × Dimension)) (owner : String) (tree : Dict String) :
    Except Err (List Nat) := do
  let found ← orderBy.mapM (orderIndex env metric dims owner tree)
  let missing := ((orderBy.zip found).filter fun p => p.2.isNone).map (·.1)
  let pronoun := if missing.length = 1 then "it" else "them"
  if missing ≠ [] then
    .error (.unsupportedMeasure (s!"cumulative metric {pyRepr metric} accumulates along " ++
      s!"{reprNames missing}; add {pronoun} to the query's dimensions"))
  else return found.filterMap id

/-- `_visible_tuples`: the order tuples of the leaf's rows that pass the visibility filters. -/
def visibleTuples (i : LeafInputs) (orderDims : List Nat) (visibility : List Expr) :
    Except Err Query := do
  let dimPs ← dimProjections i.ctx.env i.shifted i.mask i.dimensions
  let from_ ← fromAndJoins i.ctx.env i.owner i.edges
  return .select .rows (orderDims.filterMap fun k => dimPs[k]?) from_
    (i.conditions ++ visibility) []

/-- The builder of a running total: an additive leaf, and what is shown of it. -/
def cumulativeBuilder (orderDims : List Nat) (visibility : List Expr) : LeafBuilder :=
  fun i metrics => do
    let q ← buildAdditive i metrics
    if visibility.isEmpty then return (q.1, [])
    else
      let shown ← visibleTuples i orderDims visibility
      return (q.1, [⟨i.namePrefix ++ visibleCte, shown⟩])

/-- The filters of a running total: under `history: include` those on the order columns only
decide what is shown. -/
def cumulativeFilters (ctx : LeafContext) (name : String) (frame : CumulativeBinding)
    (shifted : ShiftMap) (owner : String) (tree : Dict String)
    (orderColumns : List (String × String)) : Except Err (List String × List String) :=
  match frame.history with
  | .exclude => .ok (ctx.query.filters, [])
  | .include_ => splitFilters ctx.env shifted name ctx.query.filters owner tree ctx.policy
      orderColumns

/-- What a running total is planned from: the positions of its order dimensions, the names it is
ordered and partitioned by, and its filters, split and bound. -/
structure RunningTotal where
  orderDims : List Nat
  orderBy : List String
  partitionBy : List String
  filters : List String
  shown : List String
  visibility : List Expr

/-- The dimensions and filters of a running total, seen from its source. -/
def planRunningTotal (ctx : LeafContext) (name owner : String) (frame : CumulativeBinding) :
    Except Err RunningTotal := do
  let env := ctx.env
  let tree := buildAliasTree env.sources owner
  let dims ← resolveDimensions env ctx.query.dimensions owner tree
  let orderDims ← orderDimensions env name frame.orderBy dims owner tree
  let names := dimensionOutputNames dims
  let shifted ← resolveShifts env ctx.shifts owner tree
  let orderColumns := (orderDims.filterMap fun k => dims[k]?).flatMap fun p =>
    (p.2.backingColumns env.lib).map fun c => (p.1, c)
  let split ← cumulativeFilters ctx name frame shifted owner tree orderColumns
  let visibility ← bindFilters env shifted split.2 owner tree ctx.policy
  return {
    orderDims := orderDims
    orderBy := orderDims.filterMap fun k => names[k]?
    partitionBy :=
      ((List.range dims.length).filter (· ∉ orderDims)).filterMap fun k => names[k]?
    filters := split.1
    shown := split.2
    visibility := visibility.1 }

/-- The leaf of a running total, under the filters that narrow its rows. -/
def cumulativeCall (ctx : LeafContext) (name : String) (resolved : ResolvedMetric)
    (population : Option String) (frame : CumulativeBinding) (t : RunningTotal) : LeafCall where
  ctx := { ctx with query := { ctx.query with filters := t.filters } }
  owner := resolved.source
  metrics := [⟨resolved, population, some name⟩]
  options := {
    strategy := "cumulative"
    strategyParams := [("order_by", ",".intercalate t.orderBy), ("history", frame.history.value),
      ("visibility", "\x00".intercalate (t.shown.insertionSort (· ≤ ·)))]
    builder := some (cumulativeBuilder t.orderDims t.visibility) }

/-- `cumulative.plan_metric`. -/
def planCumulative (ctx : LeafContext) (name : String) (b : Binding) (frame : CumulativeBinding) :
    Except Err MetricLeaves := do
  let resolved ← bindMetric name b ctx.env.sources
  checkCumulativeMeasure ctx.env.lib name resolved
  let t ← planRunningTotal ctx name resolved.source frame
  let leaf ← (cumulativeCall ctx name resolved b.population frame t).plan
  let fill := frame.onGap == .fillObserved
  return {
    leaves := [leaf]
    metric := { directPlan name with
      cumulative := true
      accumulate := some ⟨t.orderBy, t.partitionBy, fill, !t.visibility.isEmpty⟩ }
    resolved := b.resolvedKey.getD ""
    warnings := if fill ∧ t.partitionBy ≠ [] then
      [s!"cumulative metric {pyRepr name} uses on_gap: fill_observed; the result contains " ++
        "filled rows that carry the running total forward, up to observed order tuples times " ++
        "partitions"] else [] }

/-! ## The day spine -/

/-- `digits_select`: the rows 0 to 9. -/
def digitsSelect : Query :=
  let digit (d : Nat) : Query := .select .none [⟨.number (toString d), "n"⟩] [] [] []
  Query.unionAll true (digit 0) ((List.range 9).map fun d => digit (d + 1))

/-- `a` where it is the smaller one, else `b`. -/
def capExpr (op : Sql.Op) (a b : Expr) : Expr := .node .case [.node op [a, b], b, a]

/-- The column of a spine row's day. -/
def dayColumn : String := "_day"

/-- `bounds_select`: the first day with data and the last one that is shown. -/
def boundsSelect (daily : String) (cap : Expr) (reach : Expr → Expr) : Query :=
  let day := Expr.col dayColumn daily
  let last := reach (.node (.agg .max) [day])
  .select .none [⟨.node (.agg .min) [day], "_lo"⟩, ⟨capExpr .gt last cap, "_hi"⟩]
    [readCte .from daily []] [] []

/-- The number of five digit rows. -/
def spineNumber : Expr :=
  [("10", "d1"), ("100", "d2"), ("1000", "d3"), ("10000", "d4")].foldl
    (fun e p => .node .add [e, .node .mul [.number p.1, Expr.col "n" p.2]]) (Expr.col "n" "d0")

/-- `spine_select`: every day between the bounds, at most 100,000 of them. -/
def spineSelect (env : Env) (bounds digits : String) : Query :=
  let d := env.adapter
  let numbers : Query := .select .none [⟨spineNumber, "n"⟩]
    (⟨.from, .cte digits, "d0", []⟩ ::
      ["d1", "d2", "d3", "d4"].map fun t => ⟨.cross, .cte digits, t, []⟩) [] []
  let lo := Expr.col "_lo" bounds
  let hi := Expr.col "_hi" bounds
  let earliest := d.dateAdd hi (-99999) .day
  let window : Query := .select .none [⟨capExpr .lt lo earliest, "_lo"⟩, ⟨hi, "_hi"⟩]
    [readCte .from bounds []] [] []
  let day := d.dateAddDays (Expr.col "_lo" "r") (Expr.col "n" "s")
  .select .none [⟨day, dayColumn⟩]
    [⟨.from, .derived window, "r", []⟩, ⟨.cross, .derived numbers, "s", []⟩]
    [.node .lte [day, Expr.col "_hi" "r"]] []

/-! ## Windows -/

/-- What a windowed metric is built from. -/
structure Rolling where
  orderIndex : Nat
  orderColumn : String × String
  columnType : NormalizedType
  frame : CumulativeBinding
  visibility : List Expr
  anchor : Expr
  reaggregate : Sql.Agg

/-- `_order_column`: the one column the order dimension reads. -/
def orderColumn (env : Env) (metric orderBy owner : String) (tree : Dict String) :
    Except Err (String × String) := do
  let found ← requireDimension env.sources orderBy owner tree
    (s!"cumulative binding {pyRepr metric}: order_by dimension {pyRepr orderBy} is not " ++
      s!"reachable from source {pyRepr owner}")
  match found.2.backingColumns env.lib with
  | [c] => return (found.1, c)
  | _ => .error (.unsupportedMeasure (s!"cumulative binding {pyRepr metric}: order_by dimension " ++
      s!"{pyRepr orderBy} must be backed by exactly one column"))

/-- Whether a dimension reads exactly one column, and this one. -/
def readsOnly (lib : Lib) (column : String × String) (p : String × Dimension) : Bool :=
  (p.2.backingColumns lib).map (fun c => (p.1, c)) == [column]

/-- `_requested_on_column`: the requested dimension on the order column. -/
def requestedOnColumn (lib : Lib) (metric orderBy : String) (column : String × String)
    (dims : List (String × Dimension)) : Except Err (Nat × String × Dimension) :=
  let on := ((List.range dims.length).zip dims).filter fun p => readsOnly lib column p.2
  match on with
  | [p] => .ok p
  | [] => .error (.unsupportedMeasure (s!"cumulative metric {pyRepr metric} is evaluated along " ++
      s!"{pyRepr orderBy}; add it, or another dimension on column {pyRepr column.2}, to the " ++
      "query's dimensions"))
  | ps => .error (.unsupportedMeasure (s!"cumulative metric {pyRepr metric}: " ++
      s!"{reprNames (ps.map fun p => p.2.2.name)} all read column {pyRepr column.2}; request " ++
      "one of them"))

/-- The lower bound of the rows a range on the order column reads. -/
def lookbackStart (frame : CumulativeBinding) (start : Date) : Except Err (Option Date) :=
  match frame.window, frame.grainToDate with
  | some w, _ => do return some (← addToDate start w (-1))
  | none, some g => do return some (← floorDate start g)
  | none, none => .ok none

/-- The texts of a range's bounds on a dimension. -/
def boundTexts (dimension : String) (start stop : Option Date) : List String :=
  (start.map fun d => s!"{dimension} >= '{d.isoformat}'").toList ++
    (stop.map fun d => s!"{dimension} < '{d.isoformat}'").toList

/-- The explicit days of a planned query's range. -/
def TimeRange.days (r : TimeRange) : Option Date × Option Date :=
  match r.bounds with
  | .dates start stop _ => (start, stop)
  | .last .. => (none, none)

/-- The start of the rows read for a range whose start is optional. -/
def lookbackDays (frame : CumulativeBinding) : Option Date → Except Err (Option Date)
  | none => .ok none
  | some d => lookbackStart frame d

/-- `_lookback_filters`: a range on the order column narrows the rows, widened by the lookback. -/
def lookbackFilters (env : Env) (range : Option TimeRange) (frame : CumulativeBinding)
    (owner : String) (tree : Dict String) (column : String × String) :
    Except Err (List String) :=
  match range with
  | none => .ok []
  | some r => do
      match ← findDimension env.sources r.dimension owner (some tree) with
      | none => return []
      | some p =>
          if readsOnly env.lib column p then
            let start ← lookbackDays frame r.days.1
            return boundTexts r.dimension start r.days.2
          else return []

/-- `_reach`: the last day whose frame still contains a day. -/
def reach (d : Dialect) (frame : CumulativeBinding) (day : Expr) : Expr :=
  match frame.window, frame.grainToDate with
  | some w, _ => d.dateAdd (d.dateAdd day w.count w.unit) (-1) .day
  | none, some g =>
      let start := (Expr.call "DATE_TRUNC" [.string g.value, day]).cast "DATE"
      d.dateAdd (d.dateAdd start 1 g) (-1) .day
  | none, none => day

/-- `_reaggregate`: how daily values of the measure combine. -/
def reaggregateOf (env : Env) (measureExpr : String) : Except Err Sql.Agg := do
  let parsed ← env.parse measureExpr
  return match parsed.walk.findSome? asAgg with
    | some (.min, _) => .min
    | some (.max, _) => .max
    | _ => .sum

/-- The dimension of the daily rows. -/
def dayDimension (column : String) : Dimension where
  name := dayColumn
  expr := some s!"CAST({column} AS DATE)"
  type := some .date
  column_xor_expr := by simp
  jsonPath_column := by simp
  derived_type := by simp

/-- A condition on the order column, evaluated on a spine day. -/
def onDay (env : Env) (r : Rolling) (spine : String) (e : Expr) : Expr :=
  let day := Expr.col dayColumn spine
  let asColumn := if r.columnType = .date then day else day.cast (env.adapter.mapType .timestamp)
  e.mapColumns fun c => if (c.table, c.name) = r.orderColumn then asColumn else .column c

/-- The days on which each output bucket is evaluated. -/
def targetSelect (env : Env) (r : Rolling) (spine : String) (bucket : Expr) : Query :=
  let day := Expr.col dayColumn spine
  let shown := r.visibility.map (onDay env r spine)
  let from_ := [readCte .from spine []]
  match r.frame.periodAgg with
  | .average => .select .none [⟨bucket, "_bucket"⟩, ⟨day, dayColumn⟩] from_ shown []
  | .last => .select .none [⟨bucket, "_bucket"⟩, ⟨.node (.agg .max) [day], dayColumn⟩] from_ shown
      [bucket]
  | .first => .select .none [⟨bucket, "_bucket"⟩, ⟨.node (.agg .min) [day], dayColumn⟩] from_
      shown [bucket]

/-- The frame of a target day: which daily rows it sums. -/
def frameConditions (d : Dialect) (frame : CumulativeBinding) : List Expr :=
  let target := Expr.col dayColumn "t"
  let daily := Expr.col dayColumn "d"
  .node .lte [daily, target] ::
    match frame.window, frame.grainToDate with
    | some w, _ => [.node .gt [daily, d.dateAdd target (-w.count) w.unit]]
    | none, some g => [.node .gte [daily,
        (Expr.call "DATE_TRUNC" [.string g.value, target]).cast "DATE"]]
    | none, none => []

/-- The names of the expressions a windowed leaf declares. -/
def rollingName (i : LeafInputs) (suffix : String) : String :=
  (if i.namePrefix = "" then "_" else i.namePrefix) ++ suffix

/-- The requested dimensions other than the order dimension, by position. -/
def Rolling.partitions (r : Rolling) (n : Nat) : List Nat :=
  (List.range n).filter (· ≠ r.orderIndex)

/-- The dimensions of the daily rows: the partitions and the day. -/
def dailyDims (i : LeafInputs) (r : Rolling) : List (String × Dimension) :=
  ((r.partitions i.dimensions.length).filterMap fun k => i.dimensions[k]?) ++
    ((i.dimensions[r.orderIndex]?).map fun p => (p.1, dayDimension r.orderColumn.2)).toList

/-- The daily values of the measure, by the additive builders. -/
def dailySelect (i : LeafInputs) (r : Rolling) (m : LeafMetric) : Except Err Query := do
  let dims := dailyDims i r
  enforceSafetyFloor i.ctx.env.lib [m.resolved] i.fanout (dims.map (·.2.name))
  emitAdditive i [m.resolved] dims ["_value"]

/-- The bucket of a spine day. -/
def bucketExpr (i : LeafInputs) (r : Rolling) (spine : String) : Except Err Expr :=
  match i.dimensions[r.orderIndex]? with
  | none => .error (.internal "list index out of range")
  | some p => do
      let e ← dimensionExpr i.ctx.env i.shifted p.1 p.2
        (dimMaskStrategy i.ctx.env.lib i.mask p.1 p.2)
      return onDay i.ctx.env r spine e

/-- The daily rows joined to the target days whose frame they are in. -/
def windowFrom (i : LeafInputs) (r : Rolling) : List (FromItem Query) :=
  [⟨.from, .cte (rollingName i "targets"), "t", []⟩,
    ⟨.inner, .cte (rollingName i "daily"), "d", frameConditions i.ctx.env.adapter r.frame⟩]

/-- The output columns of the final select, the bucket in the place of the order dimension. -/
def windowProjections (i : LeafInputs) (r : Rolling) (source : String) (bucket : Expr) :
    List Projection :=
  let daily := (r.partitions i.dimensions.length).zip (dimensionOutputNames (dailyDims i r))
  i.dimNames.mapIdx fun k name =>
    ⟨if k = r.orderIndex then bucket else Expr.col ((daily.lookup k).getD "") source, name⟩

/-- The grouping of the final select: the bucket, then the partitions. -/
def windowGroup (i : LeafInputs) (r : Rolling) (source : String) (bucket : Expr) : List Expr :=
  let names := (dimensionOutputNames (dailyDims i r)).take
    (r.partitions i.dimensions.length).length
  bucket :: names.map fun n => Expr.col n source

/-- The value for each bucket, day and partition, for `period_agg: average`. -/
def perDaySelect (i : LeafInputs) (r : Rolling) (value : Expr) : Query :=
  let names := (dimensionOutputNames (dailyDims i r)).take
    (r.partitions i.dimensions.length).length
  let keys : List Projection := [⟨Expr.col "_bucket" "t", "_bucket"⟩,
    ⟨Expr.col dayColumn "t", dayColumn⟩] ++ readDims "d" names
  .select .none (keys ++ [⟨value, "_value"⟩]) (windowFrom i r) [] (keys.map (·.expr))

/-- `_build_windowed`. -/
def buildWindowed (r : Rolling) : LeafBuilder := fun i metrics =>
  match metrics with
  | [] => .error (.internal "list index out of range")
  | m :: _ => do
      let env := i.ctx.env
      let daily ← dailySelect i r m
      let bucket ← bucketExpr i r (rollingName i "spine")
      let value := Expr.node (.agg r.reaggregate) [Expr.col "_value" "d"]
      let aux : List AuxCte := [
        ⟨rollingName i "daily", daily⟩,
        ⟨rollingName i "digits", digitsSelect⟩,
        ⟨rollingName i "bounds",
          boundsSelect (rollingName i "daily") r.anchor (reach env.adapter r.frame)⟩,
        ⟨rollingName i "spine",
          spineSelect env (rollingName i "bounds") (rollingName i "digits")⟩,
        ⟨rollingName i "targets", targetSelect env r (rollingName i "spine") bucket⟩]
      if r.frame.periodAgg = .average then
        let dims := windowProjections i r "w" (Expr.col "_bucket" "w")
        let avg := Expr.node (.agg .avg) [Expr.col "_value" "w"]
        return (.select .none (dims ++ [⟨avg, m.outputAlias⟩])
            [⟨.from, .cte (rollingName i "windows"), "w", []⟩] []
            (windowGroup i r "w" (Expr.col "_bucket" "w")),
          aux ++ [⟨rollingName i "windows", perDaySelect i r value⟩])
      else
        let dims := windowProjections i r "d" (Expr.col "_bucket" "t")
        return (.select .none (dims ++ [⟨value, m.outputAlias⟩]) (windowFrom i r) []
          (windowGroup i r "d" (Expr.col "_bucket" "t")), aux)

/-- The grain of the order dimension is a day or coarser. -/
def checkRollingGrain (name column : String) (dim : Dimension) (type : Option NormalizedType) :
    Except Err Unit :=
  let grain := match dim.periodGrain with
    | some g => some g
    | none => if type = some .date then some "day" else none
  match grain with
  | some g => if 1 ≤ periodGrains.idxOf g then .ok () else refuse
  | none => refuse
where
  refuse : Except Err Unit :=
    .error (.unsupportedMeasure (s!"cumulative metric {pyRepr name} is evaluated per day; group " ++
      s!"by a dimension on {pyRepr column} of a day or coarser instead of {pyRepr dim.name}"))

/-- The last day that is shown: the day of `as_of`, or the warehouse's current one. -/
def anchorExpr (asOf : Option DateTime) : Expr :=
  match asOf with
  | some t => (Expr.string t.day.isoformat).cast "DATE"
  | none => .node .currentDate []

/-- A windowed metric with its filters: those of the leaf, then those that decide what is
shown. -/
structure RollingPlan where
  rolling : Rolling
  filters : List String
  shown : List String

/-- The order column and the filters of a windowed metric, seen from its source. -/
def planWindow (ctx : LeafContext) (name : String) (resolved : ResolvedMetric)
    (frame : CumulativeBinding) : Except Err RollingPlan := do
  let env := ctx.env
  let owner := resolved.source
  let tree := buildAliasTree env.sources owner
  let dims ← resolveDimensions env ctx.query.dimensions owner tree
  let orderBy := frame.orderBy.headD ""
  let column ← orderColumn env name orderBy owner tree
  let requested ← requestedOnColumn env.lib name orderBy column dims
  let source ← env.sources.getKey (tree.getD requested.2.1 requested.2.1)
  checkRollingGrain name column.2 requested.2.2 (requested.2.2.valueType source.columns)
  let split ← splitFilters env [] name ctx.query.filters owner tree ctx.policy [column]
  let lookback ← lookbackFilters env ctx.query.timeRange frame owner tree column
  let visibility ← bindFilters env [] split.2 owner tree ctx.policy
  let agg ← reaggregateOf env resolved.measure.expr
  return {
    rolling := {
      orderIndex := requested.1
      orderColumn := column
      columnType := (source.columnType column.2).getD .date
      frame := frame
      visibility := visibility.1
      anchor := anchorExpr ctx.query.asOf
      reaggregate := agg }
    filters := split.1 ++ lookback
    shown := split.2 }

/-- The leaf of a windowed metric. -/
def rollingCall (ctx : LeafContext) (name : String) (resolved : ResolvedMetric)
    (population : Option String) (w : RollingPlan) : LeafCall where
  ctx := { ctx with query := { ctx.query with filters := w.filters } }
  owner := resolved.source
  metrics := [⟨resolved, population, some name⟩]
  options := {
    strategy := "rolling"
    strategyParams := [("frame", w.rolling.frame.frameKey),
      ("visibility", "\x00".intercalate (w.shown.insertionSort (· ≤ ·))),
      ("anchor", ctx.env.lib.sql (some .postgres) w.rolling.anchor)]
    builder := some (buildWindowed w.rolling)
    fusable := false }

/-- `rolling.plan_metric`. -/
def planRolling (ctx : LeafContext) (name : String) (b : Binding) (frame : CumulativeBinding) :
    Except Err MetricLeaves := do
  let resolved ← bindMetric name b ctx.env.sources
  checkCumulativeMeasure ctx.env.lib name resolved
  let w ← planWindow ctx name resolved frame
  let leaf ← (rollingCall ctx name resolved b.population w).plan
  return {
    leaves := [leaf]
    metric := { directPlan name with cumulative := true }
    resolved := b.resolvedKey.getD "" }

end Canonic
