import Canonic.Compiler.Compose

set_option autoImplicit false

/-! # Metrics of one source

`strategies/simple_additive.py`, `opaque.py`, `recompute.py`, `semi_additive.py` and
`composite.py`: a metric bound to a source is one leaf, and a ratio is the two leaves of its
components. A kind with a shape of its own brings a builder, which also decides what a fanning
join does to it. -/

namespace Canonic

open Sql (Expr Query Projection)

/-- The source and measure of a binding, or the name that is unknown. `what` is the noun of the
messages. -/
def bindMeasure (what name : String) (ss : Sources) (source measure : String) :
    Except Err (SemanticSource × Measure) :=
  match ss.get source with
  | none => .error (.unresolved s!"{what} {pyRepr name} binds to unknown source {pyRepr source}")
  | some s =>
      match s.findMeasure measure with
      | some m => .ok (s, m)
      | none => .error (.unresolved
          s!"{what} {pyRepr name} binds to unknown measure {source}.{pyRepr measure}")

/-- `_bind_metric`. -/
def bindMetric (name : String) (b : Binding) (ss : Sources) : Except Err ResolvedMetric :=
  match b.source, b.measure with
  | some source, some measure => do
      let r ← bindMeasure "metric" name ss source measure
      return ⟨name, source, r.2⟩
  | _, _ => .error (.internal "AssertionError")

/-- The population filter a binding declares. -/
def Binding.population (b : Binding) : Option String := b.binding.canonical.populationFilter

/-- A metric whose value is one column of its only leaf. -/
def directPlan (name : String) : MetricPlan := { name := name, refs := [⟨0, name⟩] }

/-- The leaf of an additive metric, under the finality rule of its name. -/
def simpleCall (ctx : LeafContext) (name : String) (resolved : ResolvedMetric)
    (population : Option String) : LeafCall where
  ctx := ctx
  owner := resolved.source
  metrics := [⟨resolved, population, some name⟩]
  options := { finalityMetric := some name }

/-- `simple_additive.plan_metric`. -/
def planSimpleAdditive (ctx : LeafContext) (name : String) (b : Binding) :
    Except Err MetricLeaves := do
  let resolved ← bindMetric name b ctx.env.sources
  let leaf ← (simpleCall ctx name resolved b.population).plan
  return ⟨[leaf], directPlan name, s!"{resolved.source}.{resolved.measure.name}", []⟩

/-! ## Opaque -/

/-- `_build_opaque`: a direct lookup, without an aggregate. -/
def buildOpaque (i : LeafInputs) (metric : ResolvedMetric) (name : String) : Except Err Query := do
  let dimPs ← dimProjections i.ctx.env i.shifted i.mask i.dimensions
  let measurePs ← measureProjections i.ctx.env [metric] [name]
  let from_ ← fromAndJoins i.ctx.env i.owner i.edges
  return .select .none (dimPs ++ measurePs) from_ i.conditions []

/-- The builder of an opaque metric: served at its native grain only. -/
def opaqueBuilder (name : String) (nativeGrain : List String) : LeafBuilder := fun i metrics =>
  let requested := i.dimensions.map (·.2.name)
  let native := " × ".intercalate (nativeGrain.insertionSort (· ≤ ·))
  if sortedSet requested ≠ sortedSet nativeGrain then
    .error (.unsupportedMeasure
      (s!"metric {pyRepr name} is opaque and can only be served at its " ++
      s!"native grain ({native}); cannot re-aggregate a pre-computed value — requested grain " ++
      s!"was {pyReprList (sortedSet requested)}"))
  else
    match metrics with
    | [] => .error (.internal "list index out of range")
    | m :: _ => do
        let q ← buildOpaque i m.resolved name
        return (q, [])

/-- The leaf of an opaque metric. -/
def opaqueCall (ctx : LeafContext) (name : String) (resolved : ResolvedMetric)
    (population : Option String) (nativeGrain : List String) : LeafCall where
  ctx := ctx
  owner := resolved.source
  metrics := [⟨resolved, population, some name⟩]
  options := {
    strategy := "opaque"
    strategyParams := [("native_grain", ",".intercalate (nativeGrain.insertionSort (· ≤ ·)))]
    builder := some (opaqueBuilder name nativeGrain)
    fusable := false }

/-- `opaque.plan_metric`. -/
def planOpaque (ctx : LeafContext) (name : String) (b : Binding) (nativeGrain : List String) :
    Except Err MetricLeaves := do
  let resolved ← bindMetric name b ctx.env.sources
  let leaf ← (opaqueCall ctx name resolved b.population nativeGrain).plan
  return ⟨[leaf], directPlan name, b.resolvedKey.getD "", []⟩

/-! ## Recompute at grain -/

/-- The aggregate a recompute metric computes, over one column. -/
inductive RecomputeKind where
  | distinctCount
  | percentile (quantile : String)
  deriving DecidableEq, Repr

/-- The aggregate of a dialect that has it. -/
def recomputeExpr (env : Env) (kind : RecomputeKind) (alias_ column : String) : Except Err Expr :=
  match kind with
  | .distinctCount => .ok (.node (.agg .count) [.node .distinct [Expr.col column alias_]])
  | .percentile q => do
      let parsed ← env.parse s!"PERCENTILE_CONT({q}) WITHIN GROUP (ORDER BY {column})"
      return qualifyTo parsed alias_

/-- `_build_recompute` with a native aggregate: grouped from base rows. -/
def buildRecompute (i : LeafInputs) (kind : RecomputeKind) (alias_ column name : String) :
    Except Err Query := do
  let agg ← recomputeExpr i.ctx.env kind alias_ column
  let dimPs ← dimProjections i.ctx.env i.shifted i.mask i.dimensions
  let from_ ← fromAndJoins i.ctx.env i.owner i.edges
  return .select .none (dimPs ++ [⟨agg, name⟩]) from_ i.conditions (dimPs.map (·.expr))

/-- The inner query of a percentile by rank: rows with a value, ranked within their group. -/
def percentileRanked (i : LeafInputs) (alias_ column : String) : Except Err Query := do
  let dimPs ← dimProjections i.ctx.env i.shifted i.mask i.dimensions
  let value := Expr.col column alias_
  let cumeDist := windowExpr (.call "CUME_DIST" []) (dimPs.map (·.expr))
    [.node (.ordered false) [value]] ""
  let from_ ← fromAndJoins i.ctx.env i.owner i.edges
  let notNull ← i.ctx.env.parse s!"{column} IS NOT NULL"
  return .select .none (dimPs ++ [⟨value, "_val"⟩, ⟨cumeDist, "_cd"⟩]) from_
    (i.conditions ++ [qualifyTo notNull alias_]) []

/-- `_build_percentile_fallback`: the smallest value at or past the quantile. -/
def buildPercentileFallback (i : LeafInputs) (quantile alias_ column name : String) :
    Except Err (Query × List AuxCte) := do
  let ranked := i.namePrefix ++ "_ranked"
  let inner ← percentileRanked i alias_ column
  let dimPs := readDims ranked i.dimNames
  let outer : Query := .select .none
    (dimPs ++ [⟨.node (.agg .min) [Expr.col "_val" ranked], name⟩]) [readCte .from ranked []]
    [.node .gte [Expr.col "_cd" ranked, .number quantile]] (dimPs.map (·.expr))
  return (outer, [⟨ranked, inner⟩])

/-- The builder of a recompute metric. A percentile is corrupted by repeated rows. -/
def recomputeBuilder (dialect : Dialect) (kind : RecomputeKind) (alias_ column name : String) :
    LeafBuilder := fun i _ =>
  match kind with
  | .distinctCount => do
      let q ← buildRecompute i kind alias_ column name
      return (q, [])
  | .percentile quantile =>
      if i.fanout then .error (.fanoutUnsafe (s!"percentile metric {pyRepr name} cannot be used " ++
        "with a one_to_many/many_to_many join; row duplication corrupts a sort-based quantile — " ++
        "request it without the fanning dimension"))
      else if dialect.supportsPercentileCont then do
        let q ← buildRecompute i kind alias_ column name
        return (q, [])
      else buildPercentileFallback i quantile alias_ column name

/-- `_make_synthetic_measure`: the stand-in measure of a metric that reads a column. -/
def syntheticMeasure (column : String) : Measure :=
  { name := column, expr := column, additivity := .nonAdditive }

/-- The kind name, field name and quantile of a recompute metric. -/
def RecomputeKind.texts : RecomputeKind → String × String × String
  | .distinctCount => ("distinct_count", "distinct_on", "")
  | .percentile q => ("percentile", "column", q)

/-- The adapter of the connection's dialect (`adapter_for`). -/
def Env.adapterFor (env : Env) : Except Err Dialect :=
  match env.dialect with
  | some d => .ok d
  | none => .error (.unsupportedDialect env.dialectName)

/-- The column a recompute metric reads, bound through the whole alias tree. -/
def recomputeColumn (env : Env) (kind : RecomputeKind) (name source column : String) :
    Except Err (String × String) := do
  match ← bindName env.sources column source (some (buildAliasTree env.sources source)) with
  | some bound => .ok bound
  | none => .error (.unreachable (s!"metric {pyRepr name}: {kind.texts.2.1} {pyRepr column} is " ++
      s!"not declared on source {pyRepr source} or any reachable join") [])

/-- The leaf of a recompute metric, its column bound. -/
def recomputeCall (ctx : LeafContext) (name : String) (kind : RecomputeKind) (dialect : Dialect)
    (source column : String) (bound : String × String) (population : Option String) :
    LeafCall where
  ctx := ctx
  owner := source
  metrics := [⟨⟨name, source, syntheticMeasure bound.2⟩, population, some name⟩]
  options := {
    strategy := kind.texts.1
    strategyParams := [("column", column), ("quantile", kind.texts.2.2)]
    builder := some (recomputeBuilder dialect kind bound.1 bound.2 name)
    fusable := false }

/-- `recompute.plan_metric`. -/
def planRecomputeAtGrain (ctx : LeafContext) (name : String) (b : Binding) (kind : RecomputeKind)
    (source column : String) (parentPopulation : Option String) : Except Err MetricLeaves := do
  let dialect ← ctx.env.adapterFor
  let bound ← recomputeColumn ctx.env kind name source column
  let leaf ← (recomputeCall ctx name kind dialect source column bound
    (combinePopulationFilters [parentPopulation, b.population])).plan
  let warnings := if kind ≠ .distinctCount ∧ ¬ dialect.supportsPercentileCont then
    [s!"metric {pyRepr name}: dialect {pyRepr dialect.name} has no native percentile aggregate " ++
      "— computed via nearest-rank window function, which returns an actual row value rather " ++
      "than a linearly interpolated one (differs from PERCENTILE_CONT on even-sized groups)"]
    else []
  return ⟨[leaf], directPlan name, s!"recompute_at_grain({source}.{column})", warnings⟩

/-! ## Semi-additive -/

/-- What the collapse of a semi-additive metric is built from. -/
structure SemiAdditive where
  name : String
  measure : Measure
  collapse : String × Dimension
  grainDims : List (String × Dimension)
  agg : CollapseAgg

/-- `_same_time_axis`: a dimension on the column the binding collapses over. -/
def sameTimeAxis (p collapse : String × Dimension) : Bool :=
  p.1 == collapse.1 && p.2.column.isSome && p.2.jsonPath.isNone && p.2.column == collapse.2.column

/-- The entity key as projections: the source's grain without the collapse dimension. -/
def grainProjections (i : LeafInputs) (dims : List (String × Dimension)) :
    Except Err (List Projection) :=
  (dims.zip (dimensionOutputNames dims)).mapM fun p => do
    let e ← dimensionExpr i.ctx.env i.shifted p.1.1 p.1.2 none
    return ⟨e, p.2⟩

/-- The inner query of a `last`/`first` collapse: rows ranked within their entity. -/
def semiAdditiveRanked (i : LeafInputs) (s : SemiAdditive) : Except Err Query := do
  let collapse ← dimensionBaseExpr i.ctx.env i.shifted s.collapse.1 s.collapse.2
  let dimPs ← dimProjections i.ctx.env i.shifted i.mask i.dimensions
  let grainPs ← grainProjections i s.grainDims
  let buckets ← (i.dimensions.filter fun p => sameTimeAxis p s.collapse).mapM fun p =>
    dimensionExpr i.ctx.env i.shifted p.1 p.2 none
  let inputs ← inputColumns i.ctx.env s.measure
  let rowNumber := windowExpr (.call "ROW_NUMBER" []) (grainPs.map (·.expr) ++ buckets)
    [.node (.ordered (s.agg == .last)) [collapse]] ""
  let keys := (firstById (·.name) (dimPs.map (·.name)) grainPs)
  let from_ ← fromAndJoins i.ctx.env i.owner i.edges
  return .select .none
    (dimPs ++ keys ++ inputs.map (fun c => ⟨Expr.col c i.owner, c⟩) ++ [⟨rowNumber, "rn"⟩])
    from_ i.conditions []

/-- The inner query of an `avg`/`min`/`max` collapse: the measure for each snapshot. -/
def semiAdditivePerSnapshot (i : LeafInputs) (s : SemiAdditive) : Except Err Query := do
  let collapse ← dimensionBaseExpr i.ctx.env i.shifted s.collapse.1 s.collapse.2
  let dimPs ← dimProjections i.ctx.env i.shifted i.mask i.dimensions
  let measure ← measureExpr i.ctx.env i.owner s.measure
  let from_ ← fromAndJoins i.ctx.env i.owner i.edges
  return .select .none (dimPs ++ [⟨measure, "m"⟩]) from_ i.conditions
    (dimPs.map (·.expr) ++ [collapse])

/-- The aggregate over the per-snapshot values. -/
def CollapseAgg.overSnapshots : CollapseAgg → Sql.Agg
  | .min => .min
  | .max => .max
  | _ => .avg

/-- `_build_semi_additive`. -/
def buildSemiAdditive (i : LeafInputs) (s : SemiAdditive) : Except Err (Query × List AuxCte) :=
  if s.agg = .last ∨ s.agg = .first then do
    let ranked := i.namePrefix ++ "ranked"
    let inner ← semiAdditiveRanked i s
    let measurePs ← reaggregated i.ctx.env ranked [⟨s.name, i.owner, s.measure⟩] [s.name]
    let dimPs := readDims ranked i.dimNames
    let outer : Query := .select .none (dimPs ++ measurePs) [readCte .from ranked []]
      [.mkEq (Expr.col "rn" ranked) (.number "1")] (dimPs.map (·.expr))
    return (outer, [⟨ranked, inner⟩])
  else do
    let snapshot := i.namePrefix ++ "per_snapshot"
    let inner ← semiAdditivePerSnapshot i s
    let dimPs := readDims snapshot i.dimNames
    let value := Expr.node (.agg s.agg.overSnapshots) [Expr.col "m" snapshot]
    let outer : Query := .select .none (dimPs ++ [⟨value, s.name⟩]) [readCte .from snapshot []]
      [] (dimPs.map (·.expr))
    return (outer, [⟨snapshot, inner⟩])

/-- The builder of a semi-additive metric; grouped by the collapse dimension it is additive. -/
def semiAdditiveBuilder (s : SemiAdditive) (collapsed : Bool) : LeafBuilder := fun i metrics =>
  if i.fanout then
    .error (.fanoutUnsafe (s!"semi_additive metric {pyRepr s.name} cannot be used " ++
    "with a one_to_many/many_to_many join; request it without the fanning dimension"))
  else if collapsed then buildSemiAdditive i s
  else do
    let q ← buildSimple i.ctx.env i.shifted i.owner (metrics.map (·.resolved)) i.dimensions
      i.conditions i.edges [s.name] i.mask
    return (q, [])

/-- A dimension the binding names, or the error that it does not exist. -/
def requireDimension (ss : Sources) (name owner : String) (tree : Dict String) (message : String) :
    Except Err (String × Dimension) := do
  match ← findDimension ss name owner (some tree) with
  | some found => .ok found
  | none => .error (.unresolved message)

/-- The base measure of a semi-additive metric is a P0 additive one. -/
def checkSemiAdditiveMeasure (lib : Lib) (name source : String) (m : Measure) : Except Err Unit :=
  if m.additivity ≠ .additive then .error (.unsupportedMeasure
    s!"semi_additive binding {pyRepr name}: base measure {source}.{pyRepr m.name} must be additive")
  else if m.isP0Compilable lib then .ok ()
  else .error (.unsupportedMeasure
    s!"measure {source}.{pyRepr m.name} uses an aggregate function not supported at P0")

/-- The leaf of a semi-additive metric. -/
def semiAdditiveCall (ctx : LeafContext) (source : String) (collapseDimension : String)
    (s : SemiAdditive) (collapsed : Bool) (population : Option String) : LeafCall where
  ctx := ctx
  owner := source
  metrics := [⟨⟨s.name, source, s.measure⟩, population, some s.name⟩]
  options := {
    strategy := "semi_additive"
    strategyParams :=
      [("collapse_dimension", collapseDimension), ("collapse_agg", s.agg.value)]
    builder := some (semiAdditiveBuilder s collapsed)
    fusable := false }

/-- What the collapse of a semi-additive metric reads. -/
def planCollapse (ctx : LeafContext) (name source measure collapseDimension : String)
    (agg : CollapseAgg) : Except Err SemiAdditive := do
  let tree := buildAliasTree ctx.env.sources source
  let bound ← bindMeasure "metric" name ctx.env.sources source measure
  checkSemiAdditiveMeasure ctx.env.lib name source bound.2
  let collapse ← requireDimension ctx.env.sources collapseDimension source tree
    (s!"semi_additive binding {pyRepr name}: collapse_dimension {pyRepr collapseDimension} is " ++
      "not declared on any source")
  let grainDims ← (bound.1.grain.filter (· ≠ collapseDimension)).mapM fun g =>
    requireDimension ctx.env.sources g source tree
      (s!"semi_additive binding {pyRepr name}: grain column {pyRepr g} of source " ++
        s!"{pyRepr source} is not declared as a dimension")
  return ⟨name, bound.2, collapse, grainDims, agg⟩

/-- `semi_additive.plan_metric`. -/
def planSemiAdditive (ctx : LeafContext) (name : String) (b : Binding)
    (source measure collapseDimension : String) (agg : CollapseAgg) :
    Except Err MetricLeaves := do
  let s ← planCollapse ctx name source measure collapseDimension agg
  let dims ← resolveDimensions ctx.env ctx.query.dimensions source
    (buildAliasTree ctx.env.sources source)
  let collapsed := collapseDimension ∉ dims.map (·.2.name)
  let leaf ← (semiAdditiveCall ctx source collapseDimension s collapsed b.population).plan
  return ⟨[leaf], directPlan name, s!"{source}.{measure}", []⟩

/-! ## Composites -/

/-- `_plan_leaf` of a composite: a component by its own kind, under both populations. -/
def planComponent (ctx : LeafContext) (component : Binding) (population : Option String) :
    Except Err LeafPlan :=
  match component.binding.canonical.of, component with
  | .distinctCount source column _, .leaf _ => do
      let planned ← planRecomputeAtGrain ctx component.metric component .distinctCount source
        column population
      match planned.leaves with
      | l :: _ => .ok l
      | [] => .error (.internal "list index out of range")
  | .single source measure, .leaf _ => do
      let bound ← bindMeasure "component" component.metric ctx.env.sources source measure
      (simpleCall ctx component.metric ⟨component.metric, source, bound.2⟩
        (combinePopulationFilters [population, component.population])).plan
  | of, _ =>
      let nested := if of.kind = .ratio ∨ of.kind = .weightedAvg
        then "nested composite metrics are not yet supported; " else ""
      .error (.unsupportedMeasure (s!"{nested}component {pyRepr component.metric} has kind " ++
        s!"{pyRepr of.kind.value}, but only single and distinct_count metrics can be ratio " ++
        "components"))

/-- `_ZERO_POLICY`. -/
def OnZeroDenominator.combine : OnZeroDenominator → Combine
  | .null => .ratioNull
  | .zero => .ratioZero
  | .error => .ratioRaw

/-- The column a planned leaf of one metric projects it under. -/
def LeafPlan.firstAlias (l : LeafPlan) : String := l.measureAliases.headD ""

/-- `composite.plan_metric`: a leaf for each component, divided after aggregation. -/
def planComposite (ctx : LeafContext) (b numerator denominator : Binding) :
    Except Err MetricLeaves := do
  let num ← planComponent ctx numerator b.population
  let den ← planComponent ctx denominator b.population
  let onZero := b.binding.canonical.onZeroDenominator
  return {
    leaves := [num, den]
    metric := {
      name := b.metric
      refs := [⟨0, num.firstAlias⟩, ⟨1, den.firstAlias⟩]
      combine := onZero.combine }
    resolved := b.resolvedKey.getD ""
    warnings := if onZero = .null then [zeroDenominatorWarning b.metric] else [] }

end Canonic
