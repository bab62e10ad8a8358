import Canonic.Compiler.Builders

set_option autoImplicit false

/-! # Leaf planning

`compiler/leaf.py`. A leaf is one source aggregated to the requested dimensions, with its own
dimension binding, join plan, conditions and finality. Planning fixes everything but the list of
measures; the plan is then built, once while planning and again when leaves are composed, possibly
with the measures of other leaves added. -/

namespace Canonic

open Sql (Expr Query)

/-- Everything planning needs that does not vary from one leaf to the next. The offsets and
enclosing populations a metric is planned under are context variables in the source. -/
structure LeafContext where
  env : Env
  query : SemanticQuery
  resolver : ContractResolver
  principal : Principal
  policy : EffectivePolicy
  shifts : List TimeShift := []
  populations : List String := []

/-- One metric to project from a leaf. -/
structure LeafMetric where
  resolved : ResolvedMetric
  populationFilter : Option String := none
  alias_ : Option String := none
  deriving DecidableEq, Repr

/-- `_output_alias`. -/
def LeafMetric.outputAlias (m : LeafMetric) : String :=
  match m.alias_ with
  | some a => if a = "" then m.resolved.measure.name else a
  | none => m.resolved.measure.name

/-- A common table expression that a leaf needs next to its own. -/
structure AuxCte where
  name : String
  body : Query

/-- The resolved plan a builder turns into a `SELECT`. -/
structure LeafInputs where
  ctx : LeafContext
  owner : String
  dimensions : List (String × Dimension)
  conditions : List Expr
  edges : List JoinEdge
  fanout : Bool
  tree : Dict String
  namePrefix : String := ""
  mask : DimMask
  /-- The columns the leaf's offsets move, active while a builder runs. -/
  shifted : ShiftMap := []

/-- The output names of the requested dimensions. -/
def LeafInputs.dimNames (i : LeafInputs) : List String := dimensionOutputNames i.dimensions

/-- Turns a plan and a list of measures into a query and the expressions it needs. -/
abbrev LeafBuilder := LeafInputs → List LeafMetric → Except Err (Query × List AuxCte)

/-! ## Identity -/

/-- `_conjuncts`: the predicates a condition ands together, redundant parentheses removed. -/
def conjuncts : Expr → List Expr
  | .node .paren [.node .or args] => [.node .paren [.node .or args]]
  | .node .paren [e] => conjuncts e
  | .node .and [a, b] => conjuncts a ++ conjuncts b
  | .node .or args => [.node .paren [.node .or args]]
  | e => [e]

/-- `_filter_key`. -/
def filterKey (lib : Lib) (conditions : List Expr) : List String :=
  firstById id [] ((conditions.flatMap conjuncts).map lib.keySql)

/-- The identity of a planned leaf. -/
structure LeafKey where
  source : String
  strategy : String
  dimensions : List String
  dimensionExprs : List String
  filters : List String
  joinPath : List (String × String × String)
  finality : List String
  strategyParams : List (String × String)
  /-- Measure, rendered expression and output column of each metric. -/
  measures : List (String × String × String)
  deriving DecidableEq, Repr

/-- `fusion_key`: the key without its measures. -/
def LeafKey.fusionKey (k : LeafKey) : LeafKey := { k with measures := [] }

/-! ## Plans -/

/-- What is known of a leaf's finality. -/
structure FinalityMetadata where
  watermark : String
  sourcesUsed : List String
  resultFlag : String
  deriving DecidableEq, Repr

/-- A requested dimension whose values are periods of a known grain. -/
structure TimeDimension where
  column : String
  grain : String
  timeFormat : Option String
  deriving DecidableEq, Repr

/-- How a leaf's query is emitted: by a builder, or as a union over realizations. -/
inductive Emit where
  | build (builder : LeafBuilder)
  | finality (inputs : FinalityInputs)

/-- A planned leaf. -/
structure LeafPlan where
  key : LeafKey
  inputs : LeafInputs
  emit : Emit
  metrics : List LeafMetric
  select : Query
  aux : List AuxCte
  measureAliases : List String
  usedSources : List String
  fired : List FiredGuardrail
  warnings : List String
  finality : Option FinalityMetadata
  scopedSources : List String
  sharedSources : List String
  fusable : Bool
  timeDimensions : List TimeDimension

namespace LeafPlan

/-- The output names of the requested dimensions. -/
def dimNames (l : LeafPlan) : List String := l.inputs.dimNames

/-- Whether a join of the leaf multiplies the owner's rows. -/
def fanout (l : LeafPlan) : Bool := l.inputs.fanout

/-- Whether the leaf projects `is_final`. -/
def projectsIsFinal (l : LeafPlan) : Bool := l.finality.isSome

end LeafPlan

/-- The closure `build` of `plan_leaf`: the plan emitted for a list of measures. -/
def buildLeaf (inputs : LeafInputs) (emit : Emit) (metrics : List LeafMetric)
    (namePrefix : String) : Except Err (Query × List AuxCte) :=
  match emit with
  | .finality f => do
      let q ← buildFinalityUnion inputs.ctx.env f (metrics.map (·.resolved))
        (metrics.map (·.outputAlias))
      return (q, [])
  | .build b => do
      let shifted ← resolveShifts inputs.ctx.env inputs.ctx.shifts inputs.owner inputs.tree
      b { inputs with namePrefix := namePrefix, shifted := shifted } metrics

/-- `rebuild`: emit the plan again, with other measures or under a name prefix. -/
def LeafPlan.rebuild (l : LeafPlan) (metrics : List LeafMetric) (namePrefix : String) :
    Except Err (Query × List AuxCte) :=
  buildLeaf l.inputs l.emit metrics namePrefix

/-! ## Scoping -/

/-- `_scoped_message`: a binding failure, with the leaf that could not bind. -/
def scopedMessage (message : String) (metrics : List LeafMetric) (owner : String) : String :=
  s!"metric {reprNames (metrics.map (·.resolved.name))} (leaf {pyRepr owner}): {message}"

/-- `_naming_the_leaf`: the error that is raised in the place of a binding failure. -/
def nameLeaf (metrics : List LeafMetric) (owner : String) : Err → Err
  | .ambiguousJoinPath m o t cs => .ambiguousJoinPath (scopedMessage m metrics owner) o t cs
  | .unreachable m cs => .unreachable (scopedMessage m metrics owner) cs
  | .ambiguous m cs => .ambiguous (scopedMessage m metrics owner) cs
  | e => e

/-- Run a step with its binding failures naming the leaf. -/
def namingTheLeaf {α : Type} (metrics : List LeafMetric) (owner : String) (x : Except Err α) :
    Except Err α := x.mapError (nameLeaf metrics owner)

/-- The leaf's effective `WHERE`, with the guardrails that contributed to it. -/
structure Scoping where
  conditions : List Expr
  fired : List FiredGuardrail
  warnings : List String

/-- The population of a leaf: those of the enclosing metrics, then its own. -/
def leafPopulation (ctx : LeafContext) (metrics : List LeafMetric) : Option String :=
  let own := (metrics.head?.bind (·.populationFilter))
  if ctx.populations.isEmpty then own
  else combinePopulationFilters (ctx.populations.map some ++ [own])

/-- `_apply_metric_scoping`: population and guardrails added to the conditions so far. Conditions
are taken from the first metric, fired entries and warnings from all of them. -/
def applyMetricScoping (ctx : LeafContext) (owner : String) (metrics : List LeafMetric)
    (conditions : List Expr) (tree : Dict String) : Except Err Scoping := do
  let population ← populationFilterConditions ctx.env (leafPopulation ctx metrics) owner tree
  let guards ← metrics.mapM fun m =>
    enforceGuardrails ctx.env ctx.resolver ctx.query.context m.resolved
  return {
    conditions := conditions ++ population ++ ((guards.head?.map (·.conditions)).getD [])
    fired := firstById (·.id) [] (guards.flatMap (·.fired))
    warnings := firstById id [] (guards.flatMap (·.warnings)) }

/-! ## The additive builder -/

/-- `_enforce_safety_floor` for one metric. -/
def checkFloor (lib : Lib) (fanout : Bool) (grouped : List String) (m : ResolvedMetric) :
    Except Err Unit :=
  let label := s!"measure {m.source}.{pyRepr m.measure.name}"
  let unsafeDims := m.measure.semiAdditiveOver.filter (· ∉ grouped)
  if m.measure.additivity = .additive then
    if m.measure.isP0Compilable lib then .ok ()
    else .error (.unsupportedMeasure
      s!"{label} uses an aggregate function not supported at P0")
  else if fanout then .error (.fanoutUnsafe (s!"{label} is {m.measure.additivity.value} and a " ++
    "one_to_many/many_to_many join in this query would multiply its rows and corrupt the " ++
    "aggregate; request it without the fanning dimension or source, or query it at its " ++
    "native grain"))
  else if m.measure.additivity = .semiAdditive ∧ unsafeDims ≠ [] then
    .error (.unsupportedMeasure (s!"{label} is semi-additive over {pyReprList unsafeDims} and " ++
      "cannot be collapsed across those dimensions without the semi_additive strategy; group by " ++
      s!"{pyReprList unsafeDims} for a correct result"))
  else .ok ()

/-- `_enforce_safety_floor`: refuse aggregations that a join would corrupt. -/
def enforceSafetyFloor (lib : Lib) (metrics : List ResolvedMetric) (fanout : Bool)
    (grouped : List String) : Except Err Unit :=
  metrics.forM (checkFloor lib fanout grouped)

/-- The emission of additive measures: deduplicated first when a join fans out. -/
def emitAdditive (i : LeafInputs) (metrics : List ResolvedMetric)
    (dims : List (String × Dimension)) (aliases : List String) : Except Err Query :=
  if i.fanout then
    buildDeduped i.ctx.env i.shifted i.owner metrics dims i.conditions i.edges aliases i.mask
  else buildSimple i.ctx.env i.shifted i.owner metrics dims i.conditions i.edges aliases i.mask

/-- `_build_additive`: the default builder. -/
def buildAdditive : LeafBuilder := fun i metrics => do
  let resolved := metrics.map (·.resolved)
  enforceSafetyFloor i.ctx.env.lib resolved i.fanout (i.dimensions.map (·.2.name))
  let q ← emitAdditive i resolved i.dimensions (metrics.map (·.outputAlias))
  return (q, [])

/-! ## Planning -/

/-- What a strategy asks of `plan_leaf`, next to the owner and its metrics. -/
structure LeafOptions where
  finalityMetric : Option String := none
  strategy : String := "single"
  strategyParams : List (String × String) := []
  builder : Option LeafBuilder := none
  fusable : Bool := true

/-- The names a leaf binds: its dimensions, the conditions of the query's filters and of the
offsets' prefilters, and the aliases all of them use. -/
structure BoundNames where
  dimensions : List (String × Dimension)
  conditions : List Expr
  referenced : List String

/-- Stage 2: dimensions and filters, relative to the leaf's owner. -/
def bindNames (ctx : LeafContext) (owner : String) (tree : Dict String) :
    Except Err BoundNames := do
  let shifted ← resolveShifts ctx.env ctx.shifts owner tree
  let dimensions ← resolveDimensions ctx.env ctx.query.dimensions owner tree
  let filters ← bindFilters ctx.env shifted ctx.query.filters owner tree ctx.policy
  let prefilters ← bindFilters ctx.env [] (ctx.shifts.flatMap (·.prefilters)) owner tree ctx.policy
  return ⟨dimensions, filters.1 ++ prefilters.1,
    dimensions.map (·.1) ++ filters.2 ++ prefilters.2⟩

/-- Stage 3: the joins from the owner to every alias the leaf references. -/
def leafEdges (ctx : LeafContext) (owner : String) (referenced : List String) :
    Except Err (List JoinEdge) :=
  planJoins ctx.env.lib ctx.env.sources owner (referenced.filter (· ≠ owner))
    (if ctx.query.via.isEmpty then none else some ctx.query.via)

/-- Stages 2 to 6 of a leaf: everything that is decided before its query is emitted. -/
structure LeafScope where
  inputs : LeafInputs
  tenancy : TenantScoping
  scoping : Scoping

/-- `plan_leaf`, stages 2 to 6. -/
def scopeLeaf (ctx : LeafContext) (owner : String) (metrics : List LeafMetric) :
    Except Err LeafScope := do
  let tree := buildAliasTree ctx.env.sources owner
  let bound ← namingTheLeaf metrics owner (bindNames ctx owner tree)
  let guarded ← guardrailJoinSources ctx.env ctx.resolver ctx.query.context tree
    (metrics.map (·.resolved))
  let edges ← namingTheLeaf metrics owner (leafEdges ctx owner (bound.referenced ++ guarded))
  let tenancy ← tenantConditions ctx.resolver owner edges tree ctx.principal.tenants ctx.policy
    ctx.env.sources
  let scoping ← applyMetricScoping ctx owner metrics (tenancy.conditions ++ bound.conditions) tree
  return {
    inputs := {
      ctx := ctx, owner := owner, dimensions := bound.dimensions,
      conditions := scoping.conditions, edges := edges, fanout := fansOut edges, tree := tree,
      mask := resolveDimMask tree ctx.policy.masking }
    tenancy := tenancy
    scoping := scoping }

/-- Stage 5: the finality rule that governs a leaf and the time dimension it is gated on. -/
def activeFinality (ctx : LeafContext) (i : LeafInputs) (o : LeafOptions) :
    Option (FinalityRule × String) := do
  let metric ← o.finalityMetric.filter (· ≠ "")
  let rule ← ctx.resolver.finalityFor metric
  let timeDim ← findTimeDimName ctx.env.sources i.tree i.dimensions
  return (rule, timeDim)

/-- How the leaf is emitted. A strategy's own builder takes precedence over finality. -/
def leafEmit (ctx : LeafContext) (i : LeafInputs) (o : LeafOptions) : Except Err Emit :=
  match o.builder, activeFinality ctx i o with
  | some b, _ => .ok (.build b)
  | none, none => .ok (.build buildAdditive)
  | none, some (rule, timeDim) =>
      let final := rule.final
      match ctx.env.lib.evaluateWatermark ((final.bind (·.watermark)).getD "")
          ((final.bind (·.tz)).getD "") ctx.query.asOf with
      | .error e => .error (.internal e)
      | .ok w => .ok (.finality ⟨rule, i.dimensions, i.conditions, w, timeDim, i.owner,
          ctx.policy.masking, ctx.shifts⟩)

/-- The finality metadata of an emission. -/
def Emit.metadata : Emit → Option FinalityMetadata
  | .build _ => none
  | .finality f => some ⟨f.watermark.iso, f.rule.realizations.map (·.source),
      match f.rule.resultFlag with
      | some r => if r = "" then "per_row" else r
      | none => "per_row"⟩

/-- The finality part of a key: the watermark, the sources *in alphabetical order*, the flag. -/
def FinalityMetadata.key (f : FinalityMetadata) : List String :=
  f.watermark :: f.sourcesUsed.insertionSort (· ≤ ·) ++ [f.resultFlag]

/-- The strategy parameters of a key, with the offsets of the leaf. -/
def strategyParams (ctx : LeafContext) (o : LeafOptions) : List (String × String) :=
  if ctx.shifts.isEmpty then o.strategyParams
  else o.strategyParams ++ [("time_shift", "\x00".intercalate
    (ctx.shifts.map fun s => s!"{s.timeDimension}+{s.offset.text}"))]

/-- The key of a plan. -/
def leafKey (i : LeafInputs) (o : LeafOptions) (metrics : List LeafMetric) (emit : Emit) :
    Except Err LeafKey := do
  let env := i.ctx.env
  let shifted ← resolveShifts env i.ctx.shifts i.owner i.tree
  let exprs ← i.dimensions.mapM fun p =>
    dimensionExpr env shifted p.1 p.2 (dimMaskStrategy env.lib i.mask p.1 p.2)
  let measures ← metrics.mapM fun m => do
    let e ← measureExpr env m.resolved.source m.resolved.measure
    return (m.resolved.measure.name, env.lib.keySql e, m.outputAlias)
  return {
    source := i.owner
    strategy := o.strategy
    dimensions := i.dimNames
    dimensionExprs := exprs.map env.lib.keySql
    filters := filterKey env.lib i.conditions
    joinPath := i.edges.map fun e => (e.fromAlias, e.alias_, e.onSql)
    finality := (emit.metadata.map (·.key)).getD []
    strategyParams := strategyParams i.ctx o
    measures := measures }

/-- The requested dimensions whose period is known. -/
def timeDimensionsOf (i : LeafInputs) : List TimeDimension :=
  (i.dimNames.zip i.dimensions).filterMap fun p =>
    p.2.2.periodGrain.map fun g => ⟨p.1, g, p.2.2.timeFormat⟩

/-- The sources a leaf reads. -/
def leafSources (i : LeafInputs) : Emit → List String
  | .build _ => i.owner :: i.edges.map (·.join.to_)
  | .finality f => f.rule.realizations.map (·.source)

/-- `plan_leaf`: stages 2 to 6, the query, and the identity of the leaf. -/
def planLeaf (ctx : LeafContext) (owner : String) (metrics : List LeafMetric)
    (o : LeafOptions) : Except Err LeafPlan := do
  let scope ← scopeLeaf ctx owner metrics
  let emit ← leafEmit ctx scope.inputs o
  let built ← buildLeaf scope.inputs emit metrics ""
  let key ← leafKey scope.inputs o metrics emit
  return {
    key := key
    inputs := scope.inputs
    emit := emit
    metrics := metrics
    select := built.1
    aux := built.2
    measureAliases := metrics.map (·.outputAlias)
    usedSources := leafSources scope.inputs emit
    fired := scope.scoping.fired
    warnings := scope.tenancy.warnings ++ scope.scoping.warnings
    finality := emit.metadata
    scopedSources := scope.tenancy.scopedSources
    sharedSources := scope.tenancy.sharedSources
    fusable := o.fusable
    timeDimensions := timeDimensionsOf scope.inputs }

/-- The arguments of one call of `plan_leaf`. -/
structure LeafCall where
  ctx : LeafContext
  owner : String
  metrics : List LeafMetric
  options : LeafOptions := {}

/-- The call made. -/
def LeafCall.plan (c : LeafCall) : Except Err LeafPlan :=
  planLeaf c.ctx c.owner c.metrics c.options

end Canonic
