import Canonic.Compiler.Strategies.Cumulative

set_option autoImplicit false

/-! # Conversions

`strategies/conversion.py`: conversion events attributed to the latest earlier base event of the
same entity. The conversions are one leaf rooted at the base metric's source; the conversion
source's rows are planned as a leaf without the query's dimensions and filters, and inlined in it
as a common table expression. -/

namespace Canonic

open Sql (Expr Query FromItem Projection)

/-- One side of the match: its metric, and the columns it is matched on. -/
structure Side where
  resolved : ResolvedMetric
  populationFilter : Option String
  entity : Column
  time : Column
  properties : List Column

/-- A column of one side's source. -/
def sideColumn (metric field : String) (source : SemanticSource) (name : String) :
    Except Err Column :=
  match source.ownColumn name with
  | some c => .ok c
  | none => .error (.unresolved (s!"conversion metric {pyRepr metric}: {field} {pyRepr name} is " ++
      s!"not a column, or a dimension backed by one column, of source {pyRepr source.name}"))

/-- The metric of one side: a measure, or a column that is counted. -/
def sideMetric (metric side : String) (b : Binding) (ss : Sources) :
    Except Err (SemanticSource × ResolvedMetric) :=
  match b.binding.canonical.of, b with
  | .single source _, .leaf _ =>
      match ss.get source with
      | none => .error (.unresolved
          s!"metric {pyRepr b.metric} binds to unknown source {pyRepr source}")
      | some s => do
          let resolved ← bindMetric b.metric b ss
          return (s, resolved)
  | .distinctCount source column _, .leaf _ =>
      match ss.get source with
      | none => .error (.unresolved
          s!"metric {pyRepr b.metric} binds to unknown source {pyRepr source}")
      | some s => .ok (s, ⟨b.metric, source, syntheticMeasure column⟩)
  | of, _ => .error (.unsupportedMeasure (s!"conversion metric {pyRepr metric}: {side} metric " ++
      s!"{pyRepr b.metric} has kind {of.kind.value}; a conversion reads metrics of kind single " ++
      "or distinct_count"))

/-- `_side`. -/
def planSide (metric side : String) (b : Binding) (entity time : String)
    (properties : List String) (ss : Sources) : Except Err Side := do
  let bound ← sideMetric metric side b ss
  let entity ← sideColumn metric s!"{side} entity" bound.1 entity
  let time ← sideColumn metric s!"{side}_time" bound.1 time
  let properties ← properties.mapM (sideColumn metric s!"{side} constant property" bound.1)
  return ⟨bound.2, b.population, entity, time, properties⟩

/-- The builder of the conversion events: the source's rows under its own scoping. -/
def conversionEventsBuilder (metric owner : String) : LeafBuilder := fun i _ =>
  if i.fanout then
    .error (.fanoutUnsafe (s!"conversion metric {pyRepr metric}: the scoping of " ++
    s!"source {pyRepr owner} needs a one_to_many/many_to_many join, which would repeat its " ++
    "conversion events"))
  else do
    let from_ ← fromAndJoins i.ctx.env owner i.edges
    return (.select .none [⟨Expr.col "*" owner, "*"⟩] from_ i.conditions [], [])

/-- `_plan_conversion_events`: planned without the query's dimensions and filters. -/
def conversionEventsCall (ctx : LeafContext) (metric : String) (converted : Side) : LeafCall where
  ctx := { ctx with
    query := { ctx.query with dimensions := [], filters := [], timeRange := none } }
  owner := converted.resolved.source
  metrics := [⟨converted.resolved, converted.populationFilter, none⟩]
  options := {
    strategy := "conversion_events"
    builder := some (conversionEventsBuilder metric converted.resolved.source)
    fusable := false }

/-- `_conversion_measure`: the conversion metric over the conversion source's columns. -/
def conversionMeasure (env : Env) (metric : String) (b : Binding) (converted : Side) :
    Except Err Expr :=
  let owner := converted.resolved.source
  if b.kind = .single then measureExpr env owner converted.resolved.measure
  else do
    let source ← env.sources.getKey owner
    match source.ownColumn converted.resolved.measure.name with
    | some c => return .node (.agg .count) [.node .distinct [Expr.col c.name owner]]
    | none => .error (.unresolved (s!"conversion metric {pyRepr metric}: conversion metric " ++
        s!"{pyRepr b.metric} counts {pyRepr converted.resolved.measure.name}, which is not a " ++
        s!"column of source {pyRepr owner}"))

/-- What the conversions of a metric are built from. -/
structure Conversions where
  params : ConversionParams
  base : Side
  converted : Side
  events : Query
  measure : Expr

/-- The columns base events are matched on, under the names they are projected as. -/
def matchedColumns (base : Side) : List (String × Column) :=
  ("_entity", base.entity) :: ("_event_time", base.time) ::
    base.properties.mapIdx fun k c => (s!"_property_{k}", c)

/-- The base events, with the requested dimensions and the columns they are matched on. -/
def baseEvents (i : LeafInputs) (c : Conversions) : Except Err Query := do
  let dimPs ← dimProjections i.ctx.env i.shifted i.mask i.dimensions
  let from_ ← fromAndJoins i.ctx.env i.owner i.edges
  let ps := dimPs ++ (matchedColumns c.base).map fun p => ⟨Expr.col p.2.name i.owner, p.1⟩
  return .select .none ps from_ i.conditions (ps.map (·.expr))

/-- When a conversion event counts for a base event. -/
def matchConditions (d : Dialect) (c : Conversions) : List Expr :=
  let base (name : String) := Expr.col name "_base_event"
  let target (k : Column) := Expr.col k.name c.converted.resolved.source
  [.mkEq (base "_entity") (target c.converted.entity),
    .node .lte [base "_event_time", target c.converted.time]] ++
  (c.params.window.map fun w => .node .lte [target c.converted.time,
    d.dateAdd (base "_event_time") w.count w.unit (c.base.time.type = .date)]).toList ++
  c.converted.properties.mapIdx fun k p => .mkEq (base s!"_property_{k}") (target p)

/-- Every match, ranked so that the latest base event comes first. -/
def attributedSelect (i : LeafInputs) (c : Conversions) (events base : String)
    (keys : List Expr) : Query :=
  let target := c.converted.resolved.source
  let order := .node (.ordered true) [Expr.col "_event_time" "_base_event"] ::
    i.dimNames.map fun n => .node (.ordered false) [Expr.col n "_base_event"]
  .select .none
    (keys.mapIdx (fun k e => ⟨e, s!"_conversion_key_{k}"⟩) ++ readDims "_base_event" i.dimNames ++
      [⟨windowExpr (.call "ROW_NUMBER" []) keys order "", "_attribution"⟩])
    [⟨.from, .cte events, target, []⟩,
      ⟨.inner, .cte base, "_base_event", matchConditions i.ctx.env.adapter c⟩] [] []

/-- `_build_conversions`: the conversion metric over the first-ranked matches. -/
def buildConversions (metric : String) (c : Conversions) : LeafBuilder := fun i metrics =>
  if i.fanout then
    .error (.fanoutUnsafe (s!"conversion metric {pyRepr metric} cannot be grouped " ++
    "or filtered through a one_to_many/many_to_many join: a base event repeated under several " ++
    "dimension values would count its conversions under one of them at random"))
  else do
    let base := rollingName i "base"
    let events := rollingName i "conversions"
    let attributed := rollingName i "attributed"
    let target := c.converted.resolved.source
    let baseQ ← baseEvents i c
    let source ← i.ctx.env.sources.getKey target
    let keys := source.grain.map fun g => Expr.col g target
    let name := ((metrics.head?.bind (·.alias_)).filter (· ≠ "")).getD metric
    let dimPs := readDims "_attributed" i.dimNames
    let select : Query := .select .none (dimPs ++ [⟨c.measure, name⟩])
      [⟨.from, .cte events, target, []⟩,
        ⟨.inner, .cte attributed, "_attributed",
          keys.mapIdx fun k e => .mkEq (Expr.col s!"_conversion_key_{k}" "_attributed") e⟩]
      [.mkEq (Expr.col "_attribution" "_attributed") (.number "1")] (dimPs.map (·.expr))
    return (select, [⟨base, baseQ⟩, ⟨events, c.events⟩,
      ⟨attributed, attributedSelect i c events base keys⟩])

/-- The metadata of a leaf with that of the events inlined in it. -/
def LeafPlan.absorb (leaf events : LeafPlan) : LeafPlan :=
  { leaf with
    fired := leaf.fired ++ events.fired.filter fun g => g.id ∉ leaf.fired.map (·.id)
    warnings := leaf.warnings ++ events.warnings.filter (· ∉ leaf.warnings)
    usedSources := leaf.usedSources ++ events.usedSources
    scopedSources := leaf.scopedSources ++ events.scopedSources
    sharedSources := leaf.sharedSources ++ events.sharedSources }

/-- The identity of a conversions leaf. -/
def conversionParams (lib : Lib) (c : Conversions) : List (String × String) :=
  [("events", lib.keySqlQuery c.events), ("measure", lib.keySql c.measure),
    ("entity", s!"{c.base.entity.name}={c.converted.entity.name}"),
    ("time", s!"{c.base.time.name}<={c.converted.time.name}"),
    ("window", (c.params.window.map (·.text)).getD ""),
    ("properties", "\x00".intercalate ((c.base.properties.zip c.converted.properties).map
      fun p => s!"{p.1.name}={p.2.name}"))]

/-- `_plan_conversions_leaf`, rooted at the base side. -/
def conversionsCall (ctx : LeafContext) (metric : String) (c : Conversions) : LeafCall where
  ctx := ctx
  owner := c.base.resolved.source
  metrics := [⟨c.base.resolved, c.base.populationFilter, some metric⟩]
  options := {
    strategy := "conversion"
    strategyParams := conversionParams ctx.env.lib c
    builder := some (buildConversions metric c)
    fusable := false }

/-- `_template`: the value from the conversions and the base metric. -/
def conversionTemplate (calculation : ConversionCalculation) (combine : Combine) : Expr :=
  let conversions := Expr.bare (operandPlaceholder 0)
  let base := Expr.bare (operandPlaceholder 1)
  match calculation with
  | .conversionRate => guardDivision (.node .coalesce [conversions, .number "0"]) base combine
  | .conversions => .node .coalesce
      [conversions, .node .case [.node .not [base.isNull], .number "0"]]

/-- Both sides of a conversion, the base first. -/
def planSides (name : String) (base converted : Binding) (p : ConversionParams) (ss : Sources) :
    Except Err (Side × Side) := do
  let baseSide ← planSide name "base" base p.entity.base p.baseTime
    (p.constantProperties.map (·.base)) ss
  let convSide ← planSide name "conversion" converted p.entity.conversion p.conversionTime
    (p.constantProperties.map (·.conversion)) ss
  return (baseSide, convSide)

/-- The leaf of the conversions, with the events of the conversion side inlined in it. -/
def planConversionLeaf (ctx : LeafContext) (name : String) (base converted : Binding)
    (p : ConversionParams) : Except Err LeafPlan := do
  let sides ← planSides name base converted p ctx.env.sources
  let events ← (conversionEventsCall ctx name sides.2).plan
  let measure ← conversionMeasure ctx.env name converted sides.2
  let leaf ← (conversionsCall ctx name ⟨p, sides.1, sides.2, events.select, measure⟩).plan
  return leaf.absorb events

/-- `conversion.plan_metric`, with the base metric planned as it is on its own. -/
def planConversion (ctx : LeafContext) (name : String) (b base converted : Binding)
    (p : ConversionParams) (planBase : Except Err MetricLeaves) : Except Err MetricLeaves :=
  if ctx.shifts ≠ [] then
    .error (.unsupportedMeasure
      s!"conversion metric {pyRepr name} cannot be read under an offset yet")
  else do
    let leaf ← planConversionLeaf ctx name base converted p
    let planned ← planBase
    let combine := b.binding.canonical.onZeroDenominator.combine
    -- a count of conversions divides by nothing
    let rate := p.calculation == .conversionRate
    let conversions := directPlan name
    let operand := planned.metric.shifted 1
    return {
      leaves := leaf :: planned.leaves
      metric := {
        name := name
        refs := conversions.refs ++ operand.refs
        combine := .derived
        operands := [conversions, operand]
        template := some (conversionTemplate p.calculation combine)
        division := if rate then some combine else none }
      resolved := b.resolvedKey.getD name
      warnings := planned.warnings ++
        if rate ∧ combine = .ratioNull then [zeroDenominatorWarning name] else [] }

/-! # Offsets

`strategies/offset.py`: another metric read shifted back along one time dimension. Its base is
planned by its own kind, with the time column moved forward in dimensions and query filters. -/

/-- The columns the offset's time dimension reads, seen from the base's first source. -/
def shiftedColumns (env : Env) (timeDimension owner : String) (tree : Dict String) :
    Except Err (List (String × String)) := do
  match ← findDimension env.sources timeDimension owner (some tree) with
  | none => return []
  | some p => return (p.2.backingColumns env.lib).map fun c => (p.1, c)

/-- `_what_moves`: whether a query filter or a requested dimension reads the shifted column. -/
def whatMoves (ctx : LeafContext) (timeDimension owner : String) : Except Err Bool := do
  let tree := buildAliasTree ctx.env.sources owner
  let shifted ← shiftedColumns ctx.env timeDimension owner tree
  let bound ← ctx.query.filters.mapM (bindFilter ctx.env [] owner tree ctx.policy)
  let dims ← resolveDimensions ctx.env ctx.query.dimensions owner tree
  return bound.any (fun e => (readColumns e.1).any (· ∈ shifted)) || dims.any fun p =>
    (p.2.backingColumns ctx.env.lib).any fun c => (p.1, c) ∈ shifted

/-- A bound of the range moved back by the offset, and by the margin of three days. -/
def movedBound (offset : Duration) (margin : Int) : Option Date → Except Err (Option Date)
  | none => .ok none
  | some d => do
      let moved ← addToDate d offset (-1)
      let day ← moved.addDays margin
      return some day

/-- `_prefilters`: a time range on the shifted column, as bounds on the stored column. -/
def prefilters (ctx : LeafContext) (timeDimension : String) (offset : Duration) (owner : String) :
    Except Err (List String) :=
  match ctx.query.timeRange with
  | none => .ok []
  | some r => do
      let tree := buildAliasTree ctx.env.sources owner
      let on ← shiftedColumns ctx.env r.dimension owner tree
      let shifted ← shiftedColumns ctx.env timeDimension owner tree
      if on.all (· ∉ shifted) then return []
      else
        let start ← movedBound offset (-3) r.days.1
        let stop ← movedBound offset 3 r.days.2
        return boundTexts r.dimension start stop

/-- The context the base of an offset is planned in. -/
def LeafContext.under (ctx : LeafContext) (shift : Option TimeShift)
    (population : Option String) : LeafContext :=
  { ctx with
    shifts := ctx.shifts ++ shift.toList
    populations := ctx.populations ++ population.toList }

/-- The offset a metric adds to the ones it is planned under. -/
def planShift (ctx : LeafContext) (base : Binding) (timeDimension : String) (offset : Duration) :
    Except Err (TimeShift × Bool) :=
  match base.leaves.findSome? Binding.source with
  | none => .error (.internal "StopIteration")
  | some owner => do
      let moves ← whatMoves ctx timeDimension owner
      let pre ← prefilters ctx timeDimension offset owner
      return (⟨timeDimension, offset, pre⟩, moves)

/-- `offset.plan_metric`, from the plan of its base under the offset. -/
def presentOffset (name : String) (b : Binding) (timeDimension : String) (moves : Bool)
    (planned : MetricLeaves) : MetricLeaves :=
  { leaves := planned.leaves
    metric := { planned.metric with name := name }
    resolved := b.resolvedKey.getD name
    warnings := planned.warnings ++ if moves then [] else
      [s!"offset metric {pyRepr name} has no effect here: the query neither groups nor filters " ++
        s!"by {pyRepr timeDimension}, so the total over all rows is the base metric's"] }

/-! # Derived metrics

`strategies/derived.py`: arithmetic over other metrics, applied after each is aggregated. -/

mutual
/-- `_guarded`: every division under the zero-denominator policy. -/
def guarded (combine : Combine) : Expr → Expr
  | .column c => .column c
  | .literal s t => .literal s t
  | .table d n => .table d n
  | .node .div [a, b] => guardDivision (guarded combine a) (guarded combine b) combine
  | .node op args => .node op (guardedList combine args)

def guardedList (combine : Combine) : List Expr → List Expr
  | [] => []
  | e :: es => guarded combine e :: guardedList combine es
end

/-- `_template`: input `i` written as its placeholder, every division guarded. -/
def derivedTemplate (lib : Lib) (expr : String) (names : List String) (combine : Combine) :
    Except Err Expr :=
  match lib.parseOne (some .postgres) expr with
  | none => .error (.parseError expr)
  | some parsed =>
      .ok (guarded combine (parsed.mapColumns fun c =>
        -- a repeated name stands for its last input
        match ((List.range names.length).filter fun i => names[i]? == some c.name).getLast? with
        | some i => if c.table = "" then Expr.bare (operandPlaceholder i) else .column c
        | none => .column c))

/-- Whether an expression divides. -/
def divides (e : Expr) : Bool := e.walk.any fun n => match n with
  | .node .div _ => true
  | _ => false

/-- The plans of the inputs, each with its references into the joined list of leaves. -/
def joinOperands : Nat → List MetricLeaves → List MetricPlan
  | _, [] => []
  | n, p :: ps => p.metric.shifted n :: joinOperands (n + p.leaves.length) ps

/-- `derived.plan_metric`, from the plans of its inputs. -/
def combineDerived (lib : Lib) (name : String) (b : Binding) (expr : String)
    (names : List String) (planned : List MetricLeaves) : Except Err MetricLeaves := do
  let combine := b.binding.canonical.onZeroDenominator.combine
  let operands := joinOperands 0 planned
  let template ← derivedTemplate lib expr names combine
  -- one warning for the whole metric stands for those of its inputs
  let inputWarnings := (MetricPlan.walkList operands).map fun p => zeroDenominatorWarning p.name
  let kept := (planned.flatMap (·.warnings)).filter (· ∉ inputWarnings)
  let nulls := (divides template && combine == .ratioNull) || operands.any nullsZeroDenominator
  return {
    leaves := planned.flatMap (·.leaves)
    metric := {
      name := name
      refs := operands.flatMap (·.refs)
      combine := .derived
      operands := operands
      template := some template
      division := if divides template then some combine else none }
    resolved := b.resolvedKey.getD name
    warnings := kept ++ if nulls then [zeroDenominatorWarning name] else [] }

end Canonic
