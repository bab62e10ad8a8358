import Canonic.Compiler.Strategies.Combined

set_option autoImplicit false

/-! # The compiler pipeline

`compiler/pipeline.py` and `compiler/period_probe.py`: bind the principal, resolve every requested
metric, check the policies and guardrails that may refuse the query, plan each metric into leaves
by its kind, and compose the leaves into one statement.

Rendering the statement is the SQL library's. Whether a trust floor is met is decided by the
trust scorer and is a parameter. -/

namespace Canonic

open Sql (Expr Statement)

/-! ## Stage 0: the principal -/

/-- The principal's tenants must be known when a tenancy policy is active. -/
def bindPrincipal (resolver : ContractResolver) (principal : Principal)
    (policy : EffectivePolicy) : Except Err (List String) :=
  match resolver.tenancy with
  | none => .ok []
  | some t =>
      if policy.tenancyExempt ∨ principal.tenants ≠ [] then .ok []
      else match t.onMissingPrincipal with
        | .allowUnscoped => .ok ["no tenant resolved for this request; serving unscoped under " ++
            "on_missing_principal: allow_unscoped"]
        | .deny => .error (.tenantUnresolved
            "tenancy policy is active but the request carries no resolvable tenant")

/-! ## Stage 1: metrics and dimensions -/

/-- How one requested metric name resolves; one the policy does not allow is unresolved. -/
def resolveRequested (resolver : ContractResolver) (policy : EffectivePolicy) (name : String) :
    Except ResolveFailure Binding :=
  if policy.metricAllowed name then resolver.resolveMetric name else .error (.unresolved name)

/-- The requested names that resolve, with their bindings. -/
def resolvedNames (resolver : ContractResolver) (policy : EffectivePolicy)
    (names : List String) : List (String × Binding) :=
  names.filterMap fun n => match resolveRequested resolver policy n with
    | .ok b => some (n, b)
    | .error _ => none

/-- The requested names that match no active binding. -/
def unresolvedNames (resolver : ContractResolver) (policy : EffectivePolicy)
    (names : List String) : List String :=
  names.filter fun n => match resolveRequested resolver policy n with
    | .error (.unresolved _) => true
    | _ => false

/-- The requested names that match several, with the metric names they match. -/
def ambiguousNames (resolver : ContractResolver) (policy : EffectivePolicy)
    (names : List String) : List (String × List String) :=
  names.filterMap fun n => match resolveRequested resolver policy n with
    | .error (.ambiguous _ cs) => some (n, cs.map (·.metric))
    | _ => none

/-- `_resolve_all_metrics`: every requested metric, or one error naming all that fail. -/
def resolveAllMetrics (resolver : ContractResolver) (policy : EffectivePolicy)
    (names : List String) : Except Err (List (String × Binding)) :=
  let unresolved := unresolvedNames resolver policy names
  let ambiguous := ambiguousNames resolver policy names
  let also := if ambiguous.isEmpty then ""
    else "; also ambiguous: " ++ reprNames (ambiguous.map (·.1))
  if unresolved ≠ [] then
    .error (.unresolved s!"metric {reprNames unresolved} matches no active binding{also}")
  else if ambiguous ≠ [] then
    .error (.ambiguous
      s!"metric {reprNames (ambiguous.map (·.1))} matches more than one active binding"
      (firstById id [] (ambiguous.flatMap (·.2))))
  else .ok (resolvedNames resolver policy names)

/-- `_enforce_dimension_policy`: refuse a query that groups by a forbidden name. -/
def enforceDimensionPolicy (policy : EffectivePolicy) (dimensions : List String) :
    Except Err Unit :=
  match dimensions.filter fun d => !policy.dimensionAllowed d with
  | [] => .ok ()
  | denied => .error (.unreachable
      s!"dimension {reprNames denied} is not declared on any reachable source" [])

/-! ## Guardrails of the whole query -/

/-- `_source_measure_pairs`. -/
def sourceMeasurePairs (b : Binding) : List (String × String) :=
  b.leaves.filterMap fun l => match l.source, l.measure with
    | some s, some m => some (s, m)
    | _, _ => none

mutual
/-- `_matched_alone`: an offset, derived or conversion metric is matched as its inputs are. -/
def matchedAlone : Binding → List Binding
  | .offset _ b _ _ => matchedAlone b
  | .derived _ _ _ inputs => matchedAloneList inputs
  | .conversion _ b c _ => matchedAlone b ++ matchedAlone c
  | .leaf b => [.leaf b]
  | .composite b n d => [.composite b n d]

def matchedAloneList : List Binding → List Binding
  | [] => []
  | b :: bs => matchedAlone b ++ matchedAloneList bs
end

/-- `_enforce_min_trust`. -/
def enforceMinTrust (resolver : ContractResolver) (context : Option String)
    (bindings : List (String × Binding)) (meets : String → Bool) : Except Err (List String) :=
  let failing := bindings.flatMap fun b => (sourceMeasurePairs b.2).flatMap fun p =>
    (resolver.minTrustFor p.1 p.2 context).filter fun g => match g.kind with
      | .minTrust level => !meets level
      | _ => false
  failing.mapM fun g => blockOrWarn g []

/-- The words of a text (`str.split`). -/
def pyWords : List Char → List Char → List String
  | [], word => if word.isEmpty then [] else [String.ofList word.reverse]
  | c :: cs, word =>
      if isPySpace c then
        if word.isEmpty then pyWords cs [] else String.ofList word.reverse :: pyWords cs []
      else pyWords cs (c :: word)

/-- `_query_references_dimension`. -/
def queryReferences (q : SemanticQuery) (entry : String) : Bool :=
  let bare := lastComponent entry
  entry ∈ q.dimensions || bare ∈ q.dimensions ||
    bare ∈ q.filters.flatMap fun f => pyWords f.toList []

/-- Whether the query refers to a dimension of an alias by its name or one of its aliases. -/
def referencesDimension (q : SemanticQuery) (source alias_ : String) (dim : Dimension) : Bool :=
  (dim.name :: dim.aliases).any fun cand =>
    queryReferences q (if alias_ = source then cand else alias_ ++ "." ++ cand)

/-- Whether the query groups by or filters on the dimension a guardrail requires. -/
def requiredSatisfied (ss : Sources) (q : SemanticQuery) (source : String) (g : Guardrail) :
    Except Err Bool := do
  match ← findDimension ss (g.dimension.getD "") source (some (buildAliasTree ss source)) with
  | none => return false
  | some (alias_, dim) => return referencesDimension q source alias_ dim

/-- `_enforce_required_dimension`. -/
def enforceRequiredDimension (resolver : ContractResolver) (ss : Sources) (q : SemanticQuery)
    (bindings : List (String × Binding)) : Except Err (List String) := do
  let matched := bindings.flatMap fun b => (matchedAlone b.2).flatMap fun m =>
    match m.source, m.measure with
    | some s, some k => (resolver.requiredDimensionFor s k q.context).map fun g => (s, g)
    | _, _ => []
  let satisfied ← matched.mapM fun p => requiredSatisfied ss q p.1 p.2
  let missing := ((matched.zip satisfied).filter fun p => !p.2).map (·.1.2)
  (firstById (·.id) [] missing).mapM fun g => blockOrWarn g [g.dimension.getD ""]

/-! ## Routing -/

mutual
/-- `_plan_metric`: one metric, by its kind. -/
def planMetric (ctx : LeafContext) (name : String) : Binding → Except Err MetricLeaves
  | .offset b base dim off => do
      let s ← planShift ctx base dim off
      let planned ← planMetric (ctx.under (some s.1) b.canonical.populationFilter) base.metric base
      return presentOffset name (.offset b base dim off) dim s.2 planned
  | .derived b expr names inputs => do
      let planned ← planInputs (ctx.under none b.canonical.populationFilter) inputs
      combineDerived ctx.env.lib name (.derived b expr names inputs) expr names planned
  | .conversion b base conv params =>
      planConversion ctx name (.conversion b base conv params) base conv params
        (planMetric ctx base.metric base)
  | .composite b num den => planComposite ctx (.composite b num den) num den
  | .leaf b =>
      match b.canonical.of with
      | .semiAdditive source measure dim agg =>
          planSemiAdditive ctx name (.leaf b) source measure dim agg
      | .distinctCount source column _ =>
          planRecomputeAtGrain ctx name (.leaf b) .distinctCount source column none
      | .percentile source column q _ =>
          planRecomputeAtGrain ctx name (.leaf b) (.percentile q) source column none
      | .cumulative _ _ frame =>
          if frame.needsDaySpine then planRolling ctx name (.leaf b) frame
          else planCumulative ctx name (.leaf b) frame
      | .opaque_ _ _ nativeGrain => planOpaque ctx name (.leaf b) nativeGrain
      | _ => planSimpleAdditive ctx name (.leaf b)

/-- The inputs of a derived metric, each planned under its own name. -/
def planInputs (ctx : LeafContext) : List Binding → Except Err (List MetricLeaves)
  | [] => .ok []
  | b :: bs => do
      let planned ← planMetric ctx b.metric b
      let rest ← planInputs ctx bs
      return planned :: rest
end

/-! ## Latest-period probes -/

/-- `^[A-Za-z_][A-Za-z0-9_]*$`; the end also matches before a final newline. -/
def isSimpleName (name : String) : Bool :=
  let cs := name.toList
  let cs := if cs.getLast? = some '\n' then cs.dropLast else cs
  match cs with
  | [] => false
  | c :: rest => (c.isAlpha || c == '_') && rest.all fun c => c.isAlphanum || c == '_'

/-- The first plain leaf, whose rows a probe repeats. -/
def probeAnchor (leaves : List LeafPlan) : Option LeafPlan :=
  leaves.find? fun l => l.key.strategy == "single" && l.finality.isNone &&
    !l.key.strategyParams.any fun p => p.1 == "time_shift"

/-- A lookup that treats an ambiguous name as no dimension. -/
def findUnambiguous (ss : Sources) (name owner : String) (tree : Dict String) :
    Option (String × Dimension) :=
  match findDimension ss name owner (some tree) with
  | .ok found => found
  | .error _ => none

/-- `_dimensions_of`: the dimensions a filter's column stands for. -/
def dimensionsOf (ss : Sources) (owner : String) (tree : Dict String) (c : Sql.Column) :
    List (String × Dimension) :=
  let declaredOn (alias_ source column : String) : List (String × Dimension) :=
    match ss.get source with
    | none => []
    | some s => (s.dimensions.filter fun d => d.column == some column).map fun d => (alias_, d)
  if c.table ≠ "" then
    match findUnambiguous ss (c.table ++ "." ++ c.name) owner tree with
    | some found => [found]
    | none => declaredOn c.table (tree.getD c.table "") c.name
  else
    match findDimension ss c.name owner (some tree) with
    | .error _ => []
    | .ok (some found) => [found]
    | .ok none =>
        match bindName ss c.name owner (some tree) with
        | .ok (some (alias_, column)) => declaredOn alias_ (tree.getD alias_ alias_) column
        | _ => []

/-- `_filtered_time_dimensions`: the dimensions with a known period that the filters read. -/
def filteredTimeDimensions (env : Env) (filters : List String) (owner : String)
    (tree : Dict String) : List (String × Dimension) :=
  let read := (filters.filterMap (env.lib.parseOne none)).flatMap fun e =>
    e.columns.flatMap (dimensionsOf env.sources owner tree)
  (read.filter fun p => p.2.periodGrain.isSome).foldl
    (fun acc p => if acc.any (fun q => q.1 == p.1 && q.2.name == p.2.name) then acc
      else acc ++ [p]) []

/-- `_grouped_columns`: the columns behind the grouped time dimensions. -/
def groupedColumns (ss : Sources) (dimensions grouped : List String) (owner : String)
    (tree : Dict String) : List (String × String) :=
  (dimensions.filter fun n => n ∈ grouped || lastComponent n ∈ grouped).filterMap fun n =>
    (findUnambiguous ss n owner tree).bind fun p =>
      if p.2.jsonPath.isNone then p.2.column.map fun c => (p.1, c) else none

/-- `_max_expression`: `MAX` over a dimension's value, as text. -/
def maxExpression (env : Env) (dim : Dimension) (alias_ : String) : Except Err (Option String) :=
  if dim.jsonPath.isSome ∨ ¬ isSimpleName alias_ then .ok none
  else match dim.expr, dim.column with
    | some e, _ => do
        let parsed ← env.parse e
        return some (env.lib.sql env.dialect (.node (.agg .max) [qualifyTo parsed alias_]))
    | none, some c => .ok (if isSimpleName c then some s!"MAX({alias_}.{c})" else none)
    | none, none => .ok none

/-- The name a probed dimension is reported under. -/
def probeSubject (owner : String) (p : String × Dimension) : String :=
  if p.1 = owner then p.2.name else p.1 ++ "." ++ p.2.name

/-- `latest_period_column`. -/
def latestPeriodColumn (subject : String) : String :=
  "_canonic_latest_period_" ++
    String.ofList (subject.toList.map fun c => if c = '.' then '_' else c)

/-- Whether a filtered dimension is left unprobed. -/
def skipProbe (anchor : LeafPlan) (grouped : List String)
    (columns : List (String × String)) (p : String × Dimension) : Bool :=
  let subject := probeSubject anchor.key.source p
  !p.2.sortsChronologically || subject ∈ grouped || p.2.name ∈ grouped ||
    ((p.2.column.map fun c => (p.1, c)).elim false (· ∈ columns)) ||
    (p.1 ≠ anchor.key.source && anchor.fanout)

/-- The measure of a probe, when the dimension can be probed. -/
def probeMeasure (env : Env) (anchor : LeafPlan) (grouped : List String)
    (columns : List (String × String)) (p : String × Dimension) :
    Except Err (Option Measure) := do
  let text ← maxExpression env p.2 p.1
  let name := latestPeriodColumn (probeSubject anchor.key.source p)
  return (text.map fun t => ({ name := name, expr := t } : Measure)).filter fun m =>
    !skipProbe anchor grouped columns p && m.isP0Compilable env.lib

/-- The leaf of a probe: the anchor's plan with the probe's measure. -/
def probeLeaf (env : Env) (anchor : LeafPlan) (m : Measure) : Except Err LeafPlan := do
  let e ← measureExpr env anchor.key.source m
  let population := anchor.metrics.head?.bind (·.populationFilter)
  return { anchor with
    metrics := [⟨⟨m.name, anchor.key.source, m⟩, population, some m.name⟩]
    measureAliases := [m.name]
    key := { anchor.key with measures := [(m.name, env.lib.keySql e, m.name)] }
    timeDimensions := [] }

/-- `latest_period_probes`: a leaf for each time dimension that is only filtered on. -/
def latestPeriodProbes (env : Env) (q : SemanticQuery) (leaves : List LeafPlan) :
    Except Err (List LeafPlan) :=
  match probeAnchor leaves with
  | none => .ok []
  | some anchor => do
      let owner := anchor.key.source
      let tree := buildAliasTree env.sources owner
      let grouped := leaves.flatMap fun l => l.timeDimensions.map (·.column)
      let columns := groupedColumns env.sources q.dimensions grouped owner tree
      let measures ← (filteredTimeDimensions env q.filters owner tree).mapM
        (probeMeasure env anchor grouped columns)
      (measures.filterMap id).mapM (probeLeaf env anchor)

/-- The plan of the `k`-th probe leaf. -/
def probePlan (first k : Nat) (l : LeafPlan) : MetricPlan :=
  { name := l.firstAlias, refs := [⟨first + k, l.firstAlias⟩] }

/-! ## Stage 5b: restricted sources -/

/-- The literal bounds a comparison puts on a time column: upper ones, then lower ones. -/
def comparisonBounds (lib : Lib) (timeNames : List String) : Expr → List Int × List Int
  | .node op [a, b] =>
      let sides := match a, b with
        | .column c, .literal _ t => some (c.name, t)
        | .literal _ t, .column c => some (c.name, t)
        | _, _ => none
      match sides.bind fun p => if p.1 ∈ timeNames then lib.parseDatetime p.2 else none with
      | none => ([], [])
      | some i => match op with
        | .lte | .lt => ([i], [])
        | .gte | .gt => ([], [i])
        | .eq => ([i], [i])
        | _ => ([], [])
  | .node .between [.column c, low, high] =>
      let bound (e : Expr) : List Int := match e with
        | .literal _ t => (lib.parseDatetime t).toList
        | _ => []
      if c.name ∈ timeNames then (bound high, bound low) else ([], [])
  | _ => ([], [])

/-- `_window_exceeds_watermark`: the smallest upper bound, else the largest lower one. -/
def windowExceedsWatermark (env : Env) (filters timeNames : List String) (watermark : Int) :
    Bool :=
  let nodes := filters.flatMap fun f => match env.parse f with
    | .ok e => e.walk
    | .error _ => []
  let bounds := nodes.map (comparisonBounds env.lib timeNames)
  -- a window without an upper bound is judged by where it starts
  match bounds.flatMap (·.1), bounds.flatMap (·.2) with
  | u :: us, _ => decide (watermark < us.foldl min u)
  | [], l :: ls => decide (watermark < ls.foldl max l)
  | [], [] => false

/-- `_time_column_names`. -/
def timeColumnNames (env : Env) (rule : FinalityRule) : List String :=
  rule.realizations.flatMap fun r => match env.sources.get r.source with
    | none => []
    | some s => (s.dimensions.filter fun d =>
        ((d.valueType s.columns).map (·.isTime)).getD false).flatMap fun d =>
          d.name :: d.backingColumns env.lib

/-- Whether a query asks for rows past the watermark of a metric restricted to final data. -/
def violatesRestriction (env : Env) (resolver : ContractResolver) (q : SemanticQuery)
    (p : ResolvedMetric × Guardrail) : Except Err Bool :=
  match resolver.finalityFor p.1.name with
  | none => .ok false
  | some rule =>
      match rule.final.bind (·.watermark.filter (· ≠ "")),
          rule.final.bind (·.tz.filter (· ≠ "")) with
      | some w, some tz =>
          match env.lib.evaluateWatermark w tz q.asOf with
          | .error e => .error (.internal e)
          | .ok wm => .ok (windowExceedsWatermark env q.filters (timeColumnNames env rule)
              wm.instant)
      | _, _ => .ok false

/-- `_enforce_restrict_source`. -/
def enforceRestrictSource (env : Env) (resolver : ContractResolver) (q : SemanticQuery)
    (metrics : List ResolvedMetric) : Except Err (List String) := do
  let context := q.context.filter (· ≠ "")
  let restricted := metrics.flatMap fun m =>
    ((resolver.restrictSourceFor m.source m.measure.name context).filter fun g =>
      g.kind == .restrictSource "final").map fun g => (m, g)
  let violated ← restricted.mapM (violatesRestriction env resolver q)
  let fired := ((restricted.zip violated).filter fun p => p.2).map (·.1.2)
  (firstById (·.id) [] fired).mapM fun g => blockOrWarn g []

/-- The metrics that resolve to one source and measure, each under the name it is matched by. -/
def singleKind (ss : Sources) (bindings : List (String × Binding)) :
    Except Err (List ResolvedMetric) := do
  let matched := bindings.flatMap fun p => (matchedAlone p.2).filterMap fun m =>
    if m.kind = .single ∨ m.kind = .cumulative then
      match p.2 with
      | .leaf _ => some (p.1, m)
      | _ => some (m.metric, m)
    else none
  matched.mapM fun p => bindMetric p.1 p.2 ss

/-! ## Compile -/

/-- The inputs of a compilation next to the query: the project, the caller and the connections. -/
structure Project where
  lib : Lib
  resolver : ContractResolver
  sources : Sources
  connectionDialects : List (String × String) := []
  /-- Whether the trust of the requested bindings meets a floor. -/
  trust : List (String × Binding) → String → Bool := fun _ _ => true

/-- `_dialect_for_bindings`: the dialect of the first binding with a known connection. -/
def dialectForBindings (p : Project) (bindings : List (String × Binding)) : String :=
  if p.connectionDialects.isEmpty then "postgres"
  else
    let connection := bindings.findSome? fun b =>
      (b.2.leaves.findSome? fun l => l.source.filter (· ≠ "")).bind fun s =>
        (p.sources.get s).bind fun src => if src.connection = "" then none else some src.connection
    match connection with
    | some c => (p.connectionDialects.lookup c).getD "postgres"
    | none => "postgres"

/-- What a query is planned into. -/
structure Plan where
  ctx : LeafContext
  bindings : List (String × Binding)
  planned : List MetricLeaves
  probes : List LeafPlan
  warnings : List String

namespace Plan

/-- The leaves of the requested metrics, in planning order. -/
def metricLeaves (p : Plan) : List LeafPlan := p.planned.flatMap (·.leaves)

/-- Every leaf that is composed. -/
def leaves (p : Plan) : List LeafPlan := p.metricLeaves ++ p.probes

/-- The plans of the requested metrics and of the probes. -/
def metrics (p : Plan) : List MetricPlan :=
  joinOperands 0 p.planned ++ p.probes.mapIdx (probePlan p.metricLeaves.length)

end Plan

/-- The checks of a resolved query that may refuse it before anything is planned. -/
def admitQuery (p : Project) (q : SemanticQuery) (bindings : List (String × Binding)) :
    Except Err (List String) := do
  let trust ← enforceMinTrust p.resolver q.context bindings (p.trust bindings)
  let required ← enforceRequiredDimension p.resolver p.sources q bindings
  return trust ++ required

/-- Stage 1: the bindings of a query, when the principal may ask it. -/
def resolveQuery (p : Project) (q : SemanticQuery) (policy : EffectivePolicy) :
    Except Err (List (String × Binding)) :=
  if q.metrics.isEmpty then .error (.unresolved "query requests at least one metric")
  else do
    let bindings ← resolveAllMetrics p.resolver policy q.metrics
    enforceDimensionPolicy policy q.dimensions
    return bindings

/-- Stages 0 to 6: the plan of a query. -/
def planQuery (p : Project) (q : SemanticQuery) (principal : Principal) : Except Err Plan := do
  let query ← applyTimeRange p.lib q p.sources
  let policy := p.resolver.authzFor principal
  let stage0 ← bindPrincipal p.resolver principal policy
  let bindings ← resolveQuery p query policy
  let admitted ← admitQuery p query bindings
  let env : Env := ⟨p.lib, dialectForBindings p bindings, p.sources⟩
  let ctx : LeafContext := {
    env := env, query := query, resolver := p.resolver, principal := principal, policy := policy }
  let planned ← bindings.mapM fun b => planMetric ctx b.1 b.2
  let probes ← latestPeriodProbes env query (planned.flatMap (·.leaves))
  let single ← singleKind p.sources bindings
  let restricted ← enforceRestrictSource env p.resolver query single
  return ⟨ctx, bindings, planned, probes, stage0 ++ admitted ++ restricted⟩

/-- The compiled statement with its metadata. -/
structure CompileResult where
  statement : Statement
  limit : Option Nat
  dialect : Dialect
  resolved : List (String × String)
  guardrailsFired : List FiredGuardrail
  freshness : List SourceFreshness
  warnings : List String
  finality : Option FinalityMetadata
  scopedSources : List String
  sharedSources : List String

/-- Stages 6b to 8: the plan composed into a statement. -/
def emitPlan (plan : Plan) (dedup : Bool) : Except Err CompileResult := do
  let composed ← compose plan.ctx.env plan.leaves plan.metrics dedup
  let dialect ← plan.ctx.env.adapterFor
  return {
    statement := composed.statement
    limit := plan.ctx.query.limit
    dialect := dialect
    resolved := (plan.bindings.map (·.1)).zip (plan.planned.map (·.resolved))
    guardrailsFired := composed.guardrailsFired
    freshness := composed.freshness
    warnings := plan.warnings ++ composed.warnings ++ plan.planned.flatMap (·.warnings)
    finality := composed.finality
    scopedSources := composed.scopedSources
    sharedSources := composed.sharedSources }

/-- `compile`: a semantic query as a statement, or why it is refused. -/
def compile (p : Project) (q : SemanticQuery) (principal : Principal) (dedup : Bool := true) :
    Except Err CompileResult := do
  let plan ← planQuery p q principal
  emitPlan plan dedup

end Canonic
