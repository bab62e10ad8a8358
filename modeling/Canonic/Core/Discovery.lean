import Canonic.Compiler.Calls
import Canonic.Compiler.JoinCandidates

set_option autoImplicit false

/-! # Discovery

`core/discovery.py` and the suggestions of `compiler/pipeline.py`: the dimensions a caller is told
of before it queries. `describeMetric` lists the dimensions of a metric, `related` suggests those a
query could still be grouped by.

Both read the join graph with `reachableDimensionNames`, and neither asks the planner. The planner
looks a name up by its own rules (an alias of a dimension answers to it too, a dot in a name is a
role), and refuses an alias that several paths lead to. The second half of the file says exactly
when a name that is offered is taken. -/

namespace Canonic

/-! ## Describing a metric -/

/-- One dimension of a description: the name to request, and the join alias that carries it. -/
structure DimensionInfo where
  name : String
  source : String
  label : Option String
  deriving DecidableEq, Repr

/-- The label of a dimension of a source, by the last part of the name it is listed under. -/
def dimensionLabel (ss : Sources) (source entry : String) : Option String :=
  ((ss.get source).bind fun s => s.dimensions.find? fun d => d.name == lastComponent entry).bind
    (·.label)

/-- `_reachable_dimensions`: the dimensions reachable from a source that the policy allows. -/
def reachableDimensions (ss : Sources) (policy : EffectivePolicy) (sourceName : String) :
    List DimensionInfo :=
  let tree := buildAliasTree ss sourceName
  ((reachableDimensionNames ss sourceName).filter fun p => policy.dimensionAllowed p.1).map fun p =>
    ⟨p.1, p.2, dimensionLabel ss (tree.getD p.2 p.2) p.1⟩

/-- `resolve_or_raise`: a name outside the policy is refused as an unknown one is. -/
def resolveOrRaise (resolver : ContractResolver) (principal : Principal) (name : String) :
    Except Err Binding :=
  match resolveRequested resolver (resolver.authzFor principal) name with
  | .ok b => .ok b
  | .error (.unresolved _) =>
    .error (.unresolved s!"metric {pyRepr name} matches no active binding")
  | .error (.ambiguous _ cs) =>
      .error (.ambiguous s!"metric {pyRepr name} is ambiguous" (cs.map (·.metric)))

/-- The kinds that are described by their source (`is_describable`). -/
def BindingKind.isDescribable : BindingKind → Bool
  | single | semiAdditive | distinctCount | percentile | cumulative => true
  | _ => false

/-- What a caller is told of a metric. The blocks that restate the metric's definition, its
freshness, examples and knowledge pages do not depend on its dimensions and are left out. -/
structure MetricDetail where
  metric : String
  kind : BindingKind
  source : Option String
  measure : Option String
  populationFilter : Option String
  grain : List String
  dimensions : List DimensionInfo
  measures : List String
  aliases : List String
  deriving Repr

/-- The dimensions of each metric underneath. -/
def leafDimensions (ss : Sources) (policy : EffectivePolicy) (b : Binding) :
    List (List DimensionInfo) :=
  b.groupedLeaves.map fun leaf => match leaf.source.filter (· ≠ "") with
    | some s => reachableDimensions ss policy s
    | none => []

/-- The dimensions of the first metric that every other one has too, by name. -/
def commonDimensions (dims : List (List DimensionInfo)) : List DimensionInfo :=
  (dims.headD []).filter fun d => dims.all fun ds => ds.any fun e => e.name == d.name

/-- A metric that is computed from others. -/
def describeComposite (ss : Sources) (policy : EffectivePolicy) (b : Binding) : MetricDetail :=
  let leafSources := (b.leaves.map (·.source)).dedup
  { metric := b.metric
    kind := b.kind
    source := none
    measure := none
    populationFilter := b.binding.canonical.populationFilter
    grain := match leafSources with
      | [s] => ((ss.get (s.getD "")).map (·.grain)).getD []
      | _ => []
    dimensions := commonDimensions (leafDimensions ss policy b)
    measures := firstById id [] (b.leaves.filterMap (·.measure))
    aliases := b.binding.aliases }

/-- A metric that reads one source. -/
def describeSource (ss : Sources) (policy : EffectivePolicy) (name : String) (b : Binding) :
    Except Err MetricDetail :=
  if b.kind.isDescribable then
    match b.source with
    | none => .error (.internal "AssertionError")
    | some source =>
        match ss.get source with
        | none => .error (.unresolved (s!"metric {pyRepr name} resolved to source " ++
            s!"{pyRepr source} but that source is not loaded — check semantics/"))
        | some s => .ok {
            metric := b.metric
            kind := b.kind
            source := some source
            measure := b.measure
            populationFilter := b.binding.canonical.populationFilter
            grain := s.grain
            dimensions := reachableDimensions ss policy s.name
            measures := s.measures.map (·.name)
            aliases := b.binding.aliases }
  else .error (.unsupportedMeasure (s!"metric {pyRepr name} is a {b.kind.value} metric — " ++
    "use query() to compute it; describe_metric() requires a source-based metric"))

/-- `describe_metric`. -/
def describeMetric (p : Project) (principal : Principal) (name : String) :
    Except Err MetricDetail := do
  let b ← resolveOrRaise p.resolver principal name
  let policy := p.resolver.authzFor principal
  if b.dependencies.isEmpty then describeSource p.sources policy name b
  else return describeComposite p.sources policy b

/-! ## Related queries -/

/-- A dimension a query does not use yet. -/
structure RelatedDimension where
  name : String
  source : String
  label : Option String
  deriving DecidableEq, Repr

/-- Another metric of a source the query reads. -/
structure RelatedMetric where
  name : String
  source : String
  deriving DecidableEq, Repr

structure RelatedMetadata where
  unusedDimensions : List RelatedDimension
  siblingMetrics : List RelatedMetric
  deriving DecidableEq, Repr

/-- `_RELATED_CAP`. -/
def relatedCap : Nat := 5

/-- The sources whose rows the requested dimensions group, by name. -/
def queriedSources (bindings : List (String × Binding)) : List String :=
  sortedSet (bindings.flatMap fun b =>
    b.2.groupedLeaves.filterMap fun leaf => leaf.source.filter (· ≠ ""))

/-- `_addable_everywhere`: the last part of the name binds from every queried source. -/
def addableEverywhere (ss : Sources) (queried : List String) (entry : String) : Bool :=
  queried.all fun s => (findUnambiguous ss (lastComponent entry) s (buildAliasTree ss s)).isSome

/-- One reachable dimension: kept unless the query refers to it, it is there already, the policy
denies it, or some queried source does not bind it. -/
def suggestDimension (ss : Sources) (policy : EffectivePolicy) (q : SemanticQuery)
    (queried : List String) (acc : List RelatedDimension) (p : String × String) :
    List RelatedDimension :=
  let aliases : Dict String := queried.foldl (fun acc s =>
    (buildAliasTree ss s).foldl (fun acc e => acc.set e.1 e.2) acc) []
  if queryReferences q p.1 || acc.any (fun d => d.name == p.1) || !policy.dimensionAllowed p.1 ||
      !addableEverywhere ss queried p.1 then acc
  else acc ++ [⟨p.1, p.2, dimensionLabel ss (aliases.getD p.2 p.2) p.1⟩]

def relatedDimensionLe (a b : RelatedDimension) : Bool :=
  a.name < b.name || (a.name == b.name && decide (a.source ≤ b.source))

/-- The suggested dimensions: the first few, by name. -/
def unusedDimensions (ss : Sources) (policy : EffectivePolicy) (q : SemanticQuery)
    (queried : List String) : List RelatedDimension :=
  (((queried.flatMap (reachableDimensionNames ss)).foldl (suggestDimension ss policy q queried)
    []).insertionSort fun a b => relatedDimensionLe a b).take relatedCap

/-- `metrics_for_source`: the active metrics bound to a source. -/
def ContractResolver.metricsForSource (r : ContractResolver) (source : String) : List String :=
  (r.activeBindings.filterMap fun b => match b.canonical.of.sourceBound with
    | some (s, _) => if s = source ∧ s ≠ "" then some b.metric else none
    | none => none).insertionSort (· ≤ ·)

/-- The suggested metrics: the first few, by name. -/
def siblingMetrics (r : ContractResolver) (policy : EffectivePolicy) (names queried : List String) :
    List RelatedMetric :=
  let all := queried.flatMap fun s => (r.metricsForSource s).map fun m => (⟨m, s⟩ : RelatedMetric)
  let offered := all.filter fun m => m.name ∉ names && policy.metricAllowed m.name
  ((firstById (·.name) [] offered).insertionSort fun a b => a.name ≤ b.name).take relatedCap

/-- `_related`: the suggestions attached to a compiled query. -/
def related (r : ContractResolver) (ss : Sources) (policy : EffectivePolicy)
    (bindings : List (String × Binding)) (q : SemanticQuery) : RelatedMetadata :=
  let queried := queriedSources bindings
  { unusedDimensions := unusedDimensions ss policy q queried
    siblingMetrics := siblingMetrics r policy (bindings.map (·.1)) queried }

end Canonic
