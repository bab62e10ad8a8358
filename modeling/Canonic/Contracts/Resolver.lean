import Mathlib
import Canonic.Contracts.Principal

set_option autoImplicit false

/-! # The contract resolver

`contracts/resolver.py`: the one authority on what a metric name means, which guardrails apply to
a source and measure, how a source is scoped to a tenant, and what a principal may see.

A name is looked up among the metric names *and aliases* of the active bindings. A kind that is
computed from other metrics resolves these in turn; the names on the way are kept in `seen`, so
a cycle ends as an unresolved name. -/

namespace Canonic

/-- A metric name resolved to its canonical definition. -/
inductive Binding where
  | leaf (binding : MetricBinding)
  | composite (binding : MetricBinding) (numerator denominator : Binding)
  | offset (binding : MetricBinding) (base : Binding) (timeDimension : String) (offset : Duration)
  | derived (binding : MetricBinding) (expr : String) (names : List String)
      (inputs : List Binding)
  | conversion (binding : MetricBinding) (base conversion : Binding) (params : ConversionParams)
  deriving Repr

/-- Why a name does not resolve. -/
inductive ResolveFailure where
  | unresolved (name : String)
  | ambiguous (name : String) (candidates : List MetricBinding)
  deriving DecidableEq, Repr

namespace Binding

/-- The contract a resolved binding was read from. -/
def binding : Binding → MetricBinding
  | leaf b | composite b _ _ | offset b _ _ _ | derived b _ _ _ | conversion b _ _ _ => b

/-- The canonical metric name. -/
def metric (b : Binding) : String := b.binding.metric

def kind (b : Binding) : BindingKind := b.binding.canonical.of.kind

/-- The source of a source-bound kind. -/
def source : Binding → Option String
  | leaf b => b.canonical.of.sourceBound.map (·.1)
  | _ => none

/-- The measure of a source-bound kind; a recompute kind names a column instead. -/
def measure : Binding → Option String
  | leaf b =>
      match b.canonical.of with
      | .single _ m => some m
      | .semiAdditive _ m _ _ => some m
      | .opaque_ _ m _ => some m
      | .cumulative _ m _ => some m
      | _ => none
  | _ => none

/-- The metrics a binding is computed from. -/
def dependencies : Binding → List Binding
  | leaf _ => []
  | composite _ n d => [n, d]
  | offset _ b _ _ => [b]
  | derived _ _ _ inputs => inputs
  | conversion _ b c _ => [b, c]

mutual
/-- The source-bound metrics a binding reads, through every level. -/
def leaves : Binding → List Binding
  | leaf b => [leaf b]
  | composite _ n d => n.leaves ++ d.leaves
  | offset _ b _ _ => b.leaves
  | derived b e ns inputs => if inputs.isEmpty then [derived b e ns inputs] else leavesList inputs
  | conversion _ b c _ => b.leaves ++ c.leaves

def leavesList : List Binding → List Binding
  | [] => []
  | b :: bs => b.leaves ++ leavesList bs
end

mutual
/-- The source-bound metrics a requested dimension groups: the conversion side of a conversion is
reported under the dimension values of its base. -/
def groupedLeaves : Binding → List Binding
  | leaf b => [leaf b]
  | composite _ n d => n.groupedLeaves ++ d.groupedLeaves
  | offset _ b _ _ => b.groupedLeaves
  | derived b e ns inputs =>
      if inputs.isEmpty then [derived b e ns inputs] else groupedLeavesList inputs
  | conversion _ b _ _ => b.groupedLeaves

def groupedLeavesList : List Binding → List Binding
  | [] => []
  | b :: bs => b.groupedLeaves ++ groupedLeavesList bs
end

/-- `resolved_key`: the key a metric's history is kept under. -/
def resolvedKey : Binding → Option String
  | composite b n d =>
      let name := if b.canonical.of.kind = .weightedAvg then "weighted_avg" else "ratio"
      some s!"{name}({n.metric}, {d.metric})"
  | offset _ b dim o =>
      let key := match b.resolvedKey with | some k => k | none => b.metric
      some s!"offset({key}, {dim}, {o.text})"
  | derived _ e _ _ => some s!"derived({e})"
  | conversion _ b c p =>
      let base := match b.resolvedKey with | some k => k | none => b.metric
      let conv := match c.resolvedKey with | some k => k | none => c.metric
      let window := match p.window with | some w => ", window=" ++ w.text | none => ""
      some s!"conversion({base}, {conv}, {p.calculation.value}{window})"
  | leaf b =>
      match b.canonical.of with
      | .single s m => some s!"{s}.{m}"
      | .semiAdditive s m _ _ => some s!"{s}.{m}"
      | .opaque_ s m _ => some s!"opaque({s}.{m})"
      | .cumulative s m f => some s!"cumulative({s}.{m}{f.frameKey})"
      -- a recomputed metric is keyed where it is planned
      | _ => none

end Binding

/-- How a source is scoped to the tenant of a request. -/
inductive ScopeResolution where
  | scopeRule (source column : String)
  | shared
  | undeclared
  deriving DecidableEq, Repr

/-- The contracts of a project, as the resolver indexes them. -/
structure ContractResolver where
  bindings : List MetricBinding := []
  guardrails : List Guardrail := []
  finality : List FinalityRule := []
  tenancy : Option TenancyPolicy := none
  roles : Option RolePolicy := none

namespace ContractResolver

/-! ## Names -/

/-- The active bindings, in load order. -/
def activeBindings (r : ContractResolver) : List MetricBinding := r.bindings.filter (·.active)

/-- `_name_index.get(name, [])`: one entry for each time an active binding lists the name. -/
def nameIndex (r : ContractResolver) (name : String) : List MetricBinding :=
  r.activeBindings.flatMap fun b => (b.names.filter (· == name)).map fun _ => b

/-- The order candidates of an ambiguous name are reported in. -/
def candidateLe (a b : MetricBinding) : Bool :=
  a.metric < b.metric || (a.metric == b.metric && decide (a.aliases ≤ b.aliases))

/-- The binding of a name, or why there is not exactly one. -/
def lookupName (r : ContractResolver) (name : String) : Except ResolveFailure MetricBinding :=
  match r.nameIndex name with
  | [] => .error (.unresolved name)
  | [b] => .ok b
  | bs => .error (.ambiguous name (bs.insertionSort fun a b => candidateLe a b))

/-- `_resolve_binding` and `_resolve_component`: resolve what a binding is computed from. The fuel
bounds the nesting; `seen` grows by one name at each level. -/
def resolveBinding (r : ContractResolver) :
    Nat → List String → MetricBinding → Except ResolveFailure Binding
  | 0, _, b => .error (.unresolved b.metric)
  | n + 1, seen, b =>
      let component (name : String) : Except ResolveFailure Binding :=
        -- a metric that is reached again closes a circle
        if name ∈ seen then .error (.unresolved name)
        else do
          let b' ← r.lookupName name
          r.resolveBinding n (name :: seen) b'
      match b.canonical.of with
      | .offset base dim off => do return .offset b (← component base) dim off
      | .derived expr inputs => do
          let resolved ← inputs.mapM fun i => component i.metric
          return .derived b expr (inputs.map (·.name)) resolved
      | .conversion base conv params => do
          let base ← component base
          let conv ← component conv
          return .conversion b base conv params
      | .ratio num den => do
          let num ← component num
          let den ← component den
          return .composite b num den
      | .weightedAvg ws w => do
          let num ← component ws
          let den ← component w
          return .composite b num den
      | .single .. | .semiAdditive .. | .distinctCount .. | .percentile .. | .opaque_ ..
      | .cumulative .. => .ok (.leaf b)

/-- The number of names the project registers, a bound on the nesting of metrics. -/
def nameCount (r : ContractResolver) : Nat := (r.activeBindings.map fun b => b.names.length).sum

/-- `resolve_metric`: a metric name or alias resolved to its canonical binding. -/
def resolveMetric (r : ContractResolver) (name : String) : Except ResolveFailure Binding := do
  let b ← r.lookupName name
  r.resolveBinding (r.nameCount + 1) [name] b

/-! ## Guardrails -/

/-- `_metric_to_canonical.get(metric)`: the `source` and `measure` fields of the last active
binding of a metric name whose kind is source-bound. -/
def metricToCanonical (r : ContractResolver) (metric : String) :
    Option (String × Option String) :=
  ((r.activeBindings.filterMap fun b =>
    if b.metric = metric then b.canonical.of.sourceBound else none).getLast?)

/-- `_guardrail_applies`. -/
def guardrailApplies (r : ContractResolver) (g : Guardrail) (source measure : String) : Bool :=
  match g.appliesTo with
  | .source s m => s == source && (m == none || m == some measure)
  | .metric m => r.metricToCanonical m == some (source, some measure)

/-- Stable-sorted by id. -/
def byId (gs : List Guardrail) : List Guardrail := gs.insertionSort fun a b => a.id ≤ b.id

/-- `guardrails_for`: the context of the query has no effect here. -/
def guardrailsFor (r : ContractResolver) (source measure : String) (_ctx : Option String) :
    List Guardrail :=
  byId (r.guardrails.filter fun g => r.guardrailApplies g source measure)

/-- `restrict_source_for`. -/
def restrictSourceFor (r : ContractResolver) (source measure : String)
    (context : Option String) : List Guardrail :=
  match context with
  | none => []
  | some c => byId (r.guardrails.filter fun g =>
      (match g.kind with | .restrictSource _ => true | _ => false) &&
        g.context == some c && r.guardrailApplies g source measure)

/-- `required_dimension_for`: a guardrail without a context applies in every one. -/
def requiredDimensionFor (r : ContractResolver) (source measure : String)
    (context : Option String) : List Guardrail :=
  byId (r.guardrails.filter fun g =>
    g.kind == .requiredDimension && (g.context == none || g.context == context) &&
      r.guardrailApplies g source measure)

/-- `min_trust_for`. -/
def minTrustFor (r : ContractResolver) (source measure : String) (context : Option String) :
    List Guardrail :=
  match context with
  | none => []
  | some c => byId (r.guardrails.filter fun g =>
      (match g.kind with | .minTrust _ => true | _ => false) &&
        g.context == some c && r.guardrailApplies g source measure)

/-- `finality_for`: the last rule of a metric name. -/
def finalityFor (r : ContractResolver) (metric : String) : Option FinalityRule :=
  (r.finality.filter fun f => f.metric == metric).getLast?

/-! ## Tenancy and roles -/

/-- `tenancy_for`: total over every source; without a policy every source is shared. -/
def tenancyFor (r : ContractResolver) (source : String) : ScopeResolution :=
  match r.tenancy with
  | none => .shared
  | some t =>
      match (t.scopedSources.filter fun s => s.source == source).getLast? with
      | some rule => .scopeRule rule.source rule.column
      | none => if source ∈ t.sharedSources then .shared else .undeclared

/-- The `inherits` chain of a role, the role itself first. -/
def roleChain (roles : List (String × RoleDef)) : Nat → String → List RoleDef
  | 0, _ => []
  | n + 1, name =>
      match roles.lookup name with
      | none => []
      | some role =>
          match role.inherits with
          | none => [role]
          | some parent => role :: roleChain roles n parent

/-- One role of a chain applied to the value of a field so far: an authored value replaces it, and
the first role gives its own value, or the default. -/
def overrideField {α : Type} (field : RoleDef → Option α) (default : α) (resolved : Option α)
    (role : RoleDef) : Option α :=
  if (field role).isSome || resolved.isNone then some ((field role).getD default) else resolved

/-- A field over a chain, from the root ancestor on. -/
def flattenField {α : Type} (chain : List RoleDef) (field : RoleDef → Option α) (default : α) :
    Option α :=
  chain.reverse.foldl (overrideField field default) none

/-- `_flatten_role`: the fields of a role's chain, each overridden wholesale. -/
def flattenRole (roles : List (String × RoleDef)) (name : String) : RoleDef :=
  let chain := roleChain roles (roles.length + 1) name
  { inherits := none
    metrics := flattenField chain (·.metrics) {}
    dimensions := flattenField chain (·.dimensions) {}
    allowTags := flattenField chain (·.allowTags) []
    runSql := flattenField chain (·.runSql) false
    tenancyExempt := flattenField chain (·.tenancyExempt) false
    masking := flattenField chain (·.masking) [] }

/-- The policy of an unrestricted principal. -/
def unrestricted (exempt : Bool) : EffectivePolicy :=
  { allowMetrics := ["*"], denyMetrics := [], allowDimensions := ["*"], denyDimensions := []
    allowTags := ["*"], runSql := true, tenancyExempt := exempt }

/-- The policy of a principal without a known role: nothing is allowed. -/
def denyAll : EffectivePolicy :=
  { allowMetrics := [], denyMetrics := [], allowDimensions := [], denyDimensions := []
    allowTags := [], runSql := false, tenancyExempt := false }

def maskingLe (a b : MaskingRule) : Bool :=
  a.column < b.column || (a.column == b.column && decide (a.strategy.value ≤ b.strategy.value))

/-- `authz_for`: a principal's roles flattened, and united over several of them. -/
def authzFor (r : ContractResolver) (principal : Principal) : EffectivePolicy :=
  if principal.systemExempt then unrestricted true
  else match r.roles with
    | none => unrestricted false
    | some policy =>
        let names := match principal.roles, policy.defaultRole with
          | [], some d => [d]
          | rs, _ => rs
        let known := (names.filter fun n => policy.roles.any fun p => p.1 == n).insertionSort
          (· ≤ ·)
        -- roles that nobody declared grant nothing
        if known.isEmpty then denyAll
        else
          let flat := known.map (flattenRole policy.roles)
          -- a role without a list of its own allows all
          let allowOf (p : Option AllowDenyPolicy) : List String :=
            match p.bind (·.allow) with | some a => a | none => ["*"]
          let denyOf (p : Option AllowDenyPolicy) : List String := (p.map (·.deny)).getD []
          { allowMetrics := flat.flatMap fun role => allowOf role.metrics
            denyMetrics := flat.flatMap fun role => denyOf role.metrics
            allowDimensions := flat.flatMap fun role => allowOf role.dimensions
            denyDimensions := flat.flatMap fun role => denyOf role.dimensions
            allowTags := flat.flatMap fun role => role.allowTags.getD []
            runSql := flat.any fun role => role.runSql.getD false
            tenancyExempt := flat.any fun role => role.tenancyExempt.getD false
            masking := ((flat.flatMap fun role => role.masking.getD []).dedup).insertionSort
              fun a b => maskingLe a b
            roles := known }

end ContractResolver

end Canonic
