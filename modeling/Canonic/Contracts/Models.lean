import Canonic.Json
import Canonic.Semantic.Models

set_option autoImplicit false

/-! # Contracts

`contracts/models.py` and `contracts/kinds.py`: metric bindings, guardrails, finality rules, and
the tenancy and role policies of a project.

A binding's canonical reference is a record with a kind and many optional fields, of which a
validator requires those of its kind and refuses those of other kinds. Here each kind is a
constructor with its own fields, so a reference that breaks these rules cannot be written. One
field is not refused by the validator and stays: `measure` on the two recompute kinds. -/

namespace Canonic

inductive Severity where
  | error | warn
  deriving DecidableEq, Repr

def Severity.value : Severity → String
  | error => "error" | warn => "warn"

inductive CollapseAgg where
  | last | first | avg | min | max
  deriving DecidableEq, Repr

def CollapseAgg.value : CollapseAgg → String
  | last => "last" | first => "first" | avg => "avg" | min => "min" | max => "max"

inductive OnZeroDenominator where
  | null | zero | error
  deriving DecidableEq, Repr

inductive OnGap where
  | skip | fillObserved
  deriving DecidableEq, Repr

inductive History where
  | exclude | include_
  deriving DecidableEq, Repr

def History.value : History → String
  | exclude => "exclude" | include_ => "include"

inductive PeriodAgg where
  | first | last | average
  deriving DecidableEq, Repr

def PeriodAgg.value : PeriodAgg → String
  | first => "first" | last => "last" | average => "average"

inductive ConversionCalculation where
  | conversionRate | conversions
  deriving DecidableEq, Repr

def ConversionCalculation.value : ConversionCalculation → String
  | conversionRate => "conversion_rate" | conversions => "conversions"

inductive BindingKind where
  | single | ratio | weightedAvg | semiAdditive | distinctCount | percentile | opaque_
  | cumulative | offset | derived | conversion
  deriving DecidableEq, Repr

def BindingKind.value : BindingKind → String
  | single => "single" | ratio => "ratio" | weightedAvg => "weighted_avg"
  | semiAdditive => "semi_additive" | distinctCount => "distinct_count"
  | percentile => "percentile" | opaque_ => "opaque" | cumulative => "cumulative"
  | offset => "offset" | derived => "derived" | conversion => "conversion"

/-- A column named on the base and on the conversion side. -/
structure ConversionPair where
  base : String
  conversion : String
  deriving DecidableEq, Repr

/-- One metric a derived binding reads, under the name its expression uses for it. -/
structure DerivedInput where
  metric : String
  alias_ : Option String := none
  deriving DecidableEq, Repr

def DerivedInput.name (i : DerivedInput) : String :=
  match i.alias_ with
  | some a => if a = "" then i.metric else a
  | none => i.metric

/-- The frame of a cumulative metric. -/
structure CumulativeBinding where
  orderBy : List String
  onGap : OnGap := .skip
  history : History := .exclude
  window : Option Duration := none
  grainToDate : Option DurationUnit := none
  periodAgg : PeriodAgg := .last
  deriving DecidableEq, Repr

namespace CumulativeBinding

/-- Whether the value is evaluated per calendar day. -/
def needsDaySpine (c : CumulativeBinding) : Bool :=
  c.window.isSome || c.grainToDate.isSome || c.periodAgg ≠ .last

/-- The frame as it appears in the resolved key. -/
def frameKey (c : CumulativeBinding) : String :=
  (match c.window with | some w => ", window=" ++ w.text | none => "") ++
  (match c.grainToDate with | some g => ", to_date=" ++ g.value | none => "") ++
  (if c.periodAgg = .last then "" else ", period_agg=" ++ c.periodAgg.value)

end CumulativeBinding

/-- What a conversion matches on, next to its two metrics. -/
structure ConversionParams where
  entity : ConversionPair
  baseTime : String
  conversionTime : String
  window : Option Duration := none
  calculation : ConversionCalculation := .conversionRate
  constantProperties : List ConversionPair := []
  deriving DecidableEq, Repr

/-- A metric's kind with the fields the kind requires. -/
inductive CanonicalKind where
  | single (source measure : String)
  | ratio (numerator denominator : String)
  | weightedAvg (weightedSum weight : String)
  | semiAdditive (source measure collapseDimension : String) (collapseAgg : CollapseAgg)
  | distinctCount (source distinctOn : String) (measure : Option String)
  | percentile (source column quantile : String) (measure : Option String)
  | opaque_ (source measure : String) (nativeGrain : List String)
  | cumulative (source measure : String) (frame : CumulativeBinding)
  | offset (base timeDimension : String) (offset : Duration)
  | derived (expr : String) (inputs : List DerivedInput)
  | conversion (baseMetric conversionMetric : String) (params : ConversionParams)
  deriving DecidableEq, Repr

namespace CanonicalKind

def kind : CanonicalKind → BindingKind
  | single .. => .single | ratio .. => .ratio | weightedAvg .. => .weightedAvg
  | semiAdditive .. => .semiAdditive | distinctCount .. => .distinctCount
  | percentile .. => .percentile | opaque_ .. => .opaque_ | cumulative .. => .cumulative
  | offset .. => .offset | derived .. => .derived | conversion .. => .conversion

/-- The `source` and `measure` fields of a source-bound kind (`SOURCE_BOUND_KINDS`), `none` for a
kind computed from other metrics. -/
def sourceBound : CanonicalKind → Option (String × Option String)
  | single s m => some (s, some m)
  | semiAdditive s m _ _ => some (s, some m)
  | distinctCount s _ m => some (s, m)
  | percentile s _ _ m => some (s, m)
  | opaque_ s m _ => some (s, some m)
  | cumulative s m _ => some (s, some m)
  | _ => none

/-- The attributes that hold the components of a composite kind, and their metrics. -/
def components : CanonicalKind → List (String × String)
  | ratio n d => [("numerator", n), ("denominator", d)]
  | weightedAvg s w => [("weighted_sum", s), ("weight", w)]
  | _ => []

/-- `dependency_names`: the metrics a kind is computed from, none for a source-bound one. -/
def dependencyNames : CanonicalKind → List String
  | ratio n d => [n, d]
  | weightedAvg s w => [s, w]
  | offset b _ _ => [b]
  | conversion b c _ => [b, c]
  | derived _ inputs => inputs.map (·.metric)
  | _ => []

end CanonicalKind

/-- The canonical binding of a metric. -/
structure CanonicalRef where
  of : CanonicalKind
  onZeroDenominator : OnZeroDenominator := .null
  populationFilter : Option String := none
  /-- The metrics a numerator is the sum of, on the two composite kinds. -/
  numeratorParts : Option (List String) := none
  deriving DecidableEq, Repr

/-- A metric name bound to its canonical definition. -/
structure MetricBinding where
  metric : String
  canonical : CanonicalRef
  aliases : List String := []
  active : Bool := true
  /-- An alias never repeats the metric name itself. -/
  aliases_ne : metric ∉ aliases := by first | exact List.not_mem_nil | decide
  deriving DecidableEq, Repr

/-- The names a binding is registered under. -/
def MetricBinding.names (b : MetricBinding) : List String := b.metric :: b.aliases

/-- The target of a guardrail: a source with an optional measure, or a metric. -/
inductive AppliesTo where
  | source (source : String) (measure : Option String)
  | metric (metric : String)
  deriving DecidableEq, Repr

/-- The enforcement mechanism of a guardrail, with the field the kind requires. -/
inductive GuardrailKind where
  | mandatoryFilter
  | requiredDimension
  | restrictSource (role : String)
  | minTrust (level : String)
  deriving DecidableEq, Repr

def GuardrailKind.value : GuardrailKind → String
  | mandatoryFilter => "mandatory_filter" | requiredDimension => "required_dimension"
  | restrictSource _ => "restrict_source" | minTrust _ => "min_trust"

/-- An enforceable rule the compiler applies to matching queries. -/
structure Guardrail where
  id : String
  appliesTo : AppliesTo
  kind : GuardrailKind
  filter : Option String := none
  dimension : Option String := none
  context : Option String := none
  severity : Severity := .error
  rationale : String := ""
  knowledgeRefs : List String := []
  /-- A mandatory filter has a non-empty filter. -/
  filter_required : kind = .mandatoryFilter → filter.getD "" ≠ "" := by decide
  deriving DecidableEq, Repr

/-- Which side of the watermark a realization serves. -/
inductive Role where
  | final | provisional
  deriving DecidableEq, Repr

/-- One physical source along a finality axis. -/
structure Realization where
  source : String
  role : Role
  watermark : Option String := none
  tz : Option String := none
  deriving DecidableEq, Repr

/-- A finality rule over a metric's realizations. -/
structure FinalityRule where
  metric : String
  realizations : List Realization
  resultFlag : Option String := none
  /-- Exactly one realization is final. -/
  one_final : (realizations.filter fun r => r.role = .final).length = 1 := by decide
  deriving DecidableEq, Repr

/-- The final realization of a rule. -/
def FinalityRule.final (r : FinalityRule) : Option Realization :=
  r.realizations.find? fun x => x.role == .final

inductive OnMissingPrincipal where
  | deny | allowUnscoped
  deriving DecidableEq, Repr

inductive UndeclaredSource where
  | deny | warn
  deriving DecidableEq, Repr

inductive MaskStrategy where
  | partial_ | hash | null
  deriving DecidableEq, Repr

def MaskStrategy.value : MaskStrategy → String
  | partial_ => "partial" | hash => "hash" | null => "null"

structure ScopedSource where
  source : String
  column : String
  deriving DecidableEq, Repr

/-- Row-level tenant isolation: which sources are scoped, and which are tenant-neutral. -/
structure TenancyPolicy where
  claim : String := "tenant"
  onMissingPrincipal : OnMissingPrincipal := .deny
  scopedSources : List ScopedSource := []
  sharedSources : List String := []
  undeclaredSource : UndeclaredSource := .deny
  /-- No source is declared both scoped and shared. -/
  no_overlap : ∀ s ∈ scopedSources, s.source ∉ sharedSources := by decide
  deriving DecidableEq, Repr

/-- An allow/deny name list; `allow` absent means unrestricted. -/
structure AllowDenyPolicy where
  allow : Option (List String) := none
  deny : List String := []
  deriving DecidableEq, Repr

/-- A column-masking rule on `<source>.<column>`. -/
structure MaskingRule where
  column : String
  strategy : MaskStrategy
  deriving DecidableEq, Repr

/-- One role's policy. A field that the author leaves out is `none` and is inherited. -/
structure RoleDef where
  inherits : Option String := none
  metrics : Option AllowDenyPolicy := none
  dimensions : Option AllowDenyPolicy := none
  allowTags : Option (List String) := none
  runSql : Option Bool := none
  tenancyExempt : Option Bool := none
  masking : Option (List MaskingRule) := none
  deriving DecidableEq, Repr

/-- Role-based authorization of a project. -/
structure RolePolicy where
  claim : String := "roles"
  defaultRole : Option String := none
  roles : List (String × RoleDef) := []
  deriving DecidableEq, Repr

namespace RolePolicy

/-- The walk of the validator up the `inherits` chain of `name`. Each step puts another declared
role into `seen`, so a chain longer than the number of roles is a cyclic one. -/
def walkInherits (p : RolePolicy) (name : String) :
    Nat → List String → Option String → Except (List String × String) Unit
  | _, _, none => .ok ()
  | 0, _, some _ => .error (["roles", name, "inherits"],
      s!"role {pyRepr name} has a cyclic 'inherits' chain")
  | n + 1, seen, some current =>
      match p.roles.lookup current with
      | none => .error (["roles", name, "inherits"],
          s!"role {pyRepr name} inherits undeclared role {pyRepr current}")
      | some role =>
          if current ∈ seen then .error (["roles", name, "inherits"],
            s!"role {pyRepr name} has a cyclic 'inherits' chain")
          else p.walkInherits name n (current :: seen) role.inherits

/-- The default role is declared. -/
def checkDefaultRole (p : RolePolicy) : Except (List String × String) Unit :=
  match p.defaultRole with
  | none => .ok ()
  | some d =>
      if p.roles.any fun r => r.1 == d then .ok ()
      else .error (["default_role"], s!"default_role {pyRepr d} is not declared in 'roles'")

/-- `_validate_roles`: the path and message of the first role that is refused. -/
def validateRoles (p : RolePolicy) : Except (List String × String) Unit := do
  p.checkDefaultRole
  p.roles.forM fun r => p.walkInherits r.1 p.roles.length [r.1] r.2.inherits

end RolePolicy

/-- A trusted query of the project; its query is an open dictionary. -/
structure Assertion where
  id : String
  query : Content
  /-- `expect.rows`. -/
  rows : Option Int := none
  /-- `expect.values`. -/
  values : Content := []
  deriving DecidableEq

/-- `is_executable`. -/
def Assertion.isExecutable (a : Assertion) : Bool :=
  match a.query.get "metrics" with
  | some (.arr ms) => !ms.isEmpty
  | _ => false

/-- `assertion_metrics`. -/
def Assertion.metrics (lib : PyLib) (a : Assertion) : List String :=
  match a.query.get "metrics" with
  | some (.arr ms) => ms.map lib.str
  | _ => []

end Canonic
