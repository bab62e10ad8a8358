import Canonic.Compiler.Calls

set_option autoImplicit false

/-! # Access to metrics and dimensions

The gate of a query looks at the *requested strings*, before anything is resolved; resolution then
follows aliases. This module says exactly when the two agree: for metrics, when no requested alias
that the policy allows stands for a metric it does not; for dimensions, the same for every source
that a leaf of the query is rooted at. -/

namespace Canonic

/-! ## Metrics -/

/-- Access to metrics is decided by the canonical name: what is served is allowed under it, and a
name of a metric that is not allowed is refused as a name that matches nothing. -/
structure MetricsGated (p : Project) (q : SemanticQuery) (principal : Principal) : Prop where
  served : ∀ dedup r, compile p q principal dedup = .ok r → ∀ name ∈ q.metrics, ∀ b,
    p.resolver.resolveMetric name = .ok b →
      (p.resolver.authzFor principal).metricAllowed b.metric = true
  refused : ∀ name ∈ q.metrics, ∀ b, p.resolver.resolveMetric name = .ok b →
    (p.resolver.authzFor principal).metricAllowed b.metric = false →
      resolveRequested p.resolver (p.resolver.authzFor principal) name = .error (.unresolved name)

/-- No requested alias that the policy allows stands for a metric it does not allow. -/
def AliasesAllowed (p : Project) (q : SemanticQuery) (principal : Principal) : Prop :=
  ∀ name ∈ q.metrics, (p.resolver.authzFor principal).metricAllowed name = true →
    ∀ b, p.resolver.resolveMetric name = .ok b → name ∈ b.binding.aliases →
      (p.resolver.authzFor principal).metricAllowed b.metric = true

/-- Where aliases are allowed, every allowed name stands for an allowed metric. -/
theorem AliasesAllowed.metricAllowed {p : Project} {q : SemanticQuery} {principal : Principal}
    (h : AliasesAllowed p q principal) {name : String} (hn : name ∈ q.metrics) {b : Binding}
    (hb : p.resolver.resolveMetric name = .ok b)
    (hal : (p.resolver.authzFor principal).metricAllowed name = true) :
    (p.resolver.authzFor principal).metricAllowed b.metric = true := by
  rcases List.mem_cons.mp (resolveMetric_eq_ok hb) with rfl | halias
  · exact hal
  · exact h name hn hal b hb halias

/-- **Exactly when the metric gate holds.** Only an alias, itself allowed, of a metric that is not
allowed passes the gate. -/
theorem metricsGated_iff (p : Project) (q : SemanticQuery) (principal : Principal) :
    MetricsGated p q principal ↔ AliasesAllowed p q principal := by
  constructor
  · intro h name hn hal b hb _
    by_contra hden
    have := h.refused name hn b hb (by simpa using hden)
    simp [resolveRequested, hal, hb] at this
  · intro h
    refine ⟨fun dedup r hr name hn b hb => ?_, fun name hn b hb hden => ?_⟩
    · obtain ⟨plan, hplan, -⟩ := compile_eq_ok hr
      obtain ⟨hall, -⟩ := resolveQuery_eq_ok (planQuery_eq_ok hplan).bindings
      have hmetrics := (applyTimeRange_eq_ok (planQuery_eq_ok hplan).query).1
      obtain ⟨b', hb'⟩ := (resolveAllMetrics_eq_ok hall).2 name (hmetrics ▸ hn)
      exact h.metricAllowed hn hb (resolveRequested_eq_ok hb').1
    · unfold resolveRequested
      split
      next hal => simp [h.metricAllowed hn hb hal] at hden
      · rfl

/-! ### A payroll whose metric has an alias -/

private def payrollTexts : List (String × Sql.Expr) :=
  [("SUM(amount)", .node (.agg .sum) [Sql.Expr.bare "amount"])]

private def payroll : SemanticSource where
  name := "payroll"
  connection := "wh"
  table := "payroll"
  columns := [⟨"amount", .decimal, true⟩, ⟨"team", .string, true⟩]
  measures := [{ name := "amount", expr := "SUM(amount)" }]
  dimensions := [{ name := "team", column := some "team", aliases := ["squad"] }]
  measures_nodup := List.nodup_singleton "amount"

/-- One metric `salary`, also known as `pay`, on the payroll. -/
private def payrollProject (analyst : RoleDef) : Project where
  lib := Lib.ofTexts payrollTexts
  sources := { list := [payroll] }
  resolver := {
    bindings := [{
      metric := "salary", canonical := { of := .single "payroll" "amount" }, aliases := ["pay"] }]
    roles := some { roles := [("analyst", analyst)] } }

/-- A role that denies `salary` is served the same number as `pay`. -/
theorem metricsGated_alias_counterexample :
    (∃ r, compile (payrollProject { metrics := some { deny := ["salary"] } })
        { metrics := ["pay"] } { roles := ["analyst"] } = .ok r) ∧
      ¬ MetricsGated (payrollProject { metrics := some { deny := ["salary"] } })
        { metrics := ["pay"] } { roles := ["analyst"] } := by
  constructor
  · exact exists_ok_of_isOk (by decide +kernel)
  · intro h
    have hpay := h.refused "pay" (by decide) _ rfl (by decide)
    have : (resolveRequested (payrollProject { metrics := some { deny := ["salary"] } }).resolver
        ((payrollProject { metrics := some { deny := ["salary"] } }).resolver.authzFor
          { roles := ["analyst"] }) "pay").isOk = false := by
      rw [hpay]
      rfl
    revert this
    decide

/-! ## Dimensions -/

/-- A requested dimension as a leaf rooted at `owner` resolves it. -/
def dimensionOn (p : Project) (owner requested : String) (found : String × Dimension) : Prop :=
  findDimension p.sources requested owner (some (buildAliasTree p.sources owner)) =
    .ok (some found)

/-- Access to dimensions is decided by the canonical name: on no leaf does a requested string
stand for a dimension that the policy does not allow. -/
def DimensionsGated (p : Project) (q : SemanticQuery) (principal : Principal) (plan : Plan) :
    Prop :=
  ∀ l ∈ plan.leaves, ∀ d ∈ q.dimensions, ∀ found, dimensionOn p l.inputs.owner d found →
    (p.resolver.authzFor principal).dimensionAllowed found.2.name = true

/-- The gate reads the requested string as the dimension's own name: it is that name, or that
name behind a join alias, and the allow list does not name the qualified string itself. -/
def SpelledOut (policy : EffectivePolicy) (requested name : String) : Prop :=
  requested = name ∨ (lastComponent requested = name ∧ requested ∉ policy.allowDimensions)

/-- Every other spelling of a dimension, seen from a source the requested metrics read, stands for
a dimension that the policy allows. -/
def SpellingsAllowed (p : Project) (q : SemanticQuery) (principal : Principal) : Prop :=
  ∀ name ∈ q.metrics, ∀ b, p.resolver.resolveMetric name = .ok b →
    ∀ lf ∈ b.groupedLeaves, ∀ s, lf.source = some s →
      ∀ d ∈ q.dimensions, ∀ found, dimensionOn p s d found →
        ¬ SpelledOut (p.resolver.authzFor principal) d found.2.name →
          (p.resolver.authzFor principal).dimensionAllowed found.2.name = true

/-- A name that is allowed as it is spelled out is allowed. -/
theorem SpelledOut.dimensionAllowed {policy : EffectivePolicy} {requested name : String}
    (h : SpelledOut policy requested name) (hal : policy.dimensionAllowed requested = true) :
    policy.dimensionAllowed name = true := by
  rcases h with rfl | ⟨rfl, hallow⟩
  · exact hal
  · simp only [EffectivePolicy.dimensionAllowed, lastComponent_lastComponent, or_self] at hal ⊢
    split at hal
    · simp at hal
    next hdeny =>
      rw [if_neg (fun h => hdeny (.inr h))]
      simpa [hallow] using hal

theorem enforceDimensionPolicy_eq_ok {policy : EffectivePolicy} {dimensions : List String}
    (h : enforceDimensionPolicy policy dimensions = .ok ()) :
    ∀ d ∈ dimensions, policy.dimensionAllowed d = true := by
  unfold enforceDimensionPolicy at h
  split at h
  next hnil => simpa [List.filter_eq_nil_iff] using hnil
  · simp at h

/-- **Exactly when the dimension gate holds**, for a query that is planned: only a dimension alias,
or a qualified name that the allow list grants as such, passes the gate for a dimension that is
not allowed. -/
theorem dimensionsGated_iff {p : Project} {q : SemanticQuery} {principal : Principal} {plan : Plan}
    (h : planQuery p q principal = .ok plan) :
    DimensionsGated p q principal plan ↔ SpellingsAllowed p q principal := by
  have hfrom := planQuery_eq_ok h
  constructor
  · intro hg name hn b hb lf hlf s hs d hd found hfound _
    obtain ⟨l, hl, rfl⟩ := (planQuery_owner hfrom).mpr
      ⟨(name, b), hfrom.mem_bindings.mpr ⟨hn, hb⟩, lf, hlf, hs⟩
    exact hg l hl d hd found hfound
  · intro hsp l hl d hd found hfound
    obtain ⟨⟨name, b⟩, hb, lf, hlf, hs⟩ := (planQuery_owner hfrom).mp ⟨l, hl, rfl⟩
    obtain ⟨hn, hres⟩ := hfrom.mem_bindings.mp hb
    by_cases hspell : SpelledOut (p.resolver.authzFor principal) d found.2.name
    · obtain ⟨-, hdims⟩ := resolveQuery_eq_ok hfrom.bindings
      rw [(applyTimeRange_eq_ok hfrom.query).2.1] at hdims
      exact hspell.dimensionAllowed (enforceDimensionPolicy_eq_ok hdims d hd)
    · exact hsp name hn b hres lf hlf _ hs d hd found hfound hspell

/-- A role that denies `team` groups by it as `squad`. -/
theorem dimensionsGated_alias_counterexample :
    ∃ plan r, planQuery (payrollProject { dimensions := some { deny := ["team"] } })
        { metrics := ["salary"], dimensions := ["squad"] } { roles := ["analyst"] } = .ok plan ∧
      compile (payrollProject { dimensions := some { deny := ["team"] } })
        { metrics := ["salary"], dimensions := ["squad"] } { roles := ["analyst"] } = .ok r ∧
      ¬ DimensionsGated (payrollProject { dimensions := some { deny := ["team"] } })
        { metrics := ["salary"], dimensions := ["squad"] } { roles := ["analyst"] } plan := by
  obtain ⟨r, hr⟩ := exists_ok_of_isOk (x := compile
    (payrollProject { dimensions := some { deny := ["team"] } })
    { metrics := ["salary"], dimensions := ["squad"] } { roles := ["analyst"] }) (by decide +kernel)
  obtain ⟨plan, hplan, -⟩ := compile_eq_ok hr
  refine ⟨plan, r, hplan, hr, fun hg => ?_⟩
  obtain ⟨l, hl, ho⟩ := (planQuery_owner (planQuery_eq_ok hplan)).mpr
    ⟨("salary", _), (planQuery_eq_ok hplan).mem_bindings.mpr ⟨by decide, rfl⟩, _,
      List.mem_singleton_self _, rfl⟩
  have := hg l hl "squad" (by decide) ("payroll", payroll.dimensions.head (by decide))
    (by rw [ho]; rfl)
  revert this
  decide

/-- Where the role denies another dimension, grouping by the alias is gated. -/
theorem dimensionsGated_payroll :
    ∃ plan, planQuery (payrollProject { dimensions := some { deny := ["grade"] } })
        { metrics := ["salary"], dimensions := ["squad"] } { roles := ["analyst"] } = .ok plan ∧
      DimensionsGated (payrollProject { dimensions := some { deny := ["grade"] } })
        { metrics := ["salary"], dimensions := ["squad"] } { roles := ["analyst"] } plan := by
  obtain ⟨plan, hplan⟩ := exists_ok_of_isOk (x := planQuery
    (payrollProject { dimensions := some { deny := ["grade"] } })
    { metrics := ["salary"], dimensions := ["squad"] } { roles := ["analyst"] }) (by decide +kernel)
  refine ⟨plan, hplan, (dimensionsGated_iff hplan).mpr ?_⟩
  intro name hn b hb lf hlf s hs d hd found hfound _
  obtain rfl : name = "salary" := by simpa using hn
  obtain rfl := Except.ok.inj hb
  obtain rfl := List.mem_singleton.mp hlf
  obtain rfl : "payroll" = s := Option.some.inj hs
  obtain rfl : d = "squad" := by simpa using hd
  obtain rfl : found = ("payroll", payroll.dimensions.head (by decide)) :=
    Option.some.inj (Except.ok.inj (hfound.symm.trans rfl))
  decide

end Canonic
