import Canonic.Except
import Canonic.Compiler.Pipeline

set_option autoImplicit false

/-! # The leaves of a query

Every leaf of a plan answers one call of `plan_leaf`, and `Calls` lists the calls a metric makes,
by its kind. A property of all leaves is then proved once for `planLeaf` and read off for each
call; `planQuery_calls` is the statement for a whole query. A latest-period probe is the plan of
another leaf with other measures, so it answers the same call. -/

namespace Canonic

/-! ## What an answered call says of a plan -/

/-- The plan answers the call: its inputs, emission and key are those of the call. The measures are
the plan's own. -/
structure LeafCall.Answered (c : LeafCall) (l : LeafPlan) : Prop where
  scope : ∃ s, scopeLeaf c.ctx c.owner c.metrics = .ok s ∧ l.inputs = s.inputs
  emit : leafEmit c.ctx l.inputs c.options = .ok l.emit
  key : leafKey l.inputs c.options l.metrics l.emit = .ok l.key
  aliases : l.measureAliases = l.metrics.map (·.outputAlias)
  finality : l.finality = l.emit.metadata
  fusable : l.fusable = c.options.fusable

theorem LeafCall.plan_eq_ok {c : LeafCall} {l : LeafPlan} (h : c.plan = .ok l) :
    c.Answered l ∧ buildLeaf l.inputs l.emit c.metrics "" = .ok (l.select, l.aux) := by
  simp only [LeafCall.plan, planLeaf, bind_eq_ok, pure_eq_ok] at h
  obtain ⟨scope, hscope, emit, hemit, built, hbuilt, key, hkey, rfl⟩ := h
  exact ⟨⟨⟨scope, hscope, rfl⟩, hemit, hkey, rfl, rfl, rfl⟩, hbuilt⟩

theorem LeafCall.Answered.absorb {c : LeafCall} {l : LeafPlan} (h : c.Answered l)
    (events : LeafPlan) : c.Answered (l.absorb events) :=
  ⟨h.scope, h.emit, h.key, h.aliases, h.finality, h.fusable⟩

/-- The alias tree of a call's owner. -/
def LeafCall.tree (c : LeafCall) : Dict String := buildAliasTree c.ctx.env.sources c.owner

/-- The inputs of a plan with every part they were bound from: the names, the aliases of the
guardrails, the joins, and the four kinds of conditions in the order they stand in. -/
structure LeafCall.Scoped (c : LeafCall) (i : LeafInputs) where
  bound : BoundNames
  guarded : List String
  tenancy : TenantScoping
  population : List Sql.Expr
  guards : List GuardrailEnforcement
  bound_eq : bindNames c.ctx c.owner c.tree = .ok bound
  guarded_eq : guardrailJoinSources c.ctx.env c.ctx.resolver c.ctx.query.context c.tree
    (c.metrics.map (·.resolved)) = .ok guarded
  edges_eq : leafEdges c.ctx c.owner (bound.referenced ++ guarded) = .ok i.edges
  tenancy_eq : tenantConditions c.ctx.resolver c.owner i.edges c.tree c.ctx.principal.tenants
    c.ctx.policy c.ctx.env.sources = .ok tenancy
  population_eq : populationFilterConditions c.ctx.env (leafPopulation c.ctx c.metrics) c.owner
    c.tree = .ok population
  guards_eq : c.metrics.mapM (fun m =>
    enforceGuardrails c.ctx.env c.ctx.resolver c.ctx.query.context m.resolved) = .ok guards
  ctx : i.ctx = c.ctx
  owner : i.owner = c.owner
  tree : i.tree = c.tree
  dimensions : i.dimensions = bound.dimensions
  fanout : i.fanout = fansOut i.edges
  mask : i.mask = resolveDimMask c.tree c.ctx.policy.masking
  conditions : i.conditions = tenancy.conditions ++ bound.conditions ++ population ++
    (guards.head?.map (·.conditions)).getD []

theorem LeafCall.scoped_of_scopeLeaf {c : LeafCall} {s : LeafScope}
    (h : scopeLeaf c.ctx c.owner c.metrics = .ok s) : Nonempty (c.Scoped s.inputs) := by
  simp only [scopeLeaf, applyMetricScoping, namingTheLeaf, bind_eq_ok, pure_eq_ok,
    mapError_eq_ok] at h
  obtain ⟨bound, hb, guarded, hg, edges, he, tenancy, ht, scoping,
    ⟨population, hp, guards, hgs, rfl⟩, rfl⟩ := h
  exact ⟨⟨bound, guarded, tenancy, population, guards, hb, hg, he, ht, hp, hgs, rfl, rfl, rfl, rfl,
    rfl, rfl, rfl⟩⟩

theorem LeafCall.Answered.scoped {c : LeafCall} {l : LeafPlan} (h : c.Answered l) :
    Nonempty (c.Scoped l.inputs) := by
  obtain ⟨s, hs, hi⟩ := h.scope
  exact hi ▸ scoped_of_scopeLeaf hs

theorem LeafCall.Answered.ctx_eq {c : LeafCall} {l : LeafPlan} (h : c.Answered l) :
    l.inputs.ctx = c.ctx :=
  h.scoped.elim fun s => s.ctx

theorem LeafCall.Answered.owner_eq {c : LeafCall} {l : LeafPlan} (h : c.Answered l) :
    l.inputs.owner = c.owner :=
  h.scoped.elim fun s => s.owner

/-! ## The calls of a metric -/

/-- The call of one component of a ratio, under the ratio's population. -/
inductive ComponentCalls (ctx : LeafContext) (population : Option String) :
    Binding → LeafCall → Prop
  | single {b : MetricBinding} {s m : String} {bound : SemanticSource × Measure}
      (hof : b.canonical.of = .single s m)
      (hb : bindMeasure "component" b.metric ctx.env.sources s m = .ok bound) :
      ComponentCalls ctx population (.leaf b)
        (simpleCall ctx b.metric ⟨b.metric, s, bound.2⟩
          (combinePopulationFilters [population, b.canonical.populationFilter]))
  | distinctCount {b : MetricBinding} {s column : String} {m : Option String} {d : Dialect}
      {bound : String × String} (hof : b.canonical.of = .distinctCount s column m)
      (hd : ctx.env.adapterFor = .ok d)
      (hb : recomputeColumn ctx.env .distinctCount b.metric s column = .ok bound) :
      ComponentCalls ctx population (.leaf b)
        (recomputeCall ctx b.metric .distinctCount d s column bound
          (combinePopulationFilters [population, b.canonical.populationFilter]))

/-- The calls of `plan_leaf` that planning a metric makes. -/
inductive Calls : LeafContext → String → Binding → LeafCall → Prop
  | simple {ctx : LeafContext} {name : String} {b : MetricBinding} {s m : String}
      {resolved : ResolvedMetric} (hof : b.canonical.of = .single s m)
      (hb : bindMetric name (.leaf b) ctx.env.sources = .ok resolved) :
      Calls ctx name (.leaf b) (simpleCall ctx name resolved b.canonical.populationFilter)
  | opaque_ {ctx : LeafContext} {name : String} {b : MetricBinding} {s m : String}
      {grain : List String} {resolved : ResolvedMetric}
      (hof : b.canonical.of = .opaque_ s m grain)
      (hb : bindMetric name (.leaf b) ctx.env.sources = .ok resolved) :
      Calls ctx name (.leaf b) (opaqueCall ctx name resolved b.canonical.populationFilter grain)
  | distinctCount {ctx : LeafContext} {name : String} {b : MetricBinding} {s column : String}
      {m : Option String} {d : Dialect} {bound : String × String}
      (hof : b.canonical.of = .distinctCount s column m) (hd : ctx.env.adapterFor = .ok d)
      (hb : recomputeColumn ctx.env .distinctCount name s column = .ok bound) :
      Calls ctx name (.leaf b) (recomputeCall ctx name .distinctCount d s column bound
        (combinePopulationFilters [none, b.canonical.populationFilter]))
  | percentile {ctx : LeafContext} {name : String} {b : MetricBinding} {s column q : String}
      {m : Option String} {d : Dialect} {bound : String × String}
      (hof : b.canonical.of = .percentile s column q m) (hd : ctx.env.adapterFor = .ok d)
      (hb : recomputeColumn ctx.env (.percentile q) name s column = .ok bound) :
      Calls ctx name (.leaf b) (recomputeCall ctx name (.percentile q) d s column bound
        (combinePopulationFilters [none, b.canonical.populationFilter]))
  | semiAdditive {ctx : LeafContext} {name : String} {b : MetricBinding} {s m dim : String}
      {agg : CollapseAgg} {plan : SemiAdditive} {collapsed : Bool}
      (hof : b.canonical.of = .semiAdditive s m dim agg)
      (hb : planCollapse ctx name s m dim agg = .ok plan) :
      Calls ctx name (.leaf b)
        (semiAdditiveCall ctx s dim plan collapsed b.canonical.populationFilter)
  | cumulative {ctx : LeafContext} {name : String} {b : MetricBinding} {s m : String}
      {frame : CumulativeBinding} {resolved : ResolvedMetric} {t : RunningTotal}
      (hof : b.canonical.of = .cumulative s m frame)
      (hb : bindMetric name (.leaf b) ctx.env.sources = .ok resolved)
      (ht : planRunningTotal ctx name resolved.source frame = .ok t) :
      Calls ctx name (.leaf b)
        (cumulativeCall ctx name resolved b.canonical.populationFilter frame t)
  | rolling {ctx : LeafContext} {name : String} {b : MetricBinding} {s m : String}
      {frame : CumulativeBinding} {resolved : ResolvedMetric} {w : RollingPlan}
      (hof : b.canonical.of = .cumulative s m frame)
      (hb : bindMetric name (.leaf b) ctx.env.sources = .ok resolved)
      (hw : planWindow ctx name resolved frame = .ok w) :
      Calls ctx name (.leaf b) (rollingCall ctx name resolved b.canonical.populationFilter w)
  | component {ctx : LeafContext} {name : String} {b : MetricBinding} {num den comp : Binding}
      {c : LeafCall} (hcomp : comp ∈ [num, den])
      (h : ComponentCalls ctx b.canonical.populationFilter comp c) :
      Calls ctx name (.composite b num den) c
  | conversions {ctx : LeafContext} {name : String} {b : MetricBinding} {base conv : Binding}
      {params : ConversionParams} {sides : Side × Side} {events : LeafPlan} {measure : Sql.Expr}
      (hs : planSides name base conv params ctx.env.sources = .ok sides)
      (he : (conversionEventsCall ctx name sides.2).plan = .ok events)
      (hm : conversionMeasure ctx.env name conv sides.2 = .ok measure) :
      Calls ctx name (.conversion b base conv params)
        (conversionsCall ctx name ⟨params, sides.1, sides.2, events.select, measure⟩)
  | base {ctx : LeafContext} {name : String} {b : MetricBinding} {base conv : Binding}
      {params : ConversionParams} {c : LeafCall} (h : Calls ctx base.metric base c) :
      Calls ctx name (.conversion b base conv params) c
  | offset {ctx : LeafContext} {name : String} {b : MetricBinding} {base : Binding} {dim : String}
      {off : Duration} {shift : TimeShift × Bool} {c : LeafCall}
      (hs : planShift ctx base dim off = .ok shift)
      (h : Calls (ctx.under (some shift.1) b.canonical.populationFilter) base.metric base c) :
      Calls ctx name (.offset b base dim off) c
  | derived {ctx : LeafContext} {name : String} {b : MetricBinding} {expr : String}
      {names : List String} {inputs : List Binding} {i : Binding} {c : LeafCall}
      (hi : i ∈ inputs)
      (h : Calls (ctx.under none b.canonical.populationFilter) i.metric i c) :
      Calls ctx name (.derived b expr names inputs) c

/-- The call whose answer a conversions leaf has inlined in it: the events of the conversion
side. -/
inductive LeafCall.Inlines : LeafCall → LeafCall → Prop
  | events {ctx : LeafContext} {name : String} {params : ConversionParams} {sides : Side × Side}
      {events : LeafPlan} {measure : Sql.Expr}
      (he : (conversionEventsCall ctx name sides.2).plan = .ok events) :
      Inlines (conversionsCall ctx name ⟨params, sides.1, sides.2, events.select, measure⟩)
        (conversionEventsCall ctx name sides.2)

/-! ## Every planned leaf answers one of them -/

section
variable {ctx : LeafContext} {name : String}

theorem planSimpleAdditive_calls {b : MetricBinding} {s m : String} {pl : MetricLeaves}
    (hof : b.canonical.of = .single s m) (h : planSimpleAdditive ctx name (.leaf b) = .ok pl)
    {l : LeafPlan} (hl : l ∈ pl.leaves) : ∃ c, Calls ctx name (.leaf b) c ∧ c.Answered l := by
  simp only [planSimpleAdditive, bind_eq_ok, pure_eq_ok] at h
  obtain ⟨resolved, hb, leaf, hleaf, rfl⟩ := h
  obtain rfl : l = leaf := by simpa using hl
  exact ⟨_, .simple hof hb, (LeafCall.plan_eq_ok hleaf).1⟩

theorem planOpaque_calls {b : MetricBinding} {s m : String} {grain : List String}
    {pl : MetricLeaves} (hof : b.canonical.of = .opaque_ s m grain)
    (h : planOpaque ctx name (.leaf b) grain = .ok pl) {l : LeafPlan} (hl : l ∈ pl.leaves) :
    ∃ c, Calls ctx name (.leaf b) c ∧ c.Answered l := by
  simp only [planOpaque, bind_eq_ok, pure_eq_ok] at h
  obtain ⟨resolved, hb, leaf, hleaf, rfl⟩ := h
  obtain rfl : l = leaf := by simpa using hl
  exact ⟨_, .opaque_ hof hb, (LeafCall.plan_eq_ok hleaf).1⟩

/-- The only leaf of a recompute metric. -/
theorem planRecomputeAtGrain_eq_ok {b : Binding} {kind : RecomputeKind} {s column : String}
    {parent : Option String} {pl : MetricLeaves}
    (h : planRecomputeAtGrain ctx name b kind s column parent = .ok pl) :
    ∃ d bound l, ctx.env.adapterFor = .ok d ∧
      recomputeColumn ctx.env kind name s column = .ok bound ∧ pl.leaves = [l] ∧
      (recomputeCall ctx name kind d s column bound
        (combinePopulationFilters [parent, b.population])).Answered l := by
  simp only [planRecomputeAtGrain, bind_eq_ok, pure_eq_ok] at h
  obtain ⟨d, hd, bound, hb, leaf, hleaf, rfl⟩ := h
  exact ⟨d, bound, leaf, hd, hb, rfl, (LeafCall.plan_eq_ok hleaf).1⟩

theorem planSemiAdditive_calls {b : MetricBinding} {s m dim : String} {agg : CollapseAgg}
    {pl : MetricLeaves} (hof : b.canonical.of = .semiAdditive s m dim agg)
    (h : planSemiAdditive ctx name (.leaf b) s m dim agg = .ok pl) {l : LeafPlan}
    (hl : l ∈ pl.leaves) : ∃ c, Calls ctx name (.leaf b) c ∧ c.Answered l := by
  simp only [planSemiAdditive, bind_eq_ok, pure_eq_ok] at h
  obtain ⟨plan, hb, dims, -, leaf, hleaf, rfl⟩ := h
  obtain rfl : l = leaf := by simpa using hl
  exact ⟨_, .semiAdditive hof hb, (LeafCall.plan_eq_ok hleaf).1⟩

theorem planCumulative_calls {b : MetricBinding} {s m : String} {frame : CumulativeBinding}
    {pl : MetricLeaves} (hof : b.canonical.of = .cumulative s m frame)
    (h : planCumulative ctx name (.leaf b) frame = .ok pl) {l : LeafPlan} (hl : l ∈ pl.leaves) :
    ∃ c, Calls ctx name (.leaf b) c ∧ c.Answered l := by
  simp only [planCumulative, bind_eq_ok, pure_eq_ok] at h
  obtain ⟨resolved, hb, -, -, t, ht, leaf, hleaf, rfl⟩ := h
  obtain rfl : l = leaf := by simpa using hl
  exact ⟨_, .cumulative hof hb ht, (LeafCall.plan_eq_ok hleaf).1⟩

theorem planRolling_calls {b : MetricBinding} {s m : String} {frame : CumulativeBinding}
    {pl : MetricLeaves} (hof : b.canonical.of = .cumulative s m frame)
    (h : planRolling ctx name (.leaf b) frame = .ok pl) {l : LeafPlan} (hl : l ∈ pl.leaves) :
    ∃ c, Calls ctx name (.leaf b) c ∧ c.Answered l := by
  simp only [planRolling, bind_eq_ok, pure_eq_ok] at h
  obtain ⟨resolved, hb, -, -, w, hw, leaf, hleaf, rfl⟩ := h
  obtain rfl : l = leaf := by simpa using hl
  exact ⟨_, .rolling hof hb hw, (LeafCall.plan_eq_ok hleaf).1⟩

theorem planComponent_calls {comp : Binding} {population : Option String} {l : LeafPlan}
    (h : planComponent ctx comp population = .ok l) :
    ∃ c, ComponentCalls ctx population comp c ∧ c.Answered l := by
  unfold planComponent at h
  split at h
  next source column m b hof =>
    obtain ⟨pl, hpl, h⟩ := bind_eq_ok.mp h
    obtain ⟨d, bound, l', hd, hb, hleaves, hc⟩ := planRecomputeAtGrain_eq_ok hpl
    simp only [hleaves, Except.ok.injEq] at h
    exact ⟨_, .distinctCount hof hd hb, h ▸ hc⟩
  next source measure b hof =>
    obtain ⟨bound, hb, h⟩ := bind_eq_ok.mp h
    exact ⟨_, .single hof hb, (LeafCall.plan_eq_ok h).1⟩
  next => simp at h

theorem planComposite_calls {b : MetricBinding} {num den : Binding} {pl : MetricLeaves}
    (h : planComposite ctx (.composite b num den) num den = .ok pl) {l : LeafPlan}
    (hl : l ∈ pl.leaves) : ∃ c, Calls ctx name (.composite b num den) c ∧ c.Answered l := by
  simp only [planComposite, bind_eq_ok, pure_eq_ok] at h
  obtain ⟨numLeaf, hnum, denLeaf, hden, rfl⟩ := h
  rcases List.mem_pair.mp hl with rfl | rfl
  · obtain ⟨c, hc, ha⟩ := planComponent_calls hnum
    exact ⟨c, .component (by simp) hc, ha⟩
  · obtain ⟨c, hc, ha⟩ := planComponent_calls hden
    exact ⟨c, .component (by simp) hc, ha⟩

theorem planConversionLeaf_calls {b : MetricBinding} {base conv : Binding}
    {params : ConversionParams} {l : LeafPlan}
    (h : planConversionLeaf ctx name base conv params = .ok l) :
    ∃ c, Calls ctx name (.conversion b base conv params) c ∧ c.Answered l := by
  simp only [planConversionLeaf, bind_eq_ok, pure_eq_ok] at h
  obtain ⟨sides, hs, events, he, measure, hm, leaf, hleaf, rfl⟩ := h
  exact ⟨_, .conversions hs he hm, (LeafCall.plan_eq_ok hleaf).1.absorb events⟩

/-- A metric that reads a source, by its kind. -/
theorem planMetric_leaf_calls {b : MetricBinding} {pl : MetricLeaves}
    (h : planMetric ctx name (.leaf b) = .ok pl) {l : LeafPlan} (hl : l ∈ pl.leaves) :
    ∃ c, Calls ctx name (.leaf b) c ∧ c.Answered l := by
  have simple (hnone : (Binding.leaf b).source = none)
      (h : planSimpleAdditive ctx name (.leaf b) = .ok pl) : False := by
    simp [planSimpleAdditive, bindMetric, hnone] at h
  rw [planMetric] at h
  cases hof : b.canonical.of with
  | single s m =>
      rw [hof] at h
      exact planSimpleAdditive_calls hof h hl
  | semiAdditive s m dim agg =>
      rw [hof] at h
      exact planSemiAdditive_calls hof h hl
  | distinctCount s column m =>
      rw [hof] at h
      obtain ⟨d, bound, l', hd, hb, hleaves, hc⟩ := planRecomputeAtGrain_eq_ok h
      obtain rfl : l = l' := by simpa [hleaves] using hl
      exact ⟨_, .distinctCount hof hd hb, hc⟩
  | percentile s column q m =>
      rw [hof] at h
      obtain ⟨d, bound, l', hd, hb, hleaves, hc⟩ := planRecomputeAtGrain_eq_ok h
      obtain rfl : l = l' := by simpa [hleaves] using hl
      exact ⟨_, .percentile hof hd hb, hc⟩
  | cumulative s m frame =>
      rw [hof] at h
      simp only at h
      split at h
      · exact planRolling_calls hof h hl
      · exact planCumulative_calls hof h hl
  | opaque_ s m grain =>
      rw [hof] at h
      exact planOpaque_calls hof h hl
  | ratio | weightedAvg | offset | derived | conversion =>
      rw [hof] at h
      exact (simple (by simp [Binding.source, hof, CanonicalKind.sourceBound]) h).elim

end

mutual
/-- The leaves of a planned metric answer its calls. -/
theorem planMetric_calls {ctx : LeafContext} {name : String} :
    ∀ {b : Binding} {pl : MetricLeaves}, planMetric ctx name b = .ok pl →
      ∀ l ∈ pl.leaves, ∃ c, Calls ctx name b c ∧ c.Answered l
  | .leaf b, pl, h, l, hl => planMetric_leaf_calls h hl
  | .composite b num den, pl, h, l, hl => by
      rw [planMetric] at h
      exact planComposite_calls h hl
  | .offset b base dim off, pl, h, l, hl => by
      simp only [planMetric, bind_eq_ok, pure_eq_ok] at h
      obtain ⟨shift, hs, planned, hp, rfl⟩ := h
      obtain ⟨c, hc, ha⟩ := planMetric_calls hp l hl
      exact ⟨c, .offset hs hc, ha⟩
  | .derived b expr names inputs, pl, h, l, hl => by
      simp only [planMetric, combineDerived, bind_eq_ok, pure_eq_ok] at h
      obtain ⟨planned, hp, template, -, rfl⟩ := h
      obtain ⟨p, hpm, hlp⟩ := List.mem_flatMap.mp hl
      obtain ⟨i, hi, c, hc, ha⟩ := planInputs_calls hp p hpm l hlp
      exact ⟨c, .derived hi hc, ha⟩
  | .conversion b base conv params, pl, h, l, hl => by
      rw [planMetric, planConversion] at h
      split at h
      · simp at h
      · simp only [bind_eq_ok, pure_eq_ok] at h
        obtain ⟨leaf, hleaf, planned, hp, rfl⟩ := h
        rcases List.mem_cons.mp hl with rfl | hl
        · exact planConversionLeaf_calls hleaf
        · obtain ⟨c, hc, ha⟩ := planMetric_calls hp l hl
          exact ⟨c, .base hc, ha⟩

theorem planInputs_calls {ctx : LeafContext} :
    ∀ {bs : List Binding} {ps : List MetricLeaves}, planInputs ctx bs = .ok ps →
      ∀ p ∈ ps, ∀ l ∈ p.leaves, ∃ i ∈ bs, ∃ c, Calls ctx i.metric i c ∧ c.Answered l
  | [], ps, h, p, hp, l, hl => by
      simp only [planInputs, Except.ok.injEq] at h
      simp [← h] at hp
  | b :: bs, ps, h, p, hp, l, hl => by
      simp only [planInputs, bind_eq_ok, pure_eq_ok] at h
      obtain ⟨planned, hb, rest, hbs, rfl⟩ := h
      rcases List.mem_cons.mp hp with rfl | hp
      · obtain ⟨c, hc, ha⟩ := planMetric_calls hb l hl
        exact ⟨b, by simp, c, hc, ha⟩
      · obtain ⟨i, hi, r⟩ := planInputs_calls hbs p hp l hl
        exact ⟨i, by simp [hi], r⟩
end

/-! ## The sources leaves are rooted at -/

@[simp] theorem groupedLeaves_leaf (b : MetricBinding) :
    (Binding.leaf b).groupedLeaves = [.leaf b] := by
  simp only [Binding.groupedLeaves]

theorem mem_groupedLeavesList {bs : List Binding} {lf : Binding} :
    lf ∈ Binding.groupedLeavesList bs ↔ ∃ b ∈ bs, lf ∈ b.groupedLeaves := by
  induction bs with
  | nil => simp [Binding.groupedLeavesList]
  | cons b bs ih => simp [Binding.groupedLeavesList, ih]

theorem bindMetric_eq_ok {name : String} {b : Binding} {ss : Sources} {r : ResolvedMetric}
    (h : bindMetric name b ss = .ok r) :
    r.name = name ∧ b.source = some r.source ∧ b.measure = some r.measure.name := by
  unfold bindMetric at h
  split at h
  next source measure hs hm =>
    simp only [bind_eq_ok, pure_eq_ok] at h
    obtain ⟨bound, hb, rfl⟩ := h
    refine ⟨rfl, hs, ?_⟩
    unfold bindMeasure at hb
    split at hb
    · simp at hb
    · split at hb
      next m hfind =>
        obtain rfl := Except.ok.inj hb
        have hname : m.name = measure := by simpa using List.find?_some hfind
        rw [hm, hname]
      · simp at hb
  · simp at h

theorem sideMetric_source {metric side : String} {b : Binding} {ss : Sources}
    {r : SemanticSource × ResolvedMetric} (h : sideMetric metric side b ss = .ok r) :
    b.source = some r.2.source ∧ b.groupedLeaves = [b] := by
  unfold sideMetric at h
  split at h
  next source m b' hof =>
    split at h
    · simp at h
    · simp only [bind_eq_ok, pure_eq_ok] at h
      obtain ⟨resolved, hb, rfl⟩ := h
      exact ⟨(bindMetric_eq_ok hb).2.1, by simp [Binding.groupedLeaves]⟩
  next source column m b' hof =>
    split at h
    · simp at h
    · obtain rfl := Except.ok.inj h
      have hof' : b'.canonical.of = .distinctCount source column m := hof
      exact ⟨by simp [Binding.source, hof', CanonicalKind.sourceBound],
        by simp [Binding.groupedLeaves]⟩
  · simp at h

theorem planSides_base {name : String} {base conv : Binding} {params : ConversionParams}
    {ss : Sources} {sides : Side × Side} (h : planSides name base conv params ss = .ok sides) :
    base.source = some sides.1.resolved.source ∧ base.groupedLeaves = [base] := by
  simp only [planSides, planSide, bind_eq_ok, pure_eq_ok] at h
  obtain ⟨b, ⟨bound, hb, -, -, -, -, -, -, rfl⟩, c, -, rfl⟩ := h
  exact sideMetric_source hb

theorem ComponentCalls.grouped {ctx : LeafContext} {population : Option String} {b : Binding}
    {c : LeafCall} (h : ComponentCalls ctx population b c) :
    b.source = some c.owner ∧ b.groupedLeaves = [b] := by
  cases h with
  | single hof | distinctCount hof =>
      exact ⟨by simp [Binding.source, hof, CanonicalKind.sourceBound, recomputeCall, simpleCall],
        by simp⟩

/-- A call is rooted at a source whose rows the requested dimensions group. -/
theorem Calls.grouped {ctx : LeafContext} {name : String} {b : Binding} {c : LeafCall}
    (h : Calls ctx name b c) : ∃ lf ∈ b.groupedLeaves, lf.source = some c.owner := by
  induction h with
  | simple hof hb | opaque_ hof hb | cumulative hof hb _ | rolling hof hb _ =>
      exact ⟨_, by rw [groupedLeaves_leaf]; exact List.mem_singleton_self _,
        (bindMetric_eq_ok hb).2.1⟩
  | distinctCount hof | percentile hof | semiAdditive hof =>
      refine ⟨_, by rw [groupedLeaves_leaf]; exact List.mem_singleton_self _, ?_⟩
      simp [Binding.source, hof, CanonicalKind.sourceBound, recomputeCall, semiAdditiveCall]
  | component hcomp hc =>
      obtain ⟨hs, hgr⟩ := hc.grouped
      refine ⟨_, ?_, hs⟩
      rcases List.mem_pair.mp hcomp with rfl | rfl <;> simp [Binding.groupedLeaves, hgr]
  | conversions hs _ _ =>
      obtain ⟨hsrc, hgr⟩ := planSides_base hs
      exact ⟨_, by simp [Binding.groupedLeaves, hgr], hsrc⟩
  | base _ ih =>
      obtain ⟨lf, hlf, hs⟩ := ih
      exact ⟨lf, by simpa [Binding.groupedLeaves] using hlf, hs⟩
  | offset _ _ ih =>
      obtain ⟨lf, hlf, hs⟩ := ih
      exact ⟨lf, by simpa [Binding.groupedLeaves] using hlf, hs⟩
  | derived hi _ ih =>
      obtain ⟨lf, hlf, hs⟩ := ih
      refine ⟨lf, ?_, hs⟩
      rw [Binding.groupedLeaves, if_neg (by simpa using List.ne_nil_of_mem hi)]
      exact mem_groupedLeavesList.mpr ⟨_, hi, hlf⟩

/-- The one leaf of a metric that reads a source. -/
theorem planMetric_leaf_ne_nil {ctx : LeafContext} {name : String} {b : MetricBinding}
    {pl : MetricLeaves} (h : planMetric ctx name (.leaf b) = .ok pl) : pl.leaves ≠ [] := by
  rw [planMetric] at h
  split at h
  · simp only [planSemiAdditive, bind_eq_ok, pure_eq_ok] at h
    obtain ⟨_, -, _, -, _, -, rfl⟩ := h
    simp
  · obtain ⟨_, _, _, -, -, hl, -⟩ := planRecomputeAtGrain_eq_ok h
    simp [hl]
  · obtain ⟨_, _, _, -, -, hl, -⟩ := planRecomputeAtGrain_eq_ok h
    simp [hl]
  · split at h
    · simp only [planRolling, bind_eq_ok, pure_eq_ok] at h
      obtain ⟨_, -, _, -, _, -, _, -, rfl⟩ := h
      simp
    · simp only [planCumulative, bind_eq_ok, pure_eq_ok] at h
      obtain ⟨_, -, _, -, _, -, _, -, rfl⟩ := h
      simp
  · simp only [planOpaque, bind_eq_ok, pure_eq_ok] at h
    obtain ⟨_, -, _, -, rfl⟩ := h
    simp
  · simp only [planSimpleAdditive, bind_eq_ok, pure_eq_ok] at h
    obtain ⟨_, -, _, -, rfl⟩ := h
    simp

theorem leaf_owner {ctx : LeafContext} {name s : String} {b : MetricBinding} {pl : MetricLeaves}
    (h : planMetric ctx name (.leaf b) = .ok pl) (hs : (Binding.leaf b).source = some s) :
    ∃ l ∈ pl.leaves, l.inputs.owner = s := by
  obtain ⟨l, hl⟩ := List.exists_mem_of_ne_nil _ (planMetric_leaf_ne_nil h)
  obtain ⟨c, hc, ha⟩ := planMetric_calls h l hl
  obtain ⟨lf, hlf, hsrc⟩ := hc.grouped
  obtain rfl : lf = .leaf b := by simpa [Binding.groupedLeaves] using hlf
  refine ⟨l, hl, ?_⟩
  rw [ha.owner_eq]
  exact Option.some.inj (hsrc.symm.trans hs)

theorem component_owner {ctx : LeafContext} {comp lf : Binding} {population : Option String}
    {l : LeafPlan} {s : String} (h : planComponent ctx comp population = .ok l)
    (hlf : lf ∈ comp.groupedLeaves) (hs : lf.source = some s) : l.inputs.owner = s := by
  obtain ⟨c, hc, ha⟩ := planComponent_calls h
  obtain ⟨hsrc, hgr⟩ := hc.grouped
  obtain rfl : lf = comp := by simpa [hgr] using hlf
  rw [ha.owner_eq]
  exact Option.some.inj (hsrc.symm.trans hs)

mutual
/-- Every source whose rows a requested dimension groups is the root of a leaf. -/
theorem planMetric_grouped {ctx : LeafContext} {name : String} :
    ∀ {b : Binding} {pl : MetricLeaves}, planMetric ctx name b = .ok pl →
      ∀ lf ∈ b.groupedLeaves, ∀ s, lf.source = some s → ∃ l ∈ pl.leaves, l.inputs.owner = s
  | .leaf b, pl, h, lf, hlf, s, hs => by
      obtain rfl : lf = .leaf b := by simpa [Binding.groupedLeaves] using hlf
      exact leaf_owner h hs
  | .composite b num den, pl, h, lf, hlf, s, hs => by
      rw [planMetric] at h
      simp only [planComposite, bind_eq_ok, pure_eq_ok] at h
      obtain ⟨numLeaf, hnum, denLeaf, hden, rfl⟩ := h
      rw [Binding.groupedLeaves, List.mem_append] at hlf
      rcases hlf with hlf | hlf
      · exact ⟨numLeaf, by simp, component_owner hnum hlf hs⟩
      · exact ⟨denLeaf, by simp, component_owner hden hlf hs⟩
  | .offset b base dim off, pl, h, lf, hlf, s, hs => by
      simp only [planMetric, bind_eq_ok, pure_eq_ok] at h
      obtain ⟨shift, -, planned, hp, rfl⟩ := h
      rw [Binding.groupedLeaves] at hlf
      exact planMetric_grouped hp lf hlf s hs
  | .derived b expr names inputs, pl, h, lf, hlf, s, hs => by
      simp only [planMetric, combineDerived, bind_eq_ok, pure_eq_ok] at h
      obtain ⟨planned, hp, template, -, rfl⟩ := h
      rw [Binding.groupedLeaves] at hlf
      split at hlf
      · simp at hlf
        simp [hlf, Binding.source] at hs
      · obtain ⟨l, hl, ho⟩ := planInputs_grouped hp lf hlf s hs
        exact ⟨l, hl, ho⟩
  | .conversion b base conv params, pl, h, lf, hlf, s, hs => by
      rw [planMetric, planConversion] at h
      split at h
      · simp at h
      · simp only [bind_eq_ok, pure_eq_ok] at h
        obtain ⟨leaf, -, planned, hp, rfl⟩ := h
        rw [Binding.groupedLeaves] at hlf
        obtain ⟨l, hl, ho⟩ := planMetric_grouped hp lf hlf s hs
        exact ⟨l, by simp [hl], ho⟩

theorem planInputs_grouped {ctx : LeafContext} :
    ∀ {bs : List Binding} {ps : List MetricLeaves}, planInputs ctx bs = .ok ps →
      ∀ lf ∈ Binding.groupedLeavesList bs, ∀ s, lf.source = some s →
        ∃ l ∈ ps.flatMap (·.leaves), l.inputs.owner = s
  | [], ps, h, lf, hlf, s, hs => by simp [Binding.groupedLeavesList] at hlf
  | b :: bs, ps, h, lf, hlf, s, hs => by
      simp only [planInputs, bind_eq_ok, pure_eq_ok] at h
      obtain ⟨planned, hb, rest, hbs, rfl⟩ := h
      rw [Binding.groupedLeavesList, List.mem_append] at hlf
      rcases hlf with hlf | hlf
      · obtain ⟨l, hl, ho⟩ := planMetric_grouped hb lf hlf s hs
        exact ⟨l, by simp [hl], ho⟩
      · obtain ⟨l, hl, ho⟩ := planInputs_grouped hbs lf hlf s hs
        exact ⟨l, by simp only [List.flatMap_cons, List.mem_append]; exact .inr hl, ho⟩
end

/-! ## A whole query -/

/-- The range of a query only adds a filter. -/
theorem applyTimeRange_eq_ok {lib : Lib} {q q' : SemanticQuery} {ss : Sources}
    (h : applyTimeRange lib q ss = .ok q') :
    q'.metrics = q.metrics ∧ q'.dimensions = q.dimensions ∧ q'.context = q.context := by
  unfold applyTimeRange at h
  split at h
  · obtain rfl := Except.ok.inj h
    exact ⟨rfl, rfl, rfl⟩
  · simp only [bind_eq_ok, pure_eq_ok] at h
    obtain ⟨_, -, _, -, rfl⟩ := h
    exact ⟨rfl, rfl, rfl⟩

/-- What a plan was made from. -/
structure PlannedFrom (p : Project) (q : SemanticQuery) (principal : Principal) (plan : Plan) :
    Prop where
  query : applyTimeRange p.lib q p.sources = .ok plan.ctx.query
  resolver : plan.ctx.resolver = p.resolver
  caller : plan.ctx.principal = principal
  policy : plan.ctx.policy = p.resolver.authzFor principal
  env : plan.ctx.env = ⟨p.lib, dialectForBindings p plan.bindings, p.sources⟩
  shifts : plan.ctx.shifts = []
  populations : plan.ctx.populations = []
  bindings : resolveQuery p plan.ctx.query (p.resolver.authzFor principal) = .ok plan.bindings
  planned : List.Forall₂ (fun b pl => planMetric plan.ctx b.1 b.2 = .ok pl) plan.bindings
    plan.planned
  probes : latestPeriodProbes plan.ctx.env plan.ctx.query plan.metricLeaves = .ok plan.probes

theorem planQuery_eq_ok {p : Project} {q : SemanticQuery} {principal : Principal} {plan : Plan}
    (h : planQuery p q principal = .ok plan) : PlannedFrom p q principal plan := by
  simp only [planQuery, bind_eq_ok, pure_eq_ok] at h
  obtain ⟨query, hq, -, -, bindings, hb, -, -, planned, hp, probes, hpr, -, -, -, -, rfl⟩ := h
  exact ⟨hq, rfl, rfl, rfl, rfl, rfl, rfl, hb, mapM_eq_ok.mp hp, hpr⟩

theorem compile_eq_ok {p : Project} {q : SemanticQuery} {principal : Principal} {dedup : Bool}
    {r : CompileResult} (h : compile p q principal dedup = .ok r) :
    ∃ plan, planQuery p q principal = .ok plan ∧ ∃ composed,
      compose plan.ctx.env plan.leaves plan.metrics dedup = .ok composed ∧
        r.statement = composed.statement := by
  simp only [compile, emitPlan, bind_eq_ok, pure_eq_ok] at h
  obtain ⟨plan, hp, composed, hc, -, -, rfl⟩ := h
  exact ⟨plan, hp, composed, hc, rfl⟩

/-- A probe answers the call of its anchor. -/
theorem probeLeaf_answered {env : Env} {anchor l : LeafPlan} {m : Measure} {c : LeafCall}
    (henv : c.ctx.env = env) (ha : c.Answered anchor) (h : probeLeaf env anchor m = .ok l) :
    c.Answered l := by
  simp only [probeLeaf, bind_eq_ok, pure_eq_ok] at h
  obtain ⟨e, he, rfl⟩ := h
  have halias (p : Option String) :
      (⟨⟨m.name, anchor.key.source, m⟩, p, some m.name⟩ : LeafMetric).outputAlias = m.name := by
    simp [LeafMetric.outputAlias]
  have hkey := ha.key
  have hctx : anchor.inputs.ctx.env = env := by rw [ha.ctx_eq, henv]
  refine ⟨ha.scope, ha.emit, ?_, by simp [halias], ha.finality, ha.fusable⟩
  simp only [leafKey, bind_eq_ok, pure_eq_ok, hctx] at hkey ⊢
  obtain ⟨shifted, hs, exprs, hx, _, _, hk⟩ := hkey
  refine ⟨shifted, hs, exprs, hx, [(m.name, env.lib.keySql e, m.name)], ?_, by rw [← hk]⟩
  simp [List.mapM_cons, he, halias, pure, Except.pure]

theorem latestPeriodProbes_answered {env : Env} {q : SemanticQuery} {leaves probes : List LeafPlan}
    (h : latestPeriodProbes env q leaves = .ok probes) {l : LeafPlan} (hl : l ∈ probes) :
    ∃ anchor ∈ leaves, ∃ m, probeLeaf env anchor m = .ok l := by
  unfold latestPeriodProbes at h
  split at h
  · obtain rfl := Except.ok.inj h
    simp at hl
  next anchor hanchor =>
    simp only [bind_eq_ok] at h
    obtain ⟨measures, -, hprobes⟩ := h
    obtain ⟨m, -, hm⟩ := forall₂_mem_right (mapM_eq_ok.mp hprobes) hl
    exact ⟨anchor, List.mem_of_find?_eq_some hanchor, m, hm⟩

/-- Planning keeps the environment, the caller and the contracts of its context. -/
structure LeafContext.SameAs (ctx ctx' : LeafContext) : Prop where
  env : ctx.env = ctx'.env
  resolver : ctx.resolver = ctx'.resolver
  principal : ctx.principal = ctx'.principal
  policy : ctx.policy = ctx'.policy
  context : ctx.query.context = ctx'.query.context

theorem LeafContext.SameAs.refl (ctx : LeafContext) : ctx.SameAs ctx := ⟨rfl, rfl, rfl, rfl, rfl⟩

theorem LeafContext.SameAs.trans {ctx ctx' ctx'' : LeafContext} (h : ctx.SameAs ctx')
    (h' : ctx'.SameAs ctx'') : ctx.SameAs ctx'' :=
  ⟨h.env.trans h'.env, h.resolver.trans h'.resolver, h.principal.trans h'.principal,
    h.policy.trans h'.policy, h.context.trans h'.context⟩

theorem LeafCall.Inlines.sameAs {c c' : LeafCall} (h : c.Inlines c') : c'.ctx.SameAs c.ctx := by
  cases h
  exact ⟨rfl, rfl, rfl, rfl, rfl⟩

theorem LeafCall.Inlines.strategy {c c' : LeafCall} (h : c.Inlines c') :
    c.options.strategy = "conversion" := by
  cases h
  rfl

theorem ComponentCalls.ctx_eq {ctx : LeafContext} {population : Option String} {b : Binding}
    {c : LeafCall} (h : ComponentCalls ctx population b c) : c.ctx = ctx := by
  cases h <;> rfl

theorem Calls.sameAs {ctx : LeafContext} {name : String} {b : Binding} {c : LeafCall}
    (h : Calls ctx name b c) : c.ctx.SameAs ctx := by
  induction h with
  | component _ hc =>
      rw [hc.ctx_eq]
      exact .refl _
  | base _ ih => exact ih
  | offset _ _ ih | derived _ _ ih =>
      exact ⟨ih.env, ih.resolver, ih.principal, ih.policy, ih.context⟩
  | _ => exact ⟨rfl, rfl, rfl, rfl, rfl⟩

/-- Every leaf of a metric is grouped by the dimensions the query requests. -/
theorem Calls.dimensions {ctx : LeafContext} {name : String} {b : Binding} {c : LeafCall}
    (h : Calls ctx name b c) : c.ctx.query.dimensions = ctx.query.dimensions := by
  induction h with
  | component _ hc => rw [hc.ctx_eq]
  | base _ ih | offset _ _ ih | derived _ _ ih => exact ih
  | _ => rfl

/-- The calls of `plan_leaf` that the leaves of a plan answer. -/
def Plan.Calls (plan : Plan) (c : LeafCall) : Prop :=
  ∃ b ∈ plan.bindings, Canonic.Calls plan.ctx b.1 b.2 c

/-- Every call of `plan_leaf` behind a plan, those inlined in other leaves included. -/
def Plan.Reads (plan : Plan) (c : LeafCall) : Prop :=
  plan.Calls c ∨ ∃ c', plan.Calls c' ∧ c'.Inlines c

theorem Plan.Calls.sameAs {plan : Plan} {c : LeafCall} (h : plan.Calls c) :
    c.ctx.SameAs plan.ctx := by
  obtain ⟨b, -, hc⟩ := h
  exact hc.sameAs

/-- **Every leaf of a plan answers one of its calls.** -/
theorem planQuery_calls {p : Project} {q : SemanticQuery} {principal : Principal} {plan : Plan}
    (h : PlannedFrom p q principal plan) {l : LeafPlan} (hl : l ∈ plan.leaves) :
    ∃ c, plan.Calls c ∧ c.Answered l := by
  have metric : ∀ l ∈ plan.metricLeaves, ∃ c, plan.Calls c ∧ c.Answered l := by
    intro l hl
    obtain ⟨pl, hpl, hlp⟩ := List.mem_flatMap.mp hl
    obtain ⟨b, hb, hbp⟩ := forall₂_mem_right h.planned hpl
    obtain ⟨c, hc, ha⟩ := planMetric_calls hbp l hlp
    exact ⟨c, ⟨b, hb, hc⟩, ha⟩
  rcases List.mem_append.mp hl with hl | hl
  · exact metric l hl
  · obtain ⟨anchor, hanchor, m, hm⟩ := latestPeriodProbes_answered h.probes hl
    obtain ⟨c, hc, ha⟩ := metric anchor hanchor
    exact ⟨c, hc, probeLeaf_answered hc.sameAs.env ha hm⟩

/-- The sources the leaves of a plan are rooted at are those the requested metrics read. -/
theorem planQuery_owner {p : Project} {q : SemanticQuery} {principal : Principal} {plan : Plan}
    (h : PlannedFrom p q principal plan) {s : String} :
    (∃ l ∈ plan.leaves, l.inputs.owner = s) ↔
      ∃ b ∈ plan.bindings, ∃ lf ∈ b.2.groupedLeaves, lf.source = some s := by
  constructor
  · rintro ⟨l, hl, rfl⟩
    obtain ⟨c, ⟨b, hb, hc⟩, ha⟩ := planQuery_calls h hl
    obtain ⟨lf, hlf, hs⟩ := hc.grouped
    exact ⟨b, hb, lf, hlf, by rw [hs, ha.owner_eq]⟩
  · rintro ⟨b, hb, lf, hlf, hs⟩
    obtain ⟨pl, hpl, hp⟩ := forall₂_mem_left h.planned hb
    obtain ⟨l, hl, ho⟩ := planMetric_grouped hp lf hlf s hs
    exact ⟨l, List.mem_append_left _ (List.mem_flatMap.mpr ⟨pl, hpl, hl⟩), ho⟩

/-! ## From a name to its binding -/

theorem lookupName_eq_ok {r : ContractResolver} {name : String} {b : MetricBinding}
    (h : r.lookupName name = .ok b) : b ∈ r.activeBindings ∧ name ∈ b.names := by
  unfold ContractResolver.lookupName at h
  split at h
  · simp at h
  next b' hidx =>
    obtain rfl := Except.ok.inj h
    have hmem : b' ∈ r.nameIndex name := by simp [hidx]
    simp only [ContractResolver.nameIndex, List.mem_flatMap, List.mem_map, List.mem_filter] at hmem
    obtain ⟨b, hb, n, ⟨hn, hname⟩, rfl⟩ := hmem
    exact ⟨hb, by simpa using (beq_iff_eq.mp hname) ▸ hn⟩
  · simp at h

/-- Resolving what a binding is computed from keeps the binding. -/
theorem resolveBinding_binding {r : ContractResolver} {n : Nat} {seen : List String}
    {b : MetricBinding} {b' : Binding} (h : r.resolveBinding n seen b = .ok b') :
    b'.binding = b := by
  cases n with
  | zero => simp [ContractResolver.resolveBinding] at h
  | succ n =>
      rw [ContractResolver.resolveBinding] at h
      cases hof : b.canonical.of <;> simp only [hof, bind_eq_ok, pure_eq_ok] at h
      case offset =>
        obtain ⟨_, -, rfl⟩ := h
        rfl
      case derived =>
        obtain ⟨_, -, rfl⟩ := h
        rfl
      case conversion =>
        obtain ⟨_, -, _, -, rfl⟩ := h
        rfl
      case ratio =>
        obtain ⟨_, -, _, -, rfl⟩ := h
        rfl
      case weightedAvg =>
        obtain ⟨_, -, _, -, rfl⟩ := h
        rfl
      all_goals exact (Except.ok.inj h) ▸ rfl

/-- A name resolves to a binding that lists it. -/
theorem resolveMetric_eq_ok {r : ContractResolver} {name : String} {b : Binding}
    (h : r.resolveMetric name = .ok b) : name ∈ b.binding.names := by
  simp only [ContractResolver.resolveMetric, bind_eq_ok] at h
  obtain ⟨mb, hlookup, hres⟩ := h
  rw [resolveBinding_binding hres]
  exact (lookupName_eq_ok hlookup).2

/-- All requested names resolve, or the query is refused. -/
theorem resolveAllMetrics_eq_ok {r : ContractResolver} {policy : EffectivePolicy}
    {names : List String} {bs : List (String × Binding)}
    (h : resolveAllMetrics r policy names = .ok bs) :
    bs = resolvedNames r policy names ∧ ∀ n ∈ names, ∃ b, resolveRequested r policy n = .ok b := by
  simp only [resolveAllMetrics] at h
  split at h
  · simp at h
  next hun =>
    split at h
    · simp at h
    next ham =>
      refine ⟨(Except.ok.inj h).symm, fun n hn => ?_⟩
      simp only [ne_eq, not_not] at hun ham
      cases hres : resolveRequested r policy n with
      | ok b => exact ⟨b, rfl⟩
      | error e =>
          -- a failure would be listed, as unresolved or as ambiguous
          cases e with
          | unresolved m =>
              have : n ∈ unresolvedNames r policy names := by
                simp [unresolvedNames, hn, hres]
              simp [hun] at this
          | ambiguous m cs =>
              have : (n, cs.map (·.metric)) ∈ ambiguousNames r policy names := by
                simp only [ambiguousNames, List.mem_filterMap]
                exact ⟨n, hn, by simp [hres]⟩
              simp [ham] at this

theorem resolveQuery_eq_ok {p : Project} {q : SemanticQuery} {policy : EffectivePolicy}
    {bs : List (String × Binding)} (h : resolveQuery p q policy = .ok bs) :
    resolveAllMetrics p.resolver policy q.metrics = .ok bs ∧
      enforceDimensionPolicy policy q.dimensions = .ok () := by
  unfold resolveQuery at h
  split at h
  · simp at h
  · simp only [bind_eq_ok, pure_eq_ok] at h
    obtain ⟨bs', hbs, _, hdims, rfl⟩ := h
    exact ⟨hbs, hdims⟩

theorem resolveRequested_eq_ok {r : ContractResolver} {policy : EffectivePolicy} {name : String}
    {b : Binding} (h : resolveRequested r policy name = .ok b) :
    policy.metricAllowed name = true ∧ r.resolveMetric name = .ok b := by
  unfold resolveRequested at h
  split at h
  next hal => exact ⟨hal, h⟩
  · simp at h

/-- The bindings of a plan are those of the requested names. -/
theorem PlannedFrom.mem_bindings {p : Project} {q : SemanticQuery} {principal : Principal}
    {plan : Plan} (h : PlannedFrom p q principal plan) {name : String} {b : Binding} :
    (name, b) ∈ plan.bindings ↔ name ∈ q.metrics ∧ p.resolver.resolveMetric name = .ok b := by
  obtain ⟨hall, -⟩ := resolveQuery_eq_ok h.bindings
  obtain ⟨hbs, hres⟩ := resolveAllMetrics_eq_ok hall
  rw [(applyTimeRange_eq_ok h.query).1] at hbs hres
  rw [hbs]
  simp only [resolvedNames, List.mem_filterMap]
  constructor
  · rintro ⟨n, hn, hopt⟩
    split at hopt
    next b' hb' =>
      obtain ⟨rfl, rfl⟩ := Prod.mk.inj (Option.some.inj hopt)
      exact ⟨hn, (resolveRequested_eq_ok hb').2⟩
    · simp at hopt
  · rintro ⟨hn, hb⟩
    obtain ⟨b', hb'⟩ := hres name hn
    obtain rfl : b' = b := by
      have := (resolveRequested_eq_ok hb').2
      rw [hb] at this
      exact (Except.ok.inj this).symm
    exact ⟨name, hn, by simp [hb']⟩

end Canonic
