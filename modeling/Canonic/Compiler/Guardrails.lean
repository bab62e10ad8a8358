import Canonic.Compiler.Emitted

set_option autoImplicit false

/-! # Mandatory filters

A guardrail that targets a metric is matched on the `source` and `measure` *fields* of that metric's
contract, while a leaf looks its guardrails up by the source and measure it computes. This module
says exactly for which metrics the two meet: a source-bound kind whose `measure` field is what its
leaf computes. There the filter is a conjunct of every `SELECT` over the leaf's rows; everywhere
else the guardrail is applied to no leaf of the metric. -/

namespace Canonic

open Sql (Expr Select Query)

/-! ## Where a guardrail meets a leaf -/

/-- The source and measure a metric's leaf looks its guardrails up by; a recompute kind is looked
up by the physical column it reads. -/
def Binding.guardedAs (ss : Sources) : Binding → Option (String × String)
  | .leaf b =>
      match b.canonical.of with
      | .single s m => some (s, m)
      | .semiAdditive s m _ _ => some (s, m)
      | .opaque_ s m _ => some (s, m)
      | .cumulative s m _ => some (s, m)
      | .distinctCount s column _ => recomputed s column
      | .percentile s column _ _ => recomputed s column
      | _ => none
  | _ => none
where
  recomputed (s column : String) : Option (String × String) :=
    match bindName ss column s (some (buildAliasTree ss s)) with
    | .ok (some bound) => some (s, bound.2)
    | _ => none

/-- The guardrails applied to one metric of a leaf: of those that match, the first of each id. -/
def appliedGuardrails (ctx : LeafContext) (m : ResolvedMetric) : List Guardrail :=
  firstById (·.id) [] (ctx.resolver.guardrailsFor m.source m.measure.name ctx.query.context)

/-- The guardrail reaches the metric: the contract's `source` and `measure` fields are what the leaf
is looked up by, and no other match of the same id comes before it. -/
def Reaches (ctx : LeafContext) (b : Binding) (g : Guardrail) : Prop :=
  ∃ s m, b.guardedAs ctx.env.sources = some (s, m) ∧
    b.binding.canonical.of.sourceBound = some (s, some m) ∧
    ((ctx.resolver.guardrailsFor s m ctx.query.context).find? fun g' => g'.id == g.id) = some g

/-- The condition stands in the `WHERE` of every `SELECT` of the leaf that reads tables, in a
finality branch as it is requalified to the realization. -/
def LeafKeeps (l : LeafPlan) (e : Expr) : Prop :=
  ∀ ms pre r, l.rebuild ms pre = .ok r → ∀ s ∈ emittedSelects r, ReadsNoTable s ∨ e ∈ s.where_ ∨
    ∃ f real, l.emit = .finality f ∧ real ∈ f.rule.realizations ∧
      requalifySource e f.owner real.source ∈ s.where_

/-- The filter of the guardrail, bound to the leaf's owner, is kept. -/
def FilterKept (l : LeafPlan) (g : Guardrail) : Prop :=
  ∃ e, guardrailCondition l.inputs.ctx.env l.inputs.owner g = .ok [e] ∧ LeafKeeps l e

/-! ## The lookup of a metric's contract -/

/-- No two active bindings share a name or an alias, as the loader checks. -/
def ContractResolver.UniqueNames (r : ContractResolver) : Prop :=
  (r.activeBindings.flatMap (·.names)).Nodup

/-- The contract found for a metric name is the one that the metric resolves to. -/
theorem metricToCanonical_eq {r : ContractResolver} (hu : r.UniqueNames) {b : MetricBinding}
    (hb : b ∈ r.activeBindings) : r.metricToCanonical b.metric = b.canonical.of.sourceBound := by
  unfold ContractResolver.UniqueNames at hu
  unfold ContractResolver.metricToCanonical
  obtain ⟨xs, ys, hsplit⟩ := List.append_of_mem hb
  rw [hsplit] at hu ⊢
  -- on either side of the binding no other one has its metric name
  have other : ∀ x ∈ xs ++ ys, x.metric ≠ b.metric := by
    intro x hx heq
    rw [List.flatMap_append, List.flatMap_cons, List.nodup_append] at hu
    obtain ⟨-, hu2, hu3⟩ := hu
    have hbn : b.metric ∈ b.names := by simp [MetricBinding.names]
    have hxn : x.metric ∈ x.names := by simp [MetricBinding.names]
    rcases List.mem_append.mp hx with hx | hx
    · exact hu3 _ (List.mem_flatMap.mpr ⟨x, hx, hxn⟩) _ (List.mem_append_left _ hbn) heq
    · exact (List.nodup_append.mp hu2).2.2 _ hbn _ (List.mem_flatMap.mpr ⟨x, hx, hxn⟩) heq.symm
  have none_of (zs : List MetricBinding) (hz : ∀ x ∈ zs, x.metric ≠ b.metric) :
      (zs.filterMap fun x => if x.metric = b.metric then x.canonical.of.sourceBound else none) =
        [] := by
    rw [List.filterMap_eq_nil_iff]
    intro x hx
    rw [if_neg (hz x hx)]
  rw [List.filterMap_append, List.filterMap_cons, none_of xs fun x hx => other x (by simp [hx]),
    none_of ys fun x hx => other x (by simp [hx])]
  cases b.canonical.of.sourceBound <;> simp

theorem resolveMetric_active {r : ContractResolver} {name : String} {b : Binding}
    (h : r.resolveMetric name = .ok b) : b.binding ∈ r.activeBindings := by
  simp only [ContractResolver.resolveMetric, bind_eq_ok] at h
  obtain ⟨mb, hlookup, hres⟩ := h
  rw [resolveBinding_binding hres]
  exact (lookupName_eq_ok hlookup).1

/-- A metric that is computed from others has no `source` and `measure` fields. -/
theorem resolveBinding_sourceBound {r : ContractResolver} {n : Nat} {seen : List String}
    {mb : MetricBinding} {b : Binding} (h : r.resolveBinding n seen mb = .ok b) :
    (∃ mb', b = .leaf mb') ∨ b.binding.canonical.of.sourceBound = none := by
  have hbind := resolveBinding_binding h
  cases n with
  | zero => simp [ContractResolver.resolveBinding] at h
  | succ n =>
      rw [hbind]
      rw [ContractResolver.resolveBinding] at h
      cases hof : mb.canonical.of <;> simp only [hof] at h
      case offset | derived | conversion | ratio | weightedAvg => exact .inr rfl
      all_goals exact .inl ⟨mb, (Except.ok.inj h).symm⟩

theorem resolveMetric_sourceBound {r : ContractResolver} {name : String} {b : Binding}
    (h : r.resolveMetric name = .ok b) :
    (∃ mb, b = .leaf mb) ∨ b.binding.canonical.of.sourceBound = none := by
  simp only [ContractResolver.resolveMetric, bind_eq_ok] at h
  obtain ⟨mb, -, hres⟩ := h
  exact resolveBinding_sourceBound hres

/-! ## The leaf of a source-bound metric -/

theorem recomputeColumn_eq_ok {env : Env} {kind : RecomputeKind} {name s column : String}
    {bound : String × String} (h : recomputeColumn env kind name s column = .ok bound) :
    bindName env.sources column s (some (buildAliasTree env.sources s)) = .ok (some bound) := by
  simp only [recomputeColumn, bind_eq_ok] at h
  obtain ⟨found, hfound, h⟩ := h
  split at h
  · rw [hfound, Except.ok.inj h]
  · simp at h

theorem planCollapse_eq_ok {ctx : LeafContext} {name s m dim : String} {agg : CollapseAgg}
    {plan : SemiAdditive} (h : planCollapse ctx name s m dim agg = .ok plan) :
    plan.measure.name = m ∧ plan.name = name := by
  simp only [planCollapse, bind_eq_ok, pure_eq_ok] at h
  obtain ⟨bound, hb, _, -, _, -, _, -, rfl⟩ := h
  refine ⟨?_, rfl⟩
  unfold bindMeasure at hb
  split at hb
  · simp at hb
  · split at hb
    next hfind =>
      obtain rfl := Except.ok.inj hb
      simpa using List.find?_some hfind
    · simp at hb

/-- A source-bound metric has one leaf metric, rooted at its source, and it is looked up by the
source and measure it computes. -/
theorem Calls.guardedAs {ctx : LeafContext} {name : String} {mb : MetricBinding} {c : LeafCall}
    (h : Calls ctx name (.leaf mb) c) :
    ∃ m, c.metrics = [m] ∧ m.resolved.source = c.owner ∧
      (Binding.leaf mb).guardedAs ctx.env.sources =
        some (m.resolved.source, m.resolved.measure.name) := by
  have measured {resolved : ResolvedMetric}
      (hb : bindMetric name (.leaf mb) ctx.env.sources = .ok resolved) {s m : String}
      (hs : (Binding.leaf mb).source = some s) (hm : (Binding.leaf mb).measure = some m) :
      s = resolved.source ∧ m = resolved.measure.name := by
    obtain ⟨-, hs', hm'⟩ := bindMetric_eq_ok hb
    exact ⟨Option.some.inj (hs.symm.trans hs'), Option.some.inj (hm.symm.trans hm')⟩
  cases h with
  | simple hof hb | opaque_ hof hb | cumulative hof hb _ | rolling hof hb _ =>
      refine ⟨_, rfl, rfl, ?_⟩
      obtain ⟨h1, h2⟩ := measured hb (by simp [Binding.source, hof, CanonicalKind.sourceBound]; rfl)
        (by simp [Binding.measure, hof]; rfl)
      simp [Binding.guardedAs, hof, h1, h2]
  | distinctCount hof hd hb | percentile hof hd hb =>
      refine ⟨_, rfl, rfl, ?_⟩
      simp [Binding.guardedAs, hof, Binding.guardedAs.recomputed, recomputeColumn_eq_ok hb,
        syntheticMeasure]
  | semiAdditive hof hb =>
      refine ⟨_, rfl, rfl, ?_⟩
      simp [Binding.guardedAs, hof, (planCollapse_eq_ok hb).1]

/-! ## What is applied -/

theorem mem_appliedGuardrails {ctx : LeafContext} {m : ResolvedMetric} {g : Guardrail} :
    g ∈ appliedGuardrails ctx m ↔
      ((ctx.resolver.guardrailsFor m.source m.measure.name ctx.query.context).find?
        fun g' => g'.id == g.id) = some g := by
  simp [appliedGuardrails, mem_firstById]

theorem mem_guardrailsFor {r : ContractResolver} {s m : String} {context : Option String}
    {g : Guardrail} :
    g ∈ r.guardrailsFor s m context ↔ g ∈ r.guardrails ∧ r.guardrailApplies g s m = true := by
  simp [ContractResolver.guardrailsFor, ContractResolver.byId, List.mem_insertionSort]

/-- The filter of a mandatory filter, bound. -/
theorem guardrailCondition_mandatory {env : Env} {source : String} {g : Guardrail}
    (hk : g.kind = .mandatoryFilter) {es : List Expr}
    (h : guardrailCondition env source g = .ok es) :
    ∃ e, es = [e] := by
  have hf := g.filter_required hk
  unfold guardrailCondition at h
  split at h
  next hnone =>
    simp only [Guardrail.activeFilter, Option.filter_eq_none_iff] at hnone
    cases hfil : g.filter with
    | none => simp [hfil] at hf
    | some f =>
        rw [hfil] at hf
        have := hnone f hfil
        simp at this hf
        exact absurd this hf
  · simp only [bind_eq_ok, pure_eq_ok] at h
    obtain ⟨_, -, bound, -, rfl⟩ := h
    exact ⟨_, rfl⟩

/-- An applied mandatory filter is among the conditions of a leaf with that metric. -/
theorem LeafCall.Scoped.mandatory_mem {c : LeafCall} {i : LeafInputs} (sc : c.Scoped i)
    {m : LeafMetric} (hm : c.metrics = [m]) {g : Guardrail} (hk : g.kind = .mandatoryFilter)
    (hg : g ∈ appliedGuardrails c.ctx m.resolved) :
    ∃ e, guardrailCondition c.ctx.env m.resolved.source g = .ok [e] ∧ e ∈ i.conditions := by
  have hguards := sc.guards_eq
  rw [hm] at hguards
  obtain ⟨gd, hgd, hone⟩ : ∃ gd, enforceGuardrails c.ctx.env c.ctx.resolver c.ctx.query.context
      m.resolved = .ok gd ∧ sc.guards = [gd] := by
    simp only [List.mapM_cons, List.mapM_nil, bind_eq_ok, pure_eq_ok] at hguards
    obtain ⟨gd, hgd, _, rfl, h⟩ := hguards
    exact ⟨gd, hgd, h.symm⟩
  simp only [enforceGuardrails, bind_eq_ok, pure_eq_ok] at hgd
  obtain ⟨conditions, hconditions, _, -, rfl⟩ := hgd
  obtain ⟨es, hes, hcond⟩ := forall₂_mem_left (mapM_eq_ok.mp hconditions) hg
  obtain ⟨e, rfl⟩ := guardrailCondition_mandatory hk hcond
  refine ⟨e, hcond, ?_⟩
  rw [sc.conditions, hone]
  exact List.mem_append_right _ (List.mem_flatten.mpr ⟨_, hes, by simp⟩)

/-- A condition of a leaf without inlined events is kept in every `SELECT` of it. -/
theorem Calls.leafKeeps {ctx : LeafContext} {name : String} {mb : MetricBinding} {c : LeafCall}
    (h : Calls ctx name (.leaf mb) c) {l : LeafPlan} (ha : c.Answered l) {e : Expr}
    (he : e ∈ l.inputs.conditions) : LeafKeeps l e := by
  intro ms pre r hr s hs
  have hsel : LeafSelect l s := by
    rcases h.leafSelect ha hr hs with hsel | ⟨c', l', hin, -, -⟩
    · exact hsel
    · have := hin.strategy
      cases h with
      | distinctCount | percentile => simp [recomputeCall, RecomputeKind.texts] at this
      | _ => simp [simpleCall, opaqueCall, semiAdditiveCall, cumulativeCall, rollingCall] at this
  cases hsel with
  | noTable h => exact .inl h
  | rows h => exact .inr (.inl (h.where_ e he))
  | branch f real hf b h =>
      have hemit := ha.emit
      rw [hf] at hemit
      have hparts : f.conditions = l.inputs.conditions := by
        rcases leafEmit_eq_ok hemit with ⟨_, -, h⟩ | ⟨-, h⟩ | ⟨-, _, _, _, -, h⟩
        · simp at h
        · simp at h
        · obtain rfl := Emit.finality.inj h
          rfl
      refine .inr (.inr ⟨f, real, hf, b.mem, h.where_ _ ?_⟩)
      rw [Branch.conditions, hparts]
      exact List.mem_append_left _ (List.mem_map.mpr ⟨e, he, rfl⟩)

/-- A guardrail on a metric matches only the source and measure fields of its contract. -/
theorem sourceBound_of_applied {ctx : LeafContext} (hu : ctx.resolver.UniqueNames)
    {mb : MetricBinding} (hmb : mb ∈ ctx.resolver.activeBindings) {g : Guardrail}
    (hat : g.appliesTo = .metric mb.metric) {m : ResolvedMetric}
    (h : g ∈ appliedGuardrails ctx m) :
    mb.canonical.of.sourceBound = some (m.source, some m.measure.name) := by
  have hmem := mem_guardrailsFor.mp (List.mem_of_find?_eq_some (mem_appliedGuardrails.mp h))
  have happ := hmem.2
  rw [ContractResolver.guardrailApplies, hat] at happ
  rw [← metricToCanonical_eq hu hmb]
  simpa using happ

/-- **Exactly when a mandatory filter on a metric is enforced.** Where the guardrail reaches the
metric, its filter is a conjunct in every leaf that computes the metric's value; everywhere else it
is applied to none of them. -/
theorem mandatoryFilter_enforced {p : Project} {q : SemanticQuery} {principal : Principal}
    {plan : Plan} (h : planQuery p q principal = .ok plan) (hu : p.resolver.UniqueNames)
    {name : String} {b : Binding} (hb : (name, b) ∈ plan.bindings) {pl : MetricLeaves}
    (hpl : planMetric plan.ctx name b = .ok pl) {g : Guardrail}
    (hk : g.kind = .mandatoryFilter) (hat : g.appliesTo = .metric b.metric) :
    (Reaches plan.ctx b g → ∀ l ∈ pl.leaves, FilterKept l g) ∧
      (¬ Reaches plan.ctx b g → ∀ c, Calls plan.ctx name b c → ∀ m ∈ c.metrics,
        g ∉ appliedGuardrails c.ctx m.resolved) := by
  have hfrom := planQuery_eq_ok h
  obtain ⟨-, hres⟩ := hfrom.mem_bindings.mp hb
  have hactive := resolveMetric_active hres
  -- a call looks guardrails up in the contracts and the context of the query
  have applied {c : LeafCall} (hc : Calls plan.ctx name b c) (m : ResolvedMetric) :
      appliedGuardrails c.ctx m = appliedGuardrails plan.ctx m := by
    simp only [appliedGuardrails, hc.sameAs.resolver, hc.sameAs.context]
  constructor
  · rintro ⟨s, m, hguarded, -, hfirst⟩ l hl
    obtain ⟨c, hc, ha⟩ := planMetric_calls hpl l hl
    obtain ⟨mb, rfl⟩ : ∃ mb, b = .leaf mb := by
      cases b with
      | leaf mb => exact ⟨mb, rfl⟩
      | composite | offset | derived | conversion => simp [Binding.guardedAs] at hguarded
    obtain ⟨lm, hone, hsrc, hlm⟩ := hc.guardedAs
    obtain ⟨rfl, rfl⟩ := Prod.mk.inj (Option.some.inj (hguarded.symm.trans hlm))
    obtain ⟨sc⟩ := ha.scoped
    obtain ⟨e, hcond, he⟩ := sc.mandatory_mem hone hk (by
      rw [applied hc]
      exact mem_appliedGuardrails.mpr hfirst)
    refine ⟨e, ?_, hc.leafKeeps ha he⟩
    rw [sc.ctx, sc.owner, ← hsrc]
    exact hcond
  · intro hno c hc m hm hmem
    rw [applied hc] at hmem
    have hsb := sourceBound_of_applied (by rw [hfrom.resolver]; exact hu)
      (by rw [hfrom.resolver]; exact hactive) hat hmem
    rcases resolveMetric_sourceBound hres with ⟨mb, rfl⟩ | hnone
    · obtain ⟨lm, hone, hsrc, hlm⟩ := hc.guardedAs
      rw [hone, List.mem_singleton] at hm
      subst hm
      exact hno ⟨_, _, hlm, hsb, mem_appliedGuardrails.mp hmem⟩
    · simp [hnone] at hsb

/-! ### Paid orders -/

private def orderTexts : List (String × Expr) :=
  [("SUM(amount)", .node (.agg .sum) [Expr.bare "amount"]),
   ("customer_id", Expr.bare "customer_id"),
   ("status = 'paid'", .mkEq (Expr.bare "status") (.string "paid"))]

private def orders : SemanticSource where
  name := "orders"
  connection := "wh"
  table := "orders"
  columns := [⟨"customer_id", .int, true⟩, ⟨"status", .string, true⟩, ⟨"amount", .decimal, true⟩]
  measures := [{ name := "amount", expr := "SUM(amount)" }]
  measures_nodup := List.nodup_singleton "amount"

/-- Only paid orders count, for one of the metrics. -/
private def paidOnly (metric : String) : Guardrail where
  id := "paid-only"
  appliesTo := .metric metric
  kind := .mandatoryFilter
  filter := some "status = 'paid'"

/-- Revenue and the number of buyers, both on the orders. -/
private def ordersProject (metric : String) : Project where
  lib := Lib.ofTexts orderTexts
  sources := { list := [orders] }
  resolver := {
    bindings := [
      { metric := "revenue", canonical := { of := .single "orders" "amount" } },
      { metric := "buyers", canonical := { of := .distinctCount "orders" "customer_id" none } }]
    guardrails := [paidOnly metric] }

/-- A distinct count carries no `measure`, so a filter that is mandatory for it is in no leaf. -/
theorem mandatoryFilter_enforced_counterexample :
    (∃ r, compile (ordersProject "buyers") { metrics := ["buyers"] } {} = .ok r) ∧
      (ordersProject "buyers").resolver.UniqueNames ∧
      ∃ plan, planQuery (ordersProject "buyers") { metrics := ["buyers"] } {} = .ok plan ∧
        ∃ l ∈ plan.metricLeaves, ¬ FilterKept l (paidOnly "buyers") := by
  refine ⟨exists_ok_of_isOk (by decide +kernel), by unfold ContractResolver.UniqueNames; decide, ?_⟩
  obtain ⟨plan, hplan, hbare⟩ := exists_ok_of_any
    (x := planQuery (ordersProject "buyers") { metrics := ["buyers"] } {})
    (P := fun plan => plan.metricLeaves.any fun l => (l.rebuild l.metrics "").toOption.any
      fun r => (emittedSelects r).any fun s => !s.scans.isEmpty && s.where_.isEmpty)
    (by decide +kernel)
  refine ⟨plan, hplan, ?_⟩
  obtain ⟨l, hl, hrebuild⟩ := List.any_eq_true.mp hbare
  obtain ⟨r, hr, hemitted⟩ := exists_ok_of_any hrebuild
  obtain ⟨s, hs, hbare⟩ := List.any_eq_true.mp hemitted
  simp only [Bool.and_eq_true, Bool.not_eq_true', List.isEmpty_eq_false_iff,
    List.isEmpty_iff] at hbare
  refine ⟨l, hl, fun ⟨e, _, hkeeps⟩ => ?_⟩
  rcases hkeeps _ _ r hr s hs with hno | hmem | ⟨f, real, -, -, hmem⟩
  · exact hbare.1 hno
  · simp [hbare.2] at hmem
  · simp [hbare.2] at hmem

/-- The same filter on the revenue is kept. -/
theorem mandatoryFilter_enforced_revenue :
    ∃ plan pl b, planQuery (ordersProject "revenue") { metrics := ["revenue"] } {} = .ok plan ∧
      planMetric plan.ctx "revenue" b = .ok pl ∧ pl.leaves ≠ [] ∧
      ∀ l ∈ pl.leaves, FilterKept l (paidOnly "revenue") := by
  obtain ⟨plan, hplan⟩ := exists_ok_of_isOk
    (x := planQuery (ordersProject "revenue") { metrics := ["revenue"] } {}) (by decide +kernel)
  have hfrom := planQuery_eq_ok hplan
  obtain ⟨b, hb⟩ : ∃ b, (ordersProject "revenue").resolver.resolveMetric "revenue" = .ok b :=
    ⟨_, rfl⟩
  have hmem := hfrom.mem_bindings.mpr ⟨by simp, hb⟩
  obtain ⟨pl, -, hpl⟩ := forall₂_mem_left hfrom.planned hmem
  refine ⟨plan, pl, b, hplan, hpl, ?_, ?_⟩
  · obtain rfl := Except.ok.inj hb
    exact planMetric_leaf_ne_nil hpl
  · refine (mandatoryFilter_enforced hplan (by unfold ContractResolver.UniqueNames; decide) hmem
      hpl rfl ?_).1 ?_
    · obtain rfl := Except.ok.inj hb
      rfl
    · obtain rfl := Except.ok.inj hb
      refine ⟨"orders", "amount", rfl, rfl, ?_⟩
      rw [hfrom.resolver]
      rfl

end Canonic
