import Canonic.Compiler.Composition
import Canonic.Compiler.Schema

set_option autoImplicit false

/-! # The columns of a statement

A statement shows the requested dimensions, then the requested metrics and the latest-period
probes, then the marker of finality, then the zero-denominator flags. The outer `SELECT` is built
that way (`outerSelect_outputs`). A lone leaf is shown as it is only where its own columns are
those of the plans (`projectionIsOutput`), and each builder names its columns after its metrics. -/

namespace Canonic

open Sql (Expr Query Projection Statement)

/-! ## Builders -/

section
variable {env : Env} {shifted : ShiftMap} {owner : String} {metrics : List ResolvedMetric}
  {dims : List (String × Dimension)} {conditions : List Expr} {edges : List JoinEdge}
  {aliases : List String} {mask : DimMask} {q : Query}

theorem buildSimple_outputs
    (h : buildSimple env shifted owner metrics dims conditions edges aliases mask = .ok q)
    (hlen : aliases.length ≤ metrics.length) :
    q.outputs = dimensionOutputNames dims ++ aliases := by
  simp only [buildSimple, bind_eq_ok, pure_eq_ok] at h
  obtain ⟨dimPs, hd, measurePs, hm, _, -, rfl⟩ := h
  rw [Query.outputs_select, List.map_append, dimProjections_names hd,
    measureProjections_names hm hlen]

theorem buildDeduped_outputs
    (h : buildDeduped env shifted owner metrics dims conditions edges aliases mask = .ok q)
    (hlen : aliases.length ≤ metrics.length) :
    q.outputs = dimensionOutputNames dims ++ aliases := by
  simp only [buildDeduped, bind_eq_ok, pure_eq_ok] at h
  obtain ⟨_, -, measurePs, hm, rfl⟩ := h
  rw [Query.outputs_select, List.map_append, readDims_names, reaggregated_names hm hlen]

end

/-- Every metric it is given has its own column, next to the dimensions. -/
def LeafBuilder.ProjectsAll (b : LeafBuilder) : Prop :=
  ∀ i ms r, b i ms = .ok r → r.1.outputs = i.dimNames ++ ms.map (·.outputAlias)

/-- There is one column next to the dimensions, of the name its metrics have. -/
def LeafBuilder.ProjectsOne (b : LeafBuilder) (name : String) : Prop :=
  ∀ i ms r, ms ≠ [] → (∀ m ∈ ms, m.outputAlias = name) → b i ms = .ok r →
    r.1.outputs = i.dimNames ++ [name]

theorem buildAdditive_projectsAll : LeafBuilder.ProjectsAll buildAdditive := by
  intro i ms r h
  simp only [buildAdditive, emitAdditive, bind_eq_ok, pure_eq_ok] at h
  obtain ⟨-, -, q, hq, rfl⟩ := h
  split at hq
  · exact buildDeduped_outputs hq (by simp)
  · exact buildSimple_outputs hq (by simp)

theorem cumulativeBuilder_projectsAll (orderDims : List Nat) (visibility : List Expr) :
    (cumulativeBuilder orderDims visibility).ProjectsAll := by
  intro i ms r h
  simp only [cumulativeBuilder, bind_eq_ok] at h
  obtain ⟨q, hq, h⟩ := h
  have hout := buildAdditive_projectsAll i ms q hq
  split at h
  · rw [← Except.ok.inj h]
    exact hout
  · simp only [bind_eq_ok, pure_eq_ok] at h
    obtain ⟨_, -, rfl⟩ := h
    exact hout

theorem opaqueBuilder_projectsOne (name : String) (grain : List String) :
    (opaqueBuilder name grain).ProjectsOne name := by
  intro i ms r _ _ h
  simp only [opaqueBuilder] at h
  split at h
  · simp at h
  · split at h
    · simp at h
    · simp only [buildOpaque, bind_eq_ok, pure_eq_ok] at h
      obtain ⟨_, ⟨dimPs, hd, measurePs, hm, _, -, rfl⟩, rfl⟩ := h
      rw [Query.outputs_select, List.map_append, dimProjections_names hd,
        measureProjections_names hm (by simp)]
      rfl

theorem buildRecompute_outputs {i : LeafInputs} {kind : RecomputeKind}
    {alias_ column name : String} {q : Query}
    (h : buildRecompute i kind alias_ column name = .ok q) : q.outputs = i.dimNames ++ [name] := by
  simp only [buildRecompute, bind_eq_ok, pure_eq_ok] at h
  obtain ⟨_, -, dimPs, hd, _, -, rfl⟩ := h
  rw [Query.outputs_select, List.map_append, dimProjections_names hd]
  rfl

theorem recomputeBuilder_projectsOne (dialect : Dialect) (kind : RecomputeKind)
    (alias_ column name : String) :
    (recomputeBuilder dialect kind alias_ column name).ProjectsOne name := by
  intro i ms r _ _ h
  unfold recomputeBuilder at h
  split at h
  · simp only [bind_eq_ok, pure_eq_ok] at h
    obtain ⟨q, hq, rfl⟩ := h
    exact buildRecompute_outputs hq
  · split at h
    · simp at h
    · split at h
      · simp only [bind_eq_ok, pure_eq_ok] at h
        obtain ⟨q, hq, rfl⟩ := h
        exact buildRecompute_outputs hq
      · simp only [buildPercentileFallback, bind_eq_ok, pure_eq_ok] at h
        obtain ⟨_, -, rfl⟩ := h
        rw [Query.outputs_select, List.map_append, readDims_names]
        rfl

theorem semiAdditiveBuilder_projectsOne (s : SemiAdditive) (collapsed : Bool) :
    (semiAdditiveBuilder s collapsed).ProjectsOne s.name := by
  intro i ms r hne _ h
  unfold semiAdditiveBuilder at h
  split at h
  · simp at h
  · split at h
    · unfold buildSemiAdditive at h
      split at h
      · simp only [bind_eq_ok, pure_eq_ok] at h
        obtain ⟨_, -, measurePs, hm, rfl⟩ := h
        rw [Query.outputs_select, List.map_append, readDims_names,
          reaggregated_names hm (by simp)]
      · simp only [bind_eq_ok, pure_eq_ok] at h
        obtain ⟨_, -, rfl⟩ := h
        rw [Query.outputs_select, List.map_append, readDims_names]
        rfl
    · simp only [bind_eq_ok, pure_eq_ok] at h
      obtain ⟨q, hq, rfl⟩ := h
      have hlen : 1 ≤ (ms.map (·.resolved)).length := by
        rw [List.length_map]
        exact List.length_pos_iff.mpr hne
      exact buildSimple_outputs hq hlen

theorem windowProjections_names (i : LeafInputs) (r : Rolling) (source : String)
    (bucket : Expr) : (windowProjections i r source bucket).map (·.name) = i.dimNames := by
  refine List.ext_getElem? fun k => ?_
  rw [windowProjections, List.getElem?_map, List.getElem?_mapIdx]
  cases i.dimNames[k]? <;> rfl

theorem buildWindowed_projectsOne (w : Rolling) (name : String) :
    (buildWindowed w).ProjectsOne name := by
  intro i ms r hne hall h
  cases ms with
  | nil => exact absurd rfl hne
  | cons m ms =>
      have hname : m.outputAlias = name := hall m (by simp)
      simp only [buildWindowed, bind_eq_ok] at h
      obtain ⟨_, -, _, -, h⟩ := h
      split at h
      · rw [← pure_eq_ok.mp h, Query.outputs_select, List.map_append, windowProjections_names,
          ← hname]
        rfl
      · rw [← pure_eq_ok.mp h, Query.outputs_select, List.map_append, windowProjections_names,
          ← hname]
        rfl

/-- A finality leaf has the marker behind its metrics. -/
theorem buildFinalityUnion_outputs {env : Env} {f : FinalityInputs}
    {metrics : List ResolvedMetric} {aliases : List String} {q : Query}
    (h : buildFinalityUnion env f metrics aliases = .ok q)
    (hlen : aliases.length ≤ metrics.length) :
    q.outputs = dimensionOutputNames f.dims ++ aliases ++ [isFinalName] := by
  simp only [buildFinalityUnion, bind_eq_ok] at h
  obtain ⟨branches, hbranches, h⟩ := h
  split at h
  · simp at h
  next b bs =>
    obtain ⟨r, -, hr⟩ := forall₂_mem_right (mapM_eq_ok.mp hbranches) (List.mem_cons_self ..)
    rw [← Except.ok.inj h, Query.outputs_unionAll]
    exact finalityBranch_outputs hr hlen

/-! ## Metrics that are read off a leaf -/

/-- How the columns of a leaf are named: each after its metric, or the only one as its plan reads
it. -/
inductive LeafPlan.Projects (l : LeafPlan) (column : String) : Prop
  | all (b : LeafBuilder) (he : l.emit = .build b) (hb : b.ProjectsAll)
  | one (b : LeafBuilder) (he : l.emit = .build b) (hb : b.ProjectsOne column)
      (hf : l.fusable = false) (m : LeafMetric) (hm : l.metrics = [m])
  | finality (f : FinalityInputs) (he : l.emit = .finality f)
      (hd : f.dims = l.inputs.dimensions)

/-- The metric is one column of its only leaf. -/
def MetricLeaves.ReadOff (pl : MetricLeaves) : Prop :=
  ∃ l column, pl.leaves = [l] ∧ pl.metric.refs = [⟨0, column⟩] ∧ pl.metric.operands = [] ∧
    l.Projects column

theorem LeafCall.plan_metrics {c : LeafCall} {l : LeafPlan} (h : c.plan = .ok l) :
    l.metrics = c.metrics := by
  simp only [LeafCall.plan, planLeaf, bind_eq_ok, pure_eq_ok] at h
  obtain ⟨_, -, _, -, _, -, _, -, rfl⟩ := h
  rfl

/-- The leaf of a call that brings its builder. -/
theorem LeafCall.projects_of_builder {c : LeafCall} {l : LeafPlan} {b : LeafBuilder}
    (h : c.plan = .ok l) (hb : c.options.builder = some b) : l.emit = .build b := by
  rcases leafEmit_eq_ok (LeafCall.plan_eq_ok h).1.emit with ⟨b', hb', he⟩ | ⟨hn, -⟩ | ⟨hn, -⟩
  · rw [hb] at hb'
    rw [he, Option.some.inj hb']
  · rw [hb] at hn
    simp at hn
  · rw [hb] at hn
    simp at hn

theorem LeafCall.projectsOne {c : LeafCall} {l : LeafPlan} {b : LeafBuilder} {column : String}
    {m : LeafMetric} (h : c.plan = .ok l) (hb : c.options.builder = some b)
    (hone : b.ProjectsOne column) (hf : c.options.fusable = false) (hm : c.metrics = [m]) :
    l.Projects column := by
  have hanswered := (LeafCall.plan_eq_ok h).1
  have hmetrics : l.metrics = [m] := (LeafCall.plan_metrics h).trans hm
  exact .one b (LeafCall.projects_of_builder h hb) hone (hanswered.fusable.trans hf) m hmetrics

theorem simpleCall_projects {ctx : LeafContext} {name : String} {resolved : ResolvedMetric}
    {population : Option String} {l : LeafPlan} (column : String)
    (h : (simpleCall ctx name resolved population).plan = .ok l) : l.Projects column := by
  rcases leafEmit_eq_ok (LeafCall.plan_eq_ok h).1.emit with
    ⟨b, hb, -⟩ | ⟨-, he⟩ | ⟨-, rule, timeDim, w, -, he⟩
  · simp [simpleCall] at hb
  · exact .all _ he buildAdditive_projectsAll
  · exact .finality _ he rfl

theorem planMetric_leaf_readOff {ctx : LeafContext} {name : String} {b : MetricBinding}
    {pl : MetricLeaves} (h : planMetric ctx name (.leaf b) = .ok pl) :
    pl.ReadOff ∧ pl.metric.name = name := by
  rw [planMetric] at h
  split at h
  · simp only [planSemiAdditive, planCollapse, bind_eq_ok, pure_eq_ok] at h
    obtain ⟨s, ⟨bound, -, -, -, collapse, -, grain, -, rfl⟩, dims, -, l, hl, rfl⟩ := h
    refine ⟨⟨l, name, rfl, rfl, rfl, ?_⟩, rfl⟩
    exact LeafCall.projectsOne hl rfl (semiAdditiveBuilder_projectsOne _ _) rfl rfl
  · simp only [planRecomputeAtGrain, bind_eq_ok, pure_eq_ok] at h
    obtain ⟨d, -, bound, -, l, hl, rfl⟩ := h
    refine ⟨⟨l, name, rfl, rfl, rfl, ?_⟩, rfl⟩
    exact LeafCall.projectsOne hl rfl (recomputeBuilder_projectsOne _ _ _ _ _) rfl rfl
  · simp only [planRecomputeAtGrain, bind_eq_ok, pure_eq_ok] at h
    obtain ⟨d, -, bound, -, l, hl, rfl⟩ := h
    refine ⟨⟨l, name, rfl, rfl, rfl, ?_⟩, rfl⟩
    exact LeafCall.projectsOne hl rfl (recomputeBuilder_projectsOne _ _ _ _ _) rfl rfl
  · split at h
    · simp only [planRolling, bind_eq_ok, pure_eq_ok] at h
      obtain ⟨_, -, -, -, w, -, l, hl, rfl⟩ := h
      refine ⟨⟨l, name, rfl, rfl, rfl, ?_⟩, rfl⟩
      exact LeafCall.projectsOne hl rfl (buildWindowed_projectsOne _ _) rfl rfl
    · simp only [planCumulative, bind_eq_ok, pure_eq_ok] at h
      obtain ⟨_, -, -, -, t, -, l, hl, rfl⟩ := h
      refine ⟨⟨l, name, rfl, rfl, rfl, ?_⟩, rfl⟩
      exact .all _ (LeafCall.projects_of_builder hl rfl) (cumulativeBuilder_projectsAll _ _)
  · simp only [planOpaque, bind_eq_ok, pure_eq_ok] at h
    obtain ⟨_, -, l, hl, rfl⟩ := h
    refine ⟨⟨l, name, rfl, rfl, rfl, ?_⟩, rfl⟩
    exact LeafCall.projectsOne hl rfl (opaqueBuilder_projectsOne _ _) rfl rfl
  · simp only [planSimpleAdditive, bind_eq_ok, pure_eq_ok] at h
    obtain ⟨_, -, l, hl, rfl⟩ := h
    exact ⟨⟨l, name, rfl, rfl, rfl, simpleCall_projects name hl⟩, rfl⟩

/-- A metric whose value is a column as it stands is read off its leaf. -/
theorem planMetric_readOff {ctx : LeafContext} {name : String} :
    ∀ {b : Binding} {pl : MetricLeaves}, planMetric ctx name b = .ok pl →
      pl.metric.combine = .direct → pl.ReadOff
  | .leaf b, pl, h, _ => (planMetric_leaf_readOff h).1
  | .offset b base dim off, pl, h, hdirect => by
      simp only [planMetric, bind_eq_ok, pure_eq_ok] at h
      obtain ⟨shift, -, planned, hp, rfl⟩ := h
      obtain ⟨l, column, hleaves, hrefs, hops, hl⟩ := planMetric_readOff hp hdirect
      exact ⟨l, column, hleaves, hrefs, hops, hl⟩
  | .composite b num den, pl, h, hdirect => by
      simp only [planMetric, planComposite, bind_eq_ok, pure_eq_ok] at h
      obtain ⟨_, -, _, -, rfl⟩ := h
      simp only [OnZeroDenominator.combine] at hdirect
      split at hdirect <;> simp at hdirect
  | .derived b expr names inputs, pl, h, hdirect => by
      simp only [planMetric, combineDerived, bind_eq_ok, pure_eq_ok] at h
      obtain ⟨_, -, _, -, rfl⟩ := h
      simp at hdirect
  | .conversion b base conv params, pl, h, hdirect => by
      rw [planMetric, planConversion] at h
      split at h
      · simp at h
      · simp only [bind_eq_ok, pure_eq_ok] at h
        obtain ⟨_, -, _, -, rfl⟩ := h
        simp at hdirect

/-- The column of a requested metric: a ratio and a weighted average have the name of their
binding, any other metric the requested one. -/
def Binding.column (name : String) : Binding → String
  | .composite b _ _ => b.metric
  | _ => name

theorem planMetric_name {ctx : LeafContext} {name : String} {b : Binding} {pl : MetricLeaves}
    (h : planMetric ctx name b = .ok pl) : pl.metric.name = b.column name := by
  cases b with
  | leaf b => exact (planMetric_leaf_readOff h).2
  | offset b base dim off =>
      simp only [planMetric, bind_eq_ok, pure_eq_ok] at h
      obtain ⟨_, -, _, -, rfl⟩ := h
      rfl
  | composite b num den =>
      simp only [planMetric, planComposite, bind_eq_ok, pure_eq_ok] at h
      obtain ⟨_, -, _, -, rfl⟩ := h
      rfl
  | derived b expr names inputs =>
      simp only [planMetric, combineDerived, bind_eq_ok, pure_eq_ok] at h
      obtain ⟨_, -, _, -, rfl⟩ := h
      rfl
  | conversion b base conv params =>
      rw [planMetric, planConversion] at h
      split at h
      · simp at h
      · simp only [bind_eq_ok, pure_eq_ok] at h
        obtain ⟨_, -, _, -, rfl⟩ := h
        rfl

/-- Any column but that of a ratio or a weighted average has the requested name. -/
theorem Binding.column_eq {name : String} {b : Binding}
    (h : ∀ c num den, b ≠ .composite c num den) : b.column name = name := by
  cases b with
  | composite c num den => exact absurd rfl (h c num den)
  | leaf | offset | derived | conversion => rfl

/-! ## The outer `SELECT` -/

/-- The columns that flag a zero denominator. -/
def flagColumns (metrics : List MetricPlan) : List String :=
  (metrics.filter countsZeroDenominator).map fun m => zeroDenominatorColumn m.name

/-- The marker column of a statement with a finality leaf. -/
def markerColumn (withIsFinal : Bool) : List String := if withIsFinal then [isFinalName] else []

/-- No running total shows fewer rows than it sums. -/
def ShowsAll (metrics : List MetricPlan) : Prop :=
  ∀ m ∈ metrics.flatMap (·.walk), ∀ a, m.accumulate = some a → a.visibility = false

theorem outerSelect_outputs (env : Env) (n : Named) (single : Bool) (metrics : List MetricPlan) :
    (outerSelect env n single false metrics).outputs = n.dims ++ metrics.map (·.name) ++
      markerColumn n.withIsFinal ++ flagColumns metrics := by
  have hvalues (value : MetricPlan → Expr) :
      (metrics.mapIdx fun _ m => (⟨value m, m.name⟩ : Projection)).map (·.name) =
        metrics.map (·.name) := by
    simp only [List.mapIdx_eq_zipIdx_map, List.map_map, Function.comp_def]
    rw [← Function.comp_def (fun m : MetricPlan => m.name) Prod.fst, ← List.map_map,
      List.zipIdx_map_fst]
  have hmarker : (if n.withIsFinal then
      [(⟨Expr.col isFinalName (dimSource n single), isFinalName⟩ : Projection)] else []).map
        (·.name) = markerColumn n.withIsFinal := by
    unfold markerColumn
    split <;> rfl
  simp only [outerSelect, Query.outputs_select, List.map_append, readDims_names, hmarker,
    Bool.false_eq_true, if_false, hvalues, flagColumns, List.map_map, Function.comp_def]

theorem visibleSelect_outputs (dims : List String) (metrics : List MetricPlan) :
    (visibleSelect dims metrics).outputs = dims ++ metrics.map (·.name) := by
  simp only [visibleSelect, Query.outputs_select, List.map_append, readDims_names,
    List.append_cancel_left_eq]
  refine List.ext_getElem? fun k => ?_
  simp only [List.getElem?_map, List.getElem?_mapIdx]
  cases metrics[k]? <;> rfl

theorem accumulations_eq_nil {leafName : Nat → String} {p : Accumulate → Bool}
    {ms : List MetricPlan} (h : ∀ m ∈ ms, ∀ a, m.accumulate = some a → p a = false) :
    accumulations leafName ms p = [] := by
  unfold accumulations
  induction ms with
  | nil => rfl
  | cons m ms ih =>
      have hrest := ih fun m' hm' => h m' (by simp [hm'])
      rw [List.foldl_cons]
      split
      next acc r rs hacc hrefs =>
        rw [h m (by simp) acc hacc]
        simpa using hrest
      · exact hrest

/-- A running total is not combined with a finality leaf. -/
theorem refuseCumulativeFinality_eq_ok {metrics : List MetricPlan} {withIsFinal : Bool} {u : Unit}
    (h : refuseCumulativeFinality metrics withIsFinal = .ok u) {m : MetricPlan}
    (hm : m ∈ metrics.flatMap (·.walk)) (ha : m.accumulate.isSome = true) :
    withIsFinal = false := by
  unfold refuseCumulativeFinality at h
  split at h
  · split at h
    · simp at h
    next hfinal => simpa using hfinal
  next hnone =>
    have := List.find?_eq_none.mp hnone m hm
    simp [ha] at this

theorem compose_refuse {env : Env} {leaves : List LeafPlan} {metrics : List MetricPlan}
    {dedup : Bool} {res : ComposeResult} (h : compose env leaves metrics dedup = .ok res) :
    refuseCumulativeFinality metrics ((fuse dedup leaves).1.any (·.projectsIsFinal)) =
      .ok () := by
  unfold compose at h
  split at h
  · simp at h
  · obtain ⟨_, hrefuse, -⟩ := bind_eq_ok.mp h
    exact hrefuse

/-- A statement is a lone leaf as it stands, or is composed over named leaves. -/
theorem physicalStatement_eq_ok {env : Env} {dims : List String} {ps : List Physical}
    {ownerOf : List Nat} {metrics : List MetricPlan} {s : Statement × Nat}
    (h : physicalStatement env dims ps ownerOf metrics = .ok s) :
    (∃ p, ps = [p] ∧ projectionIsOutput metrics p = true ∧ loneStatement p = .ok s.1) ∨
      composeStatement env (nameLeaves dims ps ownerOf) metrics = .ok s.1 := by
  unfold physicalStatement at h
  split at h
  next p =>
    split at h
    next hlone =>
      simp only [bind_eq_ok, pure_eq_ok] at h
      obtain ⟨st, hst, rfl⟩ := h
      exact .inl ⟨p, rfl, (Bool.and_eq_true_iff.mp hlone).2, hst⟩
    · simp only [bind_eq_ok, pure_eq_ok] at h
      obtain ⟨st, hst, rfl⟩ := h
      exact .inr hst
  · simp only [bind_eq_ok, pure_eq_ok] at h
    obtain ⟨st, hst, rfl⟩ := h
    exact .inr hst

/-- **The columns of a composed statement**, in order. The flags stand behind the marker, unless
fewer rows are shown than are summed. -/
theorem composeStatement_outputs {env : Env} {n : Named} {metrics : List MetricPlan}
    {s : Statement} (h : composeStatement env n metrics = .ok s)
    (hfinal : ∀ m ∈ metrics.flatMap (·.walk), m.accumulate.isSome = true →
      n.withIsFinal = false) :
    ∃ flags, s.body.outputs = n.dims ++ metrics.map (·.name) ++ markerColumn n.withIsFinal ++
      flags ∧ (ShowsAll metrics → flags = flagColumns metrics) := by
  simp only [composeStatement, bind_eq_ok, pure_eq_ok] at h
  obtain ⟨leaves, -, rfl⟩ := h
  by_cases hall : ShowsAll metrics
  · have hnil : accumulations n.leafName
        ((metrics.flatMap (·.walk)).filter fun m => m.accumulate.isSome)
        (fun a => a.visibility) = [] :=
      accumulations_eq_nil fun m hm => hall m (List.mem_of_mem_filter hm)
    refine ⟨flagColumns metrics, ?_, fun _ => rfl⟩
    simp only [hnil, List.isEmpty_nil, if_true, Bool.not_true]
    exact outerSelect_outputs env n _ metrics
  · cases hvisible : (accumulations n.leafName
        ((metrics.flatMap (·.walk)).filter fun m => m.accumulate.isSome)
        (fun a => a.visibility)).isEmpty with
    | true =>
        refine ⟨flagColumns metrics, ?_, fun h => absurd h hall⟩
        simp only [if_true, Bool.not_true]
        exact outerSelect_outputs env n _ metrics
    | false =>
        -- a running total hides rows, so no leaf is a finality leaf
        have hnot := hall
        unfold ShowsAll at hall
        push Not at hall
        obtain ⟨m, hm, a, ha, -⟩ := hall
        have hmarker := hfinal m hm (by simp [ha])
        refine ⟨[], ?_, fun h => absurd h hnot⟩
        simp only [Bool.false_eq_true, if_false, visibleSelect_outputs, hmarker, markerColumn,
          List.append_nil]

/-! ## Fused leaves -/

/-- Every expression is opened for a leaf, and every leaf has an expression of its group. -/
theorem fuse_opened {dedup : Bool} {leaves : List LeafPlan}
    (halias : ∀ l ∈ leaves, l.measureAliases = l.metrics.map (·.outputAlias)) :
    (∀ p ∈ (fuse dedup leaves).1, Opened leaves p) ∧
      ∀ l ∈ leaves, ∃ p ∈ (fuse dedup leaves).1, p.keyLeaf.groupKey = l.groupKey := by
  cases dedup with
  | true =>
      refine ⟨fun p hp => ?_, fun l hl => ?_⟩
      · obtain ⟨q, hq, rfl⟩ := List.mem_map.mp hp
        exact ((fused_foldl leaves halias).opened q hq).2
      · obtain ⟨i, hi⟩ := List.mem_iff_getElem?.mp hl
        obtain ⟨k, p, -, hp, -, hkey, -⟩ := fuse_served halias hi
        exact ⟨p, List.mem_of_getElem? hp, hkey⟩
  | false =>
      -- every leaf opens an expression of its own
      induction leaves using List.reverseRecOn with
      | nil => exact ⟨by simp [fuse], by simp⟩
      | append_singleton ls l ih =>
          obtain ⟨hopened, hserved⟩ := ih fun x hx => halias x (by simp [hx])
          have hfuse : (fuse false (ls ++ [l])).1 =
              (fuse false ls).1 ++ [serve { keyLeaf := l } l] := by
            simp [fuse, fuseLeaf]
          have hnew := (@serve_spec (ls ++ [l]) { keyLeaf := l } l (by simp)
            (halias l (by simp)) (by simp) rfl (by simp) (by simp) (by simp)).1
          rw [hfuse]
          refine ⟨fun p hp => ?_, fun l' hl' => ?_⟩
          · rcases List.mem_append.mp hp with hp | hp
            · exact (hopened p hp).mono (List.subset_append_left _ _)
            · exact List.mem_singleton.mp hp ▸ hnew
          · rcases List.mem_append.mp hl' with hl' | hl'
            · obtain ⟨p, hp, hkey⟩ := hserved l' hl'
              exact ⟨p, List.mem_append_left _ hp, hkey⟩
            · refine ⟨_, List.mem_append_right _ (List.mem_singleton_self _), ?_⟩
              rw [serve_keyLeaf, List.mem_singleton.mp hl']

/-- The first expression is opened for the first leaf. -/
theorem fuse_head {dedup : Bool} {l : LeafPlan} {ls : List LeafPlan} :
    ((fuse dedup (l :: ls)).1.head?).map (·.keyLeaf) = some l := by
  have run : ∀ (ls : List LeafPlan) (f : Fusion),
      (f.physical.head?).map (·.1.keyLeaf) = some l →
      ((ls.foldl (fuseLeaf dedup) f).physical.head?).map (·.1.keyLeaf) = some l := by
    intro ls
    induction ls with
    | nil => exact fun _ h => h
    | cons x ls ih =>
        intro f hf
        refine ih _ ?_
        obtain ⟨q, hq, hkey⟩ := Option.map_eq_some_iff.mp hf
        obtain ⟨qs, hqs⟩ := List.head?_eq_some_iff.mp hq
        unfold fuseLeaf
        split
        next k hk =>
          cases k with
          | zero => simp [hqs, serve_keyLeaf, hkey]
          | succ k => simp [hqs, hkey]
        · simp [hqs, hkey]
  have hfirst : ((fuseLeaf dedup {} l).physical.head?).map (·.1.keyLeaf) = some l := by
    have hnone : (if dedup then ({} : Fusion).indexOf l.groupKey else none) = none := by
      cases dedup <;> rfl
    simp [fuseLeaf, hnone, serve_keyLeaf]
  have := run ls _ hfirst
  rw [fuse, List.foldl_cons, List.head?_map, Option.map_map]
  exact this

theorem projectsIsFinal_eq_of_groupKey {c c' : LeafCall} {l l' : LeafPlan} (h : c.Answered l)
    (h' : c'.Answered l') (hkey : l.groupKey = l'.groupKey) :
    l.projectsIsFinal = l'.projectsIsFinal := by
  have hfusion := congrArg LeafKey.finality (fusionKey_eq_of_groupKey hkey)
  have hfinality : l.key.finality = l'.key.finality := hfusion
  rw [h.key_of.finality, h'.key_of.finality] at hfinality
  have hw := congrArg Option.isSome (watermark_eq_of_key h.finality h'.finality hfinality)
  rwa [Option.isSome_map, Option.isSome_map] at hw

/-- Some expression has the marker exactly when some leaf is under a finality rule. -/
theorem fuse_any_projectsIsFinal {dedup : Bool} {leaves : List LeafPlan}
    (hcalls : ∀ l ∈ leaves, ∃ c : LeafCall, c.Answered l) :
    ((fuse dedup leaves).1.any (·.projectsIsFinal)) = leaves.any (·.projectsIsFinal) := by
  obtain ⟨hopened, hserved⟩ := @fuse_opened dedup leaves fun l hl =>
    (hcalls l hl).elim fun _ hc => hc.aliases
  rw [Bool.eq_iff_iff, List.any_eq_true, List.any_eq_true]
  constructor
  · rintro ⟨p, hp, hfinal⟩
    exact ⟨p.keyLeaf, (hopened p hp).keyLeaf, hfinal⟩
  · rintro ⟨l, hl, hfinal⟩
    obtain ⟨p, hp, hkey⟩ := hserved l hl
    obtain ⟨c, hc⟩ := hcalls l hl
    obtain ⟨c', hc'⟩ := hcalls _ (hopened p hp).keyLeaf
    exact ⟨p, hp, (projectsIsFinal_eq_of_groupKey hc' hc hkey).trans hfinal⟩

/-! ## A lone leaf -/

theorem leafKey_aliases {i : LeafInputs} {o : LeafOptions} {ms : List LeafMetric} {e : Emit}
    {k : LeafKey} (h : leafKey i o ms e = .ok k) :
    k.measures.map (·.2.2) = ms.map (·.outputAlias) := by
  simp only [leafKey, bind_eq_ok, pure_eq_ok] at h
  obtain ⟨_, -, _, -, measures, hm, rfl⟩ := h
  have hall := mapM_eq_ok.mp hm
  clear hm
  induction hall with
  | nil => rfl
  | cons hab _ ih =>
      simp only [bind_eq_ok, pure_eq_ok] at hab
      obtain ⟨_, -, rfl⟩ := hab
      simp [ih]

/-- The metrics an unmerged expression carries all have the name of the leaf it was opened for. -/
theorem Opened.aliases_of_unmerged {leaves : List LeafPlan} {p : Physical} (ho : Opened leaves p)
    (hcalls : ∀ l ∈ leaves, ∃ c : LeafCall, c.Answered l) (hf : p.keyLeaf.fusable = false)
    {m : LeafMetric} (hm : p.keyLeaf.metrics = [m]) :
    ∀ m' ∈ p.metrics, m'.outputAlias = m.outputAlias := by
  intro m' hm'
  obtain ⟨l, hl, hgroup, hmem⟩ := ho.metrics m' hm'
  obtain ⟨c, hc⟩ := hcalls l hl
  obtain ⟨c', hc'⟩ := hcalls _ ho.keyLeaf
  have hkey : l.key = p.keyLeaf.key := by
    rw [LeafPlan.groupKey, LeafPlan.groupKey, hf] at hgroup
    split at hgroup
    · simp at hgroup
    · exact (Prod.mk.inj hgroup).2
  have haliases : l.metrics.map (·.outputAlias) = [m.outputAlias] := by
    rw [← leafKey_aliases hc.key, hkey, leafKey_aliases hc'.key, hm]
    rfl
  have hin : m'.outputAlias ∈ l.metrics.map (·.outputAlias) := List.mem_map_of_mem hmem
  rw [haliases] at hin
  exact List.mem_singleton.mp hin

/-- **The columns of a leaf that is a statement of its own.** -/
theorem loneStatement_outputs {leaves : List LeafPlan} {p : Physical} {s : Statement}
    {column : String} (ho : Opened leaves p)
    (hcalls : ∀ l ∈ leaves, ∃ c : LeafCall, c.Answered l) (hproj : p.keyLeaf.Projects column)
    (hcolumn : column ∈ p.columns) (h : loneStatement p = .ok s) :
    s.body.outputs = p.keyLeaf.dimNames ++ p.columns ++ markerColumn p.projectsIsFinal := by
  simp only [loneStatement, LeafPlan.rebuild, bind_eq_ok, pure_eq_ok] at h
  obtain ⟨built, hbuilt, rfl⟩ := h
  obtain ⟨c, hc⟩ := hcalls _ ho.keyLeaf
  have hfinal : p.projectsIsFinal = p.keyLeaf.emit.metadata.isSome := by
    rw [Physical.projectsIsFinal, LeafPlan.projectsIsFinal, hc.finality]
  cases hproj with
  | all b he hb =>
      simp only [he, buildLeaf, bind_eq_ok] at hbuilt
      obtain ⟨shifted, -, hbuilt⟩ := hbuilt
      rw [hb _ _ _ hbuilt, ho.columns, hfinal, he]
      exact (List.append_nil _).symm
  | one b he hb hf m hm =>
      simp only [he, buildLeaf, bind_eq_ok] at hbuilt
      obtain ⟨shifted, -, hbuilt⟩ := hbuilt
      have hsame := ho.aliases_of_unmerged hcalls hf hm
      have hcolumns : ∀ a ∈ p.columns, a = m.outputAlias := by
        intro a ha
        rw [ho.columns] at ha
        obtain ⟨m', hm', rfl⟩ := List.mem_map.mp ha
        exact hsame m' hm'
      have hname : column = m.outputAlias := hcolumns column hcolumn
      have hone : p.columns = [column] :=
        eq_singleton_of_nodup ho.nodup hcolumn fun a ha => (hcolumns a ha).trans hname.symm
      have hne : p.metrics ≠ [] := by
        intro hnil
        rw [ho.columns, hnil] at hcolumn
        simp at hcolumn
      rw [hb _ _ _ hne (fun m' hm' => (hsame m' hm').trans hname.symm) hbuilt, hone, hfinal, he]
      exact (List.append_nil _).symm
  | finality f he hd =>
      simp only [he, buildLeaf, bind_eq_ok, pure_eq_ok] at hbuilt
      obtain ⟨q, hq, rfl⟩ := hbuilt
      rw [buildFinalityUnion_outputs hq (by simp), hfinal, he, hd, ho.columns]
      rfl

/-! ## The plans of a query -/

section
variable {p : Project} {q : SemanticQuery} {principal : Principal} {plan : Plan}

theorem MetricPlan.shifted_eq (n : Nat) (m : MetricPlan) :
    m.shifted n = { m with
      refs := m.refs.map fun r => ⟨r.leaf + n, r.column⟩
      operands := MetricPlan.shiftedList n m.operands } := by
  cases m
  rw [MetricPlan.shifted]

theorem joinOperands_names (n : Nat) (ps : List MetricLeaves) :
    (joinOperands n ps).map (·.name) = ps.map (·.metric.name) := by
  induction ps generalizing n with
  | nil => rfl
  | cons pl ps ih => rw [joinOperands, List.map_cons, List.map_cons, ih, MetricPlan.shifted_eq]

theorem mem_joinOperands {n : Nat} {ps : List MetricLeaves} {m : MetricPlan}
    (h : m ∈ joinOperands n ps) : ∃ pl ∈ ps, ∃ k, m = pl.metric.shifted k := by
  induction ps generalizing n with
  | nil => simp [joinOperands] at h
  | cons pl ps ih =>
      rw [joinOperands] at h
      rcases List.mem_cons.mp h with rfl | h
      · exact ⟨pl, by simp, n, rfl⟩
      · obtain ⟨pl', hpl', k, rfl⟩ := ih h
        exact ⟨pl', by simp [hpl'], k, rfl⟩

/-- The requested metrics, then the probes, under their names. -/
theorem Plan.metrics_names (plan : Plan) : plan.metrics.map (·.name) =
    plan.planned.map (·.metric.name) ++ plan.probes.map (·.firstAlias) := by
  have hprobes : (plan.probes.mapIdx (probePlan plan.metricLeaves.length)).map (·.name) =
      plan.probes.map (·.firstAlias) := by
    refine List.ext_getElem? fun k => ?_
    simp only [List.getElem?_map, List.getElem?_mapIdx]
    cases plan.probes[k]? <;> rfl
  rw [Plan.metrics, List.map_append, joinOperands_names, hprobes]

/-- A plan that is one column as it stands divides by nothing. -/
theorem countsZeroDenominator_of_direct {m : MetricPlan} (h : m.combine = .direct)
    (hops : m.operands = []) : countsZeroDenominator m = false := by
  have hpolicy : zeroDenominatorPolicy m = none := by
    simp [zeroDenominatorPolicy, h]
  have hwalk : m.walk = [m] := by
    cases m
    rw [MetricPlan.walk]
    simp only at hops
    rw [hops, MetricPlan.walkList]
  simp [countsZeroDenominator, substitutesZeroDenominator, nullsZeroDenominator, hwalk, hpolicy]

theorem PlannedFrom.bindings_names (h : PlannedFrom p q principal plan) :
    plan.bindings.map (·.1) = q.metrics := by
  obtain ⟨hall, -⟩ := resolveQuery_eq_ok h.bindings
  obtain ⟨hbs, hres⟩ := resolveAllMetrics_eq_ok hall
  rw [(applyTimeRange_eq_ok h.query).1] at hbs hres
  rw [hbs]
  clear hall hbs
  generalize q.metrics = names at hres
  induction names with
  | nil => rfl
  | cons n ns ih =>
      obtain ⟨b, hb⟩ := hres n (by simp)
      rw [resolvedNames, List.filterMap_cons, hb]
      exact congrArg (n :: ·) (ih fun x hx => hres x (by simp [hx]))

theorem PlannedFrom.metric_names (h : PlannedFrom p q principal plan) :
    plan.planned.map (·.metric.name) = plan.bindings.map fun b => b.2.column b.1 := by
  have run : ∀ {bs : List (String × Binding)} {pls : List MetricLeaves},
      List.Forall₂ (fun b pl => planMetric plan.ctx b.1 b.2 = .ok pl) bs pls →
        pls.map (·.metric.name) = bs.map fun b => b.2.column b.1 := by
    intro bs pls hall
    induction hall with
    | nil => rfl
    | cons hb _ ih => rw [List.map_cons, List.map_cons, planMetric_name hb, ih]
  exact run h.planned

/-- A query requests at least one metric. -/
theorem PlannedFrom.planned_ne_nil (h : PlannedFrom p q principal plan) : plan.planned ≠ [] := by
  intro hnil
  have hplanned := h.planned
  rw [hnil, List.forall₂_nil_right_iff] at hplanned
  have hnames := h.bindings_names
  rw [hplanned, List.map_nil, ← (applyTimeRange_eq_ok h.query).1] at hnames
  have hq := h.bindings
  simp [resolveQuery, ← hnames] at hq

/-- The plan behind the only columns a lone leaf is shown with: it is the first leaf, and its own
metric reads one of its columns. -/
theorem PlannedFrom.lone (h : PlannedFrom p q principal plan)
    (hdirect : ∀ m ∈ plan.metrics, m.combine = .direct) :
    ∃ l ls column, plan.leaves = l :: ls ∧ l.Projects column ∧
      column ∈ plan.metrics.flatMap fun m => m.refs.map (·.column) := by
  obtain ⟨pl, pls, hplanned⟩ := List.exists_cons_of_ne_nil h.planned_ne_nil
  obtain ⟨b, -, hb⟩ := forall₂_mem_right h.planned (hplanned ▸ List.mem_cons_self : pl ∈ _)
  have hmem : pl.metric.shifted 0 ∈ plan.metrics := by
    rw [Plan.metrics, hplanned, joinOperands]
    exact List.mem_append_left _ List.mem_cons_self
  have hcombine : pl.metric.combine = .direct := by
    have := hdirect _ hmem
    rwa [MetricPlan.shifted_eq] at this
  obtain ⟨l, column, hleaves, hrefs, -, hproj⟩ := planMetric_readOff hb hcombine
  refine ⟨l, pls.flatMap (·.leaves) ++ plan.probes, column, ?_, hproj, ?_⟩
  · rw [Plan.leaves, Plan.metricLeaves, hplanned, List.flatMap_cons, hleaves]
    rfl
  · refine List.mem_flatMap.mpr ⟨_, hmem, ?_⟩
    rw [MetricPlan.shifted_eq, hrefs]
    exact List.mem_singleton_self column

theorem PlannedFrom.flagColumns_of_direct (h : PlannedFrom p q principal plan)
    (hdirect : ∀ m ∈ plan.metrics, m.combine = .direct) : flagColumns plan.metrics = [] := by
  have hnone : plan.metrics.filter countsZeroDenominator = [] := by
    refine List.filter_eq_nil_iff.mpr fun m hm => ?_
    have hops : m.operands = [] := by
      rcases List.mem_append.mp hm with hm' | hm'
      · obtain ⟨pl, hpl, k, rfl⟩ := mem_joinOperands hm'
        obtain ⟨b, -, hb⟩ := forall₂_mem_right h.planned hpl
        have hcombine := hdirect _ hm
        rw [MetricPlan.shifted_eq] at hcombine ⊢
        obtain ⟨_, _, -, -, hnil, -⟩ := planMetric_readOff hb hcombine
        show MetricPlan.shiftedList k pl.metric.operands = []
        rw [hnil, MetricPlan.shiftedList]
      · obtain ⟨k, -, rfl⟩ := List.mem_mapIdx.mp hm'
        rfl
    rw [countsZeroDenominator_of_direct (hdirect m hm) hops]
    exact Bool.false_ne_true
  rw [flagColumns, hnone, List.map_nil]

/-- **The columns of a planned query's statement.** -/
theorem PlannedFrom.outputs (h : PlannedFrom p q principal plan) {dedup : Bool}
    {res : ComposeResult}
    (hc : compose plan.ctx.env plan.leaves plan.metrics dedup = .ok res) :
    ∃ l ls flags, plan.leaves = l :: ls ∧
      res.statement.body.outputs = l.dimNames ++ plan.metrics.map (·.name) ++
        markerColumn (plan.leaves.any (·.projectsIsFinal)) ++ flags ∧
      (ShowsAll plan.metrics → flags = flagColumns plan.metrics) := by
  have hcalls : ∀ l ∈ plan.leaves, ∃ c : LeafCall, c.Answered l := fun l hl =>
    (planQuery_calls h hl).imp fun _ hc => hc.2
  obtain ⟨l, ls, hleaves⟩ := List.exists_cons_of_ne_nil (compose_ne_nil hc)
  have hany := @fuse_any_projectsIsFinal dedup plan.leaves hcalls
  obtain ⟨count, hst⟩ := compose_physicalStatement hc
  have hdims : (composedOf dedup plan.leaves).dims = l.dimNames := by
    simp [composedOf, nameLeaves, hleaves]
  rw [hdims] at hst
  refine ⟨l, ls, ?_⟩
  rcases physicalStatement_eq_ok hst with ⟨p, hps, hlone, hs⟩ | hs
  · simp only [projectionIsOutput, Bool.and_eq_true, List.all_eq_true, beq_iff_eq] at hlone
    obtain ⟨⟨hdirect, hnames⟩, hrefs⟩ := hlone
    obtain ⟨l', ls', column, hleaves', hproj, hcolumn⟩ := h.lone hdirect
    obtain ⟨rfl, -⟩ := List.cons.inj (hleaves.symm.trans hleaves')
    have hkey : p.keyLeaf = l := by
      have hhead := @fuse_head dedup l ls
      rw [← hleaves, hps] at hhead
      exact Option.some.inj hhead
    have hopened := (@fuse_opened dedup plan.leaves fun l hl =>
      (hcalls l hl).elim fun _ hc => hc.aliases).1 p (by simp [hps])
    have hmarker : plan.leaves.any (·.projectsIsFinal) = p.projectsIsFinal := by
      rw [← hany, hps]
      simp
    refine ⟨[], hleaves, ?_, fun _ => (h.flagColumns_of_direct hdirect).symm⟩
    rw [loneStatement_outputs hopened hcalls (hkey ▸ hproj) (hrefs ▸ hcolumn) hs, hkey, hnames,
      hmarker, List.append_nil]
  · have hfinal := fun (m : MetricPlan) hm ha =>
      @refuseCumulativeFinality_eq_ok plan.metrics _ _ (compose_refuse hc) m hm ha
    obtain ⟨flags, hout, hflags⟩ := composeStatement_outputs hs hfinal
    rw [← hany]
    exact ⟨flags, hleaves, hout, hflags⟩

end

/-! ## The law of the output columns -/

/-- The columns the compiler reports as probes: the flags of the requested metrics, then the
latest periods. -/
def Plan.probeColumns (plan : Plan) : List String :=
  ((plan.bindings.zip plan.metrics).filter fun x => countsZeroDenominator x.2).map
      (fun x => zeroDenominatorColumn x.2.name) ++
    plan.probes.map (·.firstAlias)

/-- A column has the name its metric was requested by, if that is no ratio or weighted average. -/
def NamedAsRequested (b : String × Binding) (column : String) : Prop :=
  (∀ c num den, b.2 ≠ .composite c num den) → column = b.1

/-- The columns of a statement: one for each requested dimension, one for each requested metric in
request order, the latest periods, the marker when a leaf is under a finality rule, and the flags.
Where no running total hides rows, every probe is a column, and what the compiler adds is distinct
from the rest unless the requested names already clash. -/
structure OutputSchema (q : SemanticQuery) (plan : Plan) (dims outputs : List String) : Prop where
  leaf : ∃ l ∈ plan.leaves, dims = l.dimNames
  dimensions : dims.length = q.dimensions.length
  requested : plan.bindings.map (·.1) = q.metrics
  columns : ∃ metrics flags, outputs = dims ++ metrics ++ plan.probes.map (·.firstAlias) ++
    markerColumn (plan.leaves.any (·.projectsIsFinal)) ++ flags ∧
      List.Forall₂ NamedAsRequested plan.bindings metrics ∧
      (ShowsAll plan.metrics → flags = flagColumns plan.metrics)
  probes : ShowsAll plan.metrics → ∀ c ∈ plan.probeColumns, c ∈ outputs
  distinct : ShowsAll plan.metrics → (dims ++ plan.metrics.map (·.name)).Nodup →
    (∀ n ∈ dims ++ plan.metrics.map (·.name), n ≠ isFinalName ∧
      ∀ m, n ≠ zeroDenominatorColumn m) →
    outputs.Nodup ∧ ∀ c ∈ plan.probeColumns, outputs.count c = 1

theorem zeroDenominatorColumn_injective : Function.Injective zeroDenominatorColumn := by
  intro a b h
  exact (String.append_right_inj _).mp h

theorem isFinalName_ne_flag (m : String) : isFinalName ≠ zeroDenominatorColumn m := by
  have hlist : (zeroDenominatorColumn m).toList =
      "_canonic_zero_denominator_".toList ++ m.toList := String.toList_append
  intro h
  have hchars := congrArg String.toList h
  rw [hlist] at hchars
  simp [isFinalName] at hchars

theorem mem_flagColumns {ms : List MetricPlan} {n : String} (h : n ∈ flagColumns ms) :
    ∃ m, n = zeroDenominatorColumn m := by
  obtain ⟨m, -, rfl⟩ := List.mem_map.mp h
  exact ⟨m.name, rfl⟩

theorem flagColumns_nodup {ms : List MetricPlan} (h : (ms.map (·.name)).Nodup) :
    (flagColumns ms).Nodup := by
  have hnames : ((ms.filter countsZeroDenominator).map (·.name)).Nodup :=
    h.sublist (List.filter_sublist.map _)
  have hflags := hnames.map zeroDenominatorColumn_injective
  rwa [List.map_map] at hflags

/-- What the compiler adds to distinct names keeps them distinct. -/
theorem outputs_nodup {shown : List String} {ms : List MetricPlan} {withIsFinal : Bool}
    (hnames : (ms.map (·.name)).Nodup) (hshown : shown.Nodup)
    (hown : ∀ n ∈ shown, n ≠ isFinalName ∧ ∀ m, n ≠ zeroDenominatorColumn m) :
    (shown ++ markerColumn withIsFinal ++ flagColumns ms).Nodup := by
  have hmarker {n : String} (h : n ∈ markerColumn withIsFinal) : n = isFinalName := by
    unfold markerColumn at h
    split at h
    · exact List.mem_singleton.mp h
    · simp at h
  have hmarkerNodup : (markerColumn withIsFinal).Nodup := by
    unfold markerColumn
    split <;> simp
  refine List.nodup_append.mpr ⟨List.nodup_append.mpr ⟨hshown, hmarkerNodup, ?_⟩,
    flagColumns_nodup hnames, ?_⟩
  · intro a ha b hb
    rw [hmarker hb]
    exact (hown a ha).1
  · intro a ha b hb
    obtain ⟨m, rfl⟩ := mem_flagColumns hb
    rcases List.mem_append.mp ha with ha | ha
    · exact (hown a ha).2 m
    · rw [hmarker ha]
      exact isFinalName_ne_flag m

theorem Plan.mem_probeColumns {plan : Plan} {c : String} (h : c ∈ plan.probeColumns) :
    c ∈ flagColumns plan.metrics ∨ c ∈ plan.probes.map (·.firstAlias) := by
  refine (List.mem_append.mp h).imp_left fun hflag => ?_
  obtain ⟨x, hx, rfl⟩ := List.mem_map.mp hflag
  obtain ⟨hzip, hcounts⟩ := List.mem_filter.mp hx
  have hmetric : x.2 ∈ plan.metrics := (List.of_mem_zip hzip).2
  exact List.mem_map.mpr ⟨x.2, List.mem_filter.mpr ⟨hmetric, hcounts⟩, rfl⟩

theorem PlannedFrom.dimNames_length {p : Project} {q : SemanticQuery} {principal : Principal}
    {plan : Plan} (h : PlannedFrom p q principal plan) {l : LeafPlan} (hl : l ∈ plan.leaves) :
    l.dimNames.length = q.dimensions.length := by
  obtain ⟨c, ⟨b, -, hcalls⟩, ha⟩ := planQuery_calls h hl
  have hres := (mapM_eq_ok.mp ha.resolveDimensions).length_eq
  rw [hcalls.dimensions, (applyTimeRange_eq_ok h.query).2.1] at hres
  rw [LeafPlan.dimNames, LeafInputs.dimNames, dimensionOutputNames_length]
  exact hres.symm

/-- **The columns of a compiled query are fixed by its plan**, whichever way the statement is
built. -/
theorem compile_outputs {p : Project} {q : SemanticQuery} {principal : Principal} {dedup : Bool}
    {r : CompileResult} (h : compile p q principal dedup = .ok r) :
    ∃ plan dims, planQuery p q principal = .ok plan ∧
      OutputSchema q plan dims r.statement.body.outputs := by
  obtain ⟨plan, hplan, res, hres, hst⟩ := compile_eq_ok h
  have hfrom := planQuery_eq_ok hplan
  obtain ⟨l, ls, flags, hleaves, hout, hflags⟩ := hfrom.outputs hres
  have hshown : plan.metrics.map (·.name) = plan.bindings.map (fun b => b.2.column b.1) ++
      plan.probes.map (·.firstAlias) := by
    rw [plan.metrics_names, hfrom.metric_names]
  have hprobes : ShowsAll plan.metrics → ∀ c ∈ plan.probeColumns,
      c ∈ r.statement.body.outputs := by
    intro hall c hc
    rw [hst, hout, hflags hall, hshown]
    rcases plan.mem_probeColumns hc with hc | hc
    · exact List.mem_append_right _ hc
    · simp [hc]
  have hmem : l ∈ plan.leaves := hleaves ▸ List.mem_cons_self
  refine ⟨plan, l.dimNames, hplan, ⟨l, hmem, rfl⟩, hfrom.dimNames_length hmem,
    hfrom.bindings_names, ⟨plan.bindings.map fun b => b.2.column b.1, flags, ?_, ?_, hflags⟩,
    hprobes, ?_⟩
  · rw [hst, hout, hshown, ← List.append_assoc]
  · rw [List.forall₂_map_right_iff, List.forall₂_same]
    exact fun b _ hkind => Binding.column_eq hkind
  · intro hall hnodup hown
    have hdistinct : r.statement.body.outputs.Nodup := by
      rw [hst, hout, hflags hall]
      exact outputs_nodup (List.nodup_append.mp hnodup).2.1 hnodup hown
    exact ⟨hdistinct, fun c hc => List.count_eq_one_of_mem hdistinct (hprobes hall c hc)⟩

/-! ### Revenue and visitors, filtered by the day of the booking -/

private def shopTexts : List (String × Expr) :=
  [("SUM(amount)", .node (.agg .sum) [.bare "amount"]),
   ("booked >= '2024-01-01'", .node .gte [.bare "booked", .string "2024-01-01"]),
   ("MAX(visits.booked)", .node (.agg .max) [Expr.col "booked" "visits"])]

private def shopColumns : List Column :=
  [⟨"day", .date, true⟩, ⟨"booked", .date, true⟩, ⟨"amount", .decimal, true⟩]

private def shop (name : String) : SemanticSource where
  name := name
  connection := "wh"
  table := name
  columns := shopColumns
  measures := [{ name := "amount", expr := "SUM(amount)" }]
  dimensions := [{ name := "day", column := some "day" },
    { name := "booked", column := some "booked", timeGrain := some "day" }]
  measures_nodup := List.nodup_singleton "amount"

private def shopRealizations : List Realization :=
  [{ source := "closed_sales", role := .final, watermark := some "business_day", tz := some "UTC" },
   { source := "open_sales", role := .provisional }]

/-- Revenue is under a finality rule; one metric has the name of a dimension. -/
private def shopProject : Project where
  lib := Lib.ofTexts shopTexts
  sources := { list := [shop "closed_sales", shop "open_sales", shop "visits"] }
  resolver := {
    bindings := [
      { metric := "revenue", canonical := { of := .single "closed_sales" "amount" } },
      { metric := "visitors", canonical := { of := .single "visits" "amount" } },
      { metric := "day", canonical := { of := .single "visits" "amount" } }]
    finality := [{ metric := "revenue", realizations := shopRealizations }] }

private def bookedInYear : SemanticQuery where
  metrics := ["revenue", "visitors"]
  dimensions := ["day"]
  filters := ["booked >= '2024-01-01'"]

/-- A probe stands in front of the marker, and a metric can have the name of a dimension. -/
theorem compile_outputs_counterexample :
    (∃ r, compile shopProject bookedInYear {} = .ok r ∧ r.statement.body.outputs =
      ["day", "revenue", "visitors", "_canonic_latest_period_booked", "is_final"]) ∧
    ∃ r, compile shopProject { metrics := ["day"], dimensions := ["day"] } {} = .ok r ∧
      r.statement.body.outputs = ["day", "day"] := by
  constructor
  · obtain ⟨r, hr, hout⟩ := exists_ok_of_any (x := compile shopProject bookedInYear {})
      (P := fun r => r.statement.body.outputs ==
        ["day", "revenue", "visitors", "_canonic_latest_period_booked", "is_final"])
      (by decide +kernel)
    exact ⟨r, hr, beq_iff_eq.mp hout⟩
  · obtain ⟨r, hr, hout⟩ := exists_ok_of_any (x := compile shopProject
        { metrics := ["day"], dimensions := ["day"] } {})
      (P := fun r => r.statement.body.outputs == ["day", "day"]) (by decide +kernel)
    exact ⟨r, hr, beq_iff_eq.mp hout⟩

theorem compile_outputs_visitors :
    ∃ r plan dims, compile shopProject { metrics := ["visitors"], dimensions := ["day"] } {} =
      .ok r ∧ OutputSchema { metrics := ["visitors"], dimensions := ["day"] } plan dims
        r.statement.body.outputs := by
  obtain ⟨r, hr⟩ := exists_ok_of_isOk (x := compile shopProject
    { metrics := ["visitors"], dimensions := ["day"] } {}) (by decide +kernel)
  obtain ⟨plan, dims, -, hschema⟩ := compile_outputs hr
  exact ⟨r, plan, dims, hr, hschema⟩

end Canonic
