import Canonic.Compiler.Prefilters
import Canonic.Compiler.Outputs

set_option autoImplicit false

/-! # Time ranges

A typed range becomes one more filter of the query. Besides, it is read in two places only: an
offset that moves its column and a windowed metric along its column narrow the rows they scan. A
query in which neither happens is planned as the query with the filter alone is: `untyped` forgets
the range, every step of the pipeline commutes with it, and nothing that is emitted shows it. -/

namespace Canonic

open Sql (Expr Query)

/-! ## Forgetting the range -/

def SemanticQuery.untyped (q : SemanticQuery) : SemanticQuery := { q with timeRange := none }

def LeafContext.untyped (ctx : LeafContext) : LeafContext := { ctx with query := ctx.query.untyped }

def LeafInputs.untyped (i : LeafInputs) : LeafInputs := { i with ctx := i.ctx.untyped }

def LeafScope.untyped (s : LeafScope) : LeafScope := { s with inputs := s.inputs.untyped }

def LeafPlan.untyped (l : LeafPlan) : LeafPlan := { l with inputs := l.inputs.untyped }

def MetricLeaves.untyped (m : MetricLeaves) : MetricLeaves :=
  { m with leaves := m.leaves.map LeafPlan.untyped }

def Physical.untyped (p : Physical) : Physical := { p with keyLeaf := p.keyLeaf.untyped }

/-! ## Builders -/

/-- A builder that does not read the range. -/
def LeafBuilder.Blind (b : LeafBuilder) : Prop := ∀ i metrics, b i.untyped metrics = b i metrics

/-- An emission that does not read the range. -/
def Emit.Blind (e : Emit) : Prop := ∀ b, e = .build b → LeafBuilder.Blind b

theorem buildAdditive_blind : LeafBuilder.Blind buildAdditive := fun _ _ => rfl

theorem opaqueBuilder_blind (name : String) (grain : List String) :
    LeafBuilder.Blind (opaqueBuilder name grain) := fun _ _ => rfl

theorem recomputeBuilder_blind (d : Dialect) (kind : RecomputeKind) (a column name : String) :
    LeafBuilder.Blind (recomputeBuilder d kind a column name) := fun _ _ => rfl

theorem semiAdditiveBuilder_blind (s : SemiAdditive) (collapsed : Bool) :
    LeafBuilder.Blind (semiAdditiveBuilder s collapsed) := fun _ _ => rfl

theorem cumulativeBuilder_blind (orderDims : List Nat) (visibility : List Expr) :
    LeafBuilder.Blind (cumulativeBuilder orderDims visibility) := fun _ _ => rfl

theorem buildWindowed_blind (r : Rolling) : LeafBuilder.Blind (buildWindowed r) := fun _ _ => rfl

theorem buildConversions_blind (metric : String) (c : Conversions) :
    LeafBuilder.Blind (buildConversions metric c) := fun _ _ => rfl

theorem buildLeaf_untyped {e : Emit} (he : e.Blind) (i : LeafInputs) (metrics : List LeafMetric)
    (namePrefix : String) :
    buildLeaf i.untyped e metrics namePrefix = buildLeaf i e metrics namePrefix := by
  cases e with
  | finality f => rfl
  | build b =>
      unfold buildLeaf
      show (resolveShifts i.ctx.env i.ctx.shifts i.owner i.tree >>= fun shifted =>
        b (LeafInputs.untyped { i with namePrefix := namePrefix, shifted := shifted }) metrics) = _
      refine bind_congr fun shifted => ?_
      exact he b rfl _ _

/-! ## Leaves -/

theorem scopeLeaf_untyped (ctx : LeafContext) (owner : String) (metrics : List LeafMetric) :
    scopeLeaf ctx.untyped owner metrics = LeafScope.untyped <$> scopeLeaf ctx owner metrics := by
  unfold scopeLeaf
  simp only [map_bind, map_pure]
  rfl

/-- What a call emits does not read the range when its builder does not. -/
theorem leafEmit_blind {ctx : LeafContext} {i : LeafInputs} {o : LeafOptions} {e : Emit}
    (ho : ∀ b ∈ o.builder, LeafBuilder.Blind b) (h : leafEmit ctx i o = .ok e) : e.Blind := by
  intro b hb
  rcases leafEmit_eq_ok h with ⟨b', hb', he⟩ | ⟨-, he⟩ | ⟨-, _, _, _, -, he⟩
  · obtain rfl : b' = b := Emit.build.inj (he.symm.trans hb)
    exact ho b' hb'
  · obtain rfl : buildAdditive = b := Emit.build.inj (he.symm.trans hb)
    exact buildAdditive_blind
  · cases he.symm.trans hb

theorem planLeaf_untyped {o : LeafOptions} (ho : ∀ b ∈ o.builder, LeafBuilder.Blind b)
    (ctx : LeafContext) (owner : String) (metrics : List LeafMetric) :
    planLeaf ctx.untyped owner metrics o = LeafPlan.untyped <$> planLeaf ctx owner metrics o := by
  unfold planLeaf
  rw [scopeLeaf_untyped]
  simp only [map_bind, map_pure, bind_map_left]
  refine bind_congr fun scope => ?_
  show (leafEmit ctx scope.inputs o >>= _) = _
  cases hemit : leafEmit ctx scope.inputs o with
  | error e => rfl
  | ok emit =>
      show (buildLeaf scope.inputs.untyped emit metrics "" >>= _) = _
      rw [buildLeaf_untyped (leafEmit_blind ho hemit)]
      rfl

def LeafCall.untyped (c : LeafCall) : LeafCall := { c with ctx := c.ctx.untyped }

/-- A call whose builder does not read the range. -/
def LeafCall.Blind (c : LeafCall) : Prop := ∀ b ∈ c.options.builder, LeafBuilder.Blind b

theorem LeafCall.plan_untyped {c : LeafCall} (hc : c.Blind) :
    c.untyped.plan = LeafPlan.untyped <$> c.plan :=
  planLeaf_untyped hc c.ctx c.owner c.metrics

/-! ## Metrics of one source -/

section
variable {ctx : LeafContext} {name : String}

theorem simpleCall_blind {resolved : ResolvedMetric} {population : Option String} :
    (simpleCall ctx name resolved population).Blind := by
  simp [LeafCall.Blind, simpleCall]

theorem opaqueCall_blind {resolved : ResolvedMetric} {population : Option String}
    {grain : List String} : (opaqueCall ctx name resolved population grain).Blind := by
  simpa [LeafCall.Blind, opaqueCall] using opaqueBuilder_blind name grain

theorem recomputeCall_blind {kind : RecomputeKind} {d : Dialect} {source column : String}
    {bound : String × String} {population : Option String} :
    (recomputeCall ctx name kind d source column bound population).Blind := by
  simpa [LeafCall.Blind, recomputeCall] using recomputeBuilder_blind d kind bound.1 bound.2 name

theorem semiAdditiveCall_blind {source dim : String} {s : SemiAdditive} {collapsed : Bool}
    {population : Option String} :
    (semiAdditiveCall ctx source dim s collapsed population).Blind := by
  simpa [LeafCall.Blind, semiAdditiveCall] using semiAdditiveBuilder_blind s collapsed

theorem cumulativeCall_blind {resolved : ResolvedMetric} {population : Option String}
    {frame : CumulativeBinding} {t : RunningTotal} :
    (cumulativeCall ctx name resolved population frame t).Blind := by
  simpa [LeafCall.Blind, cumulativeCall] using cumulativeBuilder_blind t.orderDims t.visibility

theorem rollingCall_blind {resolved : ResolvedMetric} {population : Option String}
    {w : RollingPlan} : (rollingCall ctx name resolved population w).Blind := by
  simpa [LeafCall.Blind, rollingCall] using buildWindowed_blind w.rolling

theorem conversionsCall_blind {c : Conversions} : (conversionsCall ctx name c).Blind := by
  simpa [LeafCall.Blind, conversionsCall] using buildConversions_blind name c

end

section
variable (ctx : LeafContext) (name : String) (b : Binding)

theorem planSimpleAdditive_untyped :
    planSimpleAdditive ctx.untyped name b =
      MetricLeaves.untyped <$> planSimpleAdditive ctx name b := by
  unfold planSimpleAdditive
  simp only [map_bind, map_pure]
  refine bind_congr fun resolved => ?_
  show ((simpleCall ctx name resolved b.population).untyped.plan >>= _) = _
  rw [LeafCall.plan_untyped simpleCall_blind, bind_map_left]
  rfl

theorem planOpaque_untyped (grain : List String) :
    planOpaque ctx.untyped name b grain =
      MetricLeaves.untyped <$> planOpaque ctx name b grain := by
  unfold planOpaque
  simp only [map_bind, map_pure]
  refine bind_congr fun resolved => ?_
  show ((opaqueCall ctx name resolved b.population grain).untyped.plan >>= _) = _
  rw [LeafCall.plan_untyped opaqueCall_blind, bind_map_left]
  rfl

theorem planRecomputeAtGrain_untyped (kind : RecomputeKind) (source column : String)
    (population : Option String) :
    planRecomputeAtGrain ctx.untyped name b kind source column population =
      MetricLeaves.untyped <$> planRecomputeAtGrain ctx name b kind source column population := by
  unfold planRecomputeAtGrain
  simp only [map_bind, map_pure]
  refine bind_congr fun d => ?_
  refine bind_congr fun bound => ?_
  show ((recomputeCall ctx name kind d source column bound
    (combinePopulationFilters [population, b.population])).untyped.plan >>= _) = _
  rw [LeafCall.plan_untyped recomputeCall_blind, bind_map_left]
  rfl

theorem planSemiAdditive_untyped (source measure dim : String) (agg : CollapseAgg) :
    planSemiAdditive ctx.untyped name b source measure dim agg =
      MetricLeaves.untyped <$> planSemiAdditive ctx name b source measure dim agg := by
  unfold planSemiAdditive
  simp only [map_bind, map_pure]
  refine bind_congr fun s => ?_
  refine bind_congr fun dims => ?_
  show ((semiAdditiveCall ctx source dim s (dim ∉ dims.map (·.2.name))
    b.population).untyped.plan >>= _) = _
  rw [LeafCall.plan_untyped semiAdditiveCall_blind, bind_map_left]
  rfl

theorem planCumulative_untyped (frame : CumulativeBinding) :
    planCumulative ctx.untyped name b frame =
      MetricLeaves.untyped <$> planCumulative ctx name b frame := by
  unfold planCumulative
  simp only [map_bind, map_pure]
  refine bind_congr fun resolved => ?_
  refine bind_congr fun _ => ?_
  refine bind_congr fun t => ?_
  show ((cumulativeCall ctx name resolved b.population frame t).untyped.plan >>= _) = _
  rw [LeafCall.plan_untyped cumulativeCall_blind, bind_map_left]
  rfl

theorem planComponent_untyped (population : Option String) :
    planComponent ctx.untyped b population =
      LeafPlan.untyped <$> planComponent ctx b population := by
  unfold planComponent
  split
  next source column _ b' _ =>
    rw [planRecomputeAtGrain_untyped, bind_map_left, map_bind]
    refine bind_congr fun planned => ?_
    cases planned with
    | mk leaves metric resolved warnings => cases leaves <;> rfl
  next source measure b' _ =>
    rw [map_bind]
    refine bind_congr fun bound => ?_
    exact LeafCall.plan_untyped (c := simpleCall ctx b'.metric ⟨b'.metric, source, bound.2⟩
      (combinePopulationFilters [population, (Binding.leaf b').population])) simpleCall_blind
  next => rfl

theorem planComposite_untyped (numerator denominator : Binding) :
    planComposite ctx.untyped b numerator denominator =
      MetricLeaves.untyped <$> planComposite ctx b numerator denominator := by
  unfold planComposite
  rw [planComponent_untyped, planComponent_untyped]
  simp only [map_bind, map_pure, bind_map_left]
  rfl

end

/-! ## What narrows -/

/-- Seen from a source, the range is on none of the columns that a dimension reads. -/
def Clear (env : Env) (range : Option TimeRange) (dimension owner : String) : Prop :=
  ∀ r ∈ range, ∃ on,
    shiftedColumns env r.dimension owner (buildAliasTree env.sources owner) = .ok on ∧
      ∀ columns, shiftedColumns env dimension owner (buildAliasTree env.sources owner) =
        .ok columns → ∀ c ∈ on, c ∉ columns

theorem Clear.prefilters {ctx : LeafContext} {dimension owner : String}
    (h : Clear ctx.env ctx.query.timeRange dimension owner) {columns : List (String × String)}
    (hcolumns : shiftedColumns ctx.env dimension owner (buildAliasTree ctx.env.sources owner) =
      .ok columns) (off : Duration) : prefilters ctx dimension off owner = .ok [] := by
  unfold Canonic.prefilters
  split
  next => rfl
  next r hr =>
    obtain ⟨on, hon, hclear⟩ := h r hr
    have hall : (on.all fun c => decide (c ∉ columns)) = true := by
      simpa [List.all_eq_true] using hclear columns hcolumns
    simp only [hon, hcolumns, ok_bind, hall, if_true]
    rfl

/-- The one column a windowed metric is ordered along. -/
theorem orderColumn_columns {env : Env} {metric orderBy owner : String} {tree : Dict String}
    {column : String × String} (h : orderColumn env metric orderBy owner tree = .ok column) :
    shiftedColumns env orderBy owner tree = .ok [column] := by
  simp only [orderColumn, requireDimension, bind_eq_ok] at h
  obtain ⟨found, ⟨o, ho, hfound⟩, h⟩ := h
  cases o with
  | none => simp at hfound
  | some p =>
      obtain rfl : p = found := Except.ok.inj hfound
      simp only [shiftedColumns, ho, ok_bind]
      split at h
      next c hc =>
        obtain rfl := pure_eq_ok.mp h
        simp only [hc]
        rfl
      · simp at h

theorem Clear.lookbackFilters {env : Env} {range : Option TimeRange} {metric orderBy owner : String}
    (h : Clear env range orderBy owner) {column : String × String}
    (hcolumn : orderColumn env metric orderBy owner (buildAliasTree env.sources owner) =
      .ok column) (frame : CumulativeBinding) :
    lookbackFilters env range frame owner (buildAliasTree env.sources owner) column = .ok [] := by
  unfold Canonic.lookbackFilters
  split
  next => rfl
  next r =>
    obtain ⟨on, hon, hclear⟩ := h r rfl
    have hnot : column ∉ on := fun hmem =>
      hclear [column] (orderColumn_columns hcolumn) column hmem (List.mem_singleton_self column)
    simp only [shiftedColumns, bind_eq_ok] at hon
    obtain ⟨o, ho, hon⟩ := hon
    rw [ho, ok_bind]
    cases o with
    | none => rfl
    | some p =>
        -- the range's dimension reads the order column alone, or it does not narrow
        have hreads : readsOnly env.lib column p = false := by
          obtain rfl := pure_eq_ok.mp hon
          by_contra hreads
          have heq : (p.2.backingColumns env.lib).map (fun c => (p.1, c)) = [column] := by
            simpa [readsOnly] using hreads
          exact hnot (by rw [heq]; exact List.mem_singleton_self column)
        simp only [hreads]
        rfl

/-- The range keeps the rows a windowed metric reads: it is not on the column that the metric is
ordered along, or it has no end and every row before its start counts in the first days. -/
def KeepsRows (env : Env) (range : Option TimeRange) (frame : CumulativeBinding) (source : String) :
    Prop :=
  Clear env range (frame.orderBy.headD "") source ∨
    frame.window = none ∧ frame.grainToDate = none ∧ ∀ r ∈ range, r.days.2 = none ∧
      ∃ on, shiftedColumns env r.dimension source (buildAliasTree env.sources source) = .ok on

theorem KeepsRows.lookbackFilters {env : Env} {range : Option TimeRange} {metric owner : String}
    {frame : CumulativeBinding} (h : KeepsRows env range frame owner) {column : String × String}
    (hcolumn : orderColumn env metric (frame.orderBy.headD "") owner
      (buildAliasTree env.sources owner) = .ok column) :
    lookbackFilters env range frame owner (buildAliasTree env.sources owner) column = .ok [] := by
  obtain h | ⟨hwindow, hgrain, h⟩ := h
  · exact h.lookbackFilters hcolumn frame
  · unfold Canonic.lookbackFilters
    split
    next => rfl
    next r =>
      obtain ⟨hend, on, hon⟩ := h r rfl
      simp only [shiftedColumns, bind_eq_ok] at hon
      obtain ⟨o, ho, -⟩ := hon
      rw [ho, ok_bind]
      -- without a frame the start does not move the rows
      have hstart : ∀ start, lookbackDays frame start = .ok none := by
        intro start
        cases start with
        | none => rfl
        | some d => simp [lookbackDays, lookbackStart, hwindow, hgrain]
      cases o with
      | none => rfl
      | some q =>
          simp only [hstart, ok_bind, hend, boundTexts]
          split <;> rfl

mutual
/-- Nothing that planning a metric reads is narrowed by the range: it is on no column that an
offset of the metric moves, seen from the first source of the offset's base, and it keeps the rows
of every windowed metric, seen from its source. -/
def Binding.Unnarrowed (env : Env) (range : Option TimeRange) : Binding → Prop
  | .offset _ base dim _ =>
      (∀ owner, base.leaves.findSome? Binding.source = some owner → Clear env range dim owner) ∧
        base.Unnarrowed env range
  | .derived _ _ _ inputs => unnarrowedInputs env range inputs
  | .conversion _ base _ _ => base.Unnarrowed env range
  | .composite .. => True
  | .leaf b => ∀ source measure frame, b.canonical.of = .cumulative source measure frame →
      frame.needsDaySpine = true → KeepsRows env range frame source

def unnarrowedInputs (env : Env) (range : Option TimeRange) : List Binding → Prop
  | [] => True
  | b :: bs => b.Unnarrowed env range ∧ unnarrowedInputs env range bs
end

theorem planShift_untyped {ctx : LeafContext} {base : Binding} {dim : String}
    (h : ∀ owner, base.leaves.findSome? Binding.source = some owner →
      Clear ctx.env ctx.query.timeRange dim owner) (off : Duration) :
    planShift ctx.untyped base dim off = planShift ctx base dim off := by
  unfold planShift
  split
  next => rfl
  next owner howner =>
    show (whatMoves ctx dim owner >>= _) = _
    cases hmoves : whatMoves ctx dim owner with
    | error e => rfl
    | ok moves =>
        simp only [whatMoves, bind_eq_ok] at hmoves
        obtain ⟨columns, hcolumns, -⟩ := hmoves
        have hpre := (h owner howner).prefilters hcolumns off
        simp only [ok_bind, hpre]
        rfl

theorem planWindow_untyped {ctx : LeafContext} {name : String} {resolved : ResolvedMetric}
    {frame : CumulativeBinding}
    (h : KeepsRows ctx.env ctx.query.timeRange frame resolved.source) :
    planWindow ctx.untyped name resolved frame = planWindow ctx name resolved frame := by
  unfold planWindow
  refine bind_congr fun dims => ?_
  refine bind_congr_of_ok fun column hcolumn => ?_
  refine bind_congr fun requested => ?_
  refine bind_congr fun source => ?_
  refine bind_congr fun _ => ?_
  refine bind_congr fun split => ?_
  rw [h.lookbackFilters hcolumn]
  rfl

theorem planRolling_untyped {ctx : LeafContext} {name : String} {b : MetricBinding}
    {frame : CumulativeBinding} {source measure : String}
    (hof : b.canonical.of = .cumulative source measure frame)
    (h : KeepsRows ctx.env ctx.query.timeRange frame source) :
    planRolling ctx.untyped name (.leaf b) frame =
      MetricLeaves.untyped <$> planRolling ctx name (.leaf b) frame := by
  unfold planRolling
  simp only [map_bind, map_pure]
  show (bindMetric name (.leaf b) ctx.env.sources >>= _) = _
  cases hresolved : bindMetric name (.leaf b) ctx.env.sources with
  | error e => rfl
  | ok resolved =>
      have hsource : some source = some resolved.source := by
        rw [← (bindMetric_eq_ok hresolved).2.1]
        simp [Binding.source, hof, CanonicalKind.sourceBound]
      have hclear := Option.some.inj hsource ▸ h
      simp only [ok_bind, planWindow_untyped hclear]
      refine bind_congr fun _ => ?_
      refine bind_congr fun w => ?_
      show ((rollingCall ctx name resolved (Binding.leaf b).population w).untyped.plan >>= _) = _
      rw [LeafCall.plan_untyped rollingCall_blind, bind_map_left]
      rfl

/-! ## Metrics -/

theorem planConversionLeaf_untyped (ctx : LeafContext) (name : String) (base conv : Binding)
    (params : ConversionParams) :
    planConversionLeaf ctx.untyped name base conv params =
      LeafPlan.untyped <$> planConversionLeaf ctx name base conv params := by
  unfold planConversionLeaf
  simp only [map_bind, map_pure]
  refine bind_congr fun sides => ?_
  -- the events are planned without the range already
  refine bind_congr fun events => ?_
  refine bind_congr fun measure => ?_
  show ((conversionsCall ctx name
    ⟨params, sides.1, sides.2, events.select, measure⟩).untyped.plan >>= _) = _
  rw [LeafCall.plan_untyped conversionsCall_blind, bind_map_left]
  rfl

theorem joinOperands_untyped (n : Nat) (ps : List MetricLeaves) :
    joinOperands n (ps.map MetricLeaves.untyped) = joinOperands n ps := by
  induction ps generalizing n with
  | nil => rfl
  | cons p ps ih =>
      rw [List.map_cons, joinOperands, joinOperands, ih]
      simp [MetricLeaves.untyped]

theorem flatMap_leaves_untyped (ps : List MetricLeaves) :
    (ps.map MetricLeaves.untyped).flatMap (·.leaves) =
      (ps.flatMap (·.leaves)).map LeafPlan.untyped := by
  rw [List.flatMap_map, List.map_flatMap]
  rfl

theorem flatMap_warnings_untyped (ps : List MetricLeaves) :
    (ps.map MetricLeaves.untyped).flatMap (·.warnings) = ps.flatMap (·.warnings) := by
  rw [List.flatMap_map]
  rfl

theorem combineDerived_untyped (lib : Lib) (name : String) (b : Binding) (expr : String)
    (names : List String) (ps : List MetricLeaves) :
    combineDerived lib name b expr names (ps.map MetricLeaves.untyped) =
      MetricLeaves.untyped <$> combineDerived lib name b expr names ps := by
  unfold combineDerived
  simp only [joinOperands_untyped, flatMap_leaves_untyped, flatMap_warnings_untyped, map_bind,
    map_pure]
  rfl

theorem planMetric_leaf_untyped {ctx : LeafContext} {name : String} {b : MetricBinding}
    (h : (Binding.leaf b).Unnarrowed ctx.env ctx.query.timeRange) :
    planMetric ctx.untyped name (.leaf b) =
      MetricLeaves.untyped <$> planMetric ctx name (.leaf b) := by
  rw [planMetric, planMetric]
  cases hof : b.canonical.of with
  | semiAdditive s m dim agg => exact planSemiAdditive_untyped ..
  | distinctCount s column m => exact planRecomputeAtGrain_untyped ..
  | percentile s column q m => exact planRecomputeAtGrain_untyped ..
  | cumulative s m frame =>
      by_cases hspine : frame.needsDaySpine = true
      · simp only [hspine, if_true]
        rw [Binding.Unnarrowed] at h
        exact planRolling_untyped hof (h s m frame hof hspine)
      · simp only [hspine]
        exact planCumulative_untyped ..
  | opaque_ s m grain => exact planOpaque_untyped ..
  | _ => exact planSimpleAdditive_untyped ..

mutual
/-- A metric that the range does not narrow is planned as it is without the range. -/
theorem planMetric_untyped {ctx : LeafContext} {name : String} :
    ∀ {b : Binding}, b.Unnarrowed ctx.env ctx.query.timeRange →
      planMetric ctx.untyped name b = MetricLeaves.untyped <$> planMetric ctx name b
  | .leaf b, h => planMetric_leaf_untyped h
  | .composite b num den, h => by
      rw [planMetric, planMetric]
      exact planComposite_untyped ..
  | .offset b base dim off, h => by
      rw [Binding.Unnarrowed] at h
      rw [planMetric, planMetric, planShift_untyped h.1]
      simp only [map_bind, map_pure]
      refine bind_congr fun shift => ?_
      let under := ctx.under (some shift.1) b.canonical.populationFilter
      have hbase : planMetric under.untyped base.metric base =
          MetricLeaves.untyped <$> planMetric under base.metric base := planMetric_untyped h.2
      show (planMetric under.untyped base.metric base >>= _) = _
      rw [hbase, bind_map_left]
      rfl
  | .derived b expr names inputs, h => by
      rw [Binding.Unnarrowed] at h
      rw [planMetric, planMetric, map_bind]
      let under := ctx.under none b.canonical.populationFilter
      have hinputs : planInputs under.untyped inputs =
          List.map MetricLeaves.untyped <$> planInputs under inputs := planInputs_untyped h
      show (planInputs under.untyped inputs >>= _) = _
      rw [hinputs, bind_map_left]
      refine bind_congr fun planned => ?_
      exact combineDerived_untyped ..
  | .conversion b base conv params, h => by
      rw [Binding.Unnarrowed] at h
      rw [planMetric, planMetric, planMetric_untyped (b := base) h]
      unfold planConversion
      show (if ctx.shifts ≠ [] then _ else _) = _
      split
      · rfl
      · rw [planConversionLeaf_untyped]
        simp only [map_bind, map_pure, bind_map_left]
        rfl

theorem planInputs_untyped {ctx : LeafContext} :
    ∀ {bs : List Binding}, unnarrowedInputs ctx.env ctx.query.timeRange bs →
      planInputs ctx.untyped bs = List.map MetricLeaves.untyped <$> planInputs ctx bs
  | [], _ => rfl
  | b :: bs, h => by
      rw [unnarrowedInputs] at h
      rw [planInputs, planInputs, planMetric_untyped h.1, planInputs_untyped h.2]
      simp only [map_bind, map_pure, bind_map_left]
      rfl
end

/-! ## Probes -/

theorem probeAnchor_untyped (leaves : List LeafPlan) :
    probeAnchor (leaves.map LeafPlan.untyped) = (probeAnchor leaves).map LeafPlan.untyped := by
  unfold probeAnchor
  rw [List.find?_map]
  rfl

theorem probeLeaf_untyped (env : Env) (anchor : LeafPlan) (m : Measure) :
    probeLeaf env anchor.untyped m = LeafPlan.untyped <$> probeLeaf env anchor m := by
  unfold probeLeaf
  rw [map_bind]
  rfl

theorem latestPeriodProbes_untyped (env : Env) (q : SemanticQuery) (leaves : List LeafPlan) :
    latestPeriodProbes env q.untyped (leaves.map LeafPlan.untyped) =
      List.map LeafPlan.untyped <$> latestPeriodProbes env q leaves := by
  unfold latestPeriodProbes
  rw [probeAnchor_untyped]
  cases probeAnchor leaves with
  | none => rfl
  | some anchor =>
      have hgrouped : (leaves.map LeafPlan.untyped).flatMap (fun l => l.timeDimensions.map
          (·.column)) = leaves.flatMap fun l => l.timeDimensions.map (·.column) := by
        rw [List.flatMap_map]
        rfl
      simp only [Option.map_some, hgrouped, map_bind]
      refine bind_congr fun measures => ?_
      exact mapM_eq_map_mapM fun m _ => probeLeaf_untyped env anchor m

/-! ## Composition -/

theorem addColumn_untyped (p : Physical) (c : LeafMetric × String) :
    addColumn p.untyped c = (addColumn p c).untyped := by
  unfold addColumn
  show (if c.2 ∈ p.columns then _ else _) = _
  split
  · rfl
  · rfl

theorem serve_untyped (p : Physical) (l : LeafPlan) :
    serve p.untyped l.untyped = (serve p l).untyped := by
  have run : ∀ (cs : List (LeafMetric × String)) (p : Physical),
      cs.foldl addColumn p.untyped = (cs.foldl addColumn p).untyped := by
    intro cs
    induction cs with
    | nil => exact fun p => rfl
    | cons c cs ih =>
        intro p
        rw [List.foldl_cons, List.foldl_cons, addColumn_untyped, ih]
  show mergeInto ((l.metrics.zip l.measureAliases).foldl addColumn p.untyped) l.untyped = _
  rw [run]
  rfl

def Fusion.untyped (f : Fusion) : Fusion :=
  { f with physical := f.physical.map fun p => (p.1.untyped, p.2) }

theorem fuseLeaf_untyped (dedup : Bool) (f : Fusion) (l : LeafPlan) :
    fuseLeaf dedup f.untyped l.untyped = (fuseLeaf dedup f l).untyped := by
  have hindex : (if dedup then f.untyped.indexOf l.untyped.groupKey else none) =
      if dedup then f.indexOf l.groupKey else none := by
    cases dedup with
    | false => rfl
    | true =>
        show (f.physical.map fun p => (p.1.untyped, p.2)).findIdx? _ = _
        rw [List.findIdx?_map]
        rfl
  unfold fuseLeaf
  rw [hindex]
  split
  next i _ =>
    simp only [Fusion.untyped, Fusion.mk.injEq, and_true]
    refine List.ext_getElem? fun k => ?_
    simp only [List.getElem?_modify, List.getElem?_map]
    cases f.physical[k]? with
    | none => rfl
    | some p =>
        by_cases hk : i = k
        · simp [hk, serve_untyped]
        · simp [hk]
  next =>
    simp only [Fusion.untyped, Fusion.mk.injEq, List.map_append, List.map_cons, List.map_nil,
      List.length_map, and_true]
    have hserve := serve_untyped { keyLeaf := l } l
    rw [← hserve]
    rfl

theorem fuse_untyped (dedup : Bool) (leaves : List LeafPlan) :
    fuse dedup (leaves.map LeafPlan.untyped) =
      ((fuse dedup leaves).1.map Physical.untyped, (fuse dedup leaves).2) := by
  have run : ∀ (ls : List LeafPlan) (f : Fusion),
      (ls.map LeafPlan.untyped).foldl (fuseLeaf dedup) f.untyped =
        (ls.foldl (fuseLeaf dedup) f).untyped := by
    intro ls
    induction ls with
    | nil => exact fun f => rfl
    | cons l ls ih =>
        intro f
        rw [List.map_cons, List.foldl_cons, List.foldl_cons, fuseLeaf_untyped, ih]
  unfold fuse
  have := run leaves {}
  rw [show (Fusion.untyped {}) = {} from rfl] at this
  rw [this]
  simp [Fusion.untyped, List.map_map, Function.comp_def]

def Named.untyped (n : Named) : Named :=
  { n with leaves := n.leaves.map fun x => (x.1, x.2.untyped) }

theorem sortOrder_untyped (ps : List Physical) :
    sortOrder (ps.map Physical.untyped) = sortOrder ps := by
  unfold sortOrder
  simp only [List.length_map, List.getElem?_map, Option.map_map]
  rfl

theorem nameLeaves_untyped (dims : List String) (ps : List Physical) (ownerOf : List Nat) :
    nameLeaves dims (ps.map Physical.untyped) ownerOf = (nameLeaves dims ps ownerOf).untyped := by
  simp only [nameLeaves, Named.untyped, sortOrder_untyped, List.getElem?_map, Option.map_map,
    List.map_filterMap, List.any_map]
  rfl

section
variable {n : Named} {env : Env} {metrics : List MetricPlan}

theorem outerFrom_untyped (single : Bool) : outerFrom n.untyped single = outerFrom n single := by
  unfold outerFrom Named.untyped
  cases n.leaves with
  | nil => rfl
  | cons x xs =>
      simp only [List.map_cons, List.map_map]
      rfl

theorem dimSource_untyped (single : Bool) : dimSource n.untyped single = dimSource n single := by
  unfold dimSource Named.untyped
  cases n.leaves with
  | nil => rfl
  | cons x xs => rfl

theorem outerSelect_untyped (single visibility : Bool) :
    outerSelect env n.untyped single visibility metrics =
      outerSelect env n single visibility metrics := by
  unfold outerSelect
  rw [outerFrom_untyped, dimSource_untyped]
  rfl

theorem buildSpine_untyped (leaves : List (String × Physical)) (dims extra : List String)
    (marked : Bool) :
    buildSpine dims marked (leaves.map fun x => (x.1, x.2.untyped)) extra =
      buildSpine dims marked leaves extra := by
  unfold buildSpine
  rw [List.map_map]
  rfl

/-- The leaves are emitted again when they are composed, without reading the range. -/
theorem leafCtes_untyped {leaves : List (String × Physical)}
    (h : ∀ x ∈ leaves, x.2.keyLeaf.emit.Blind) :
    leafCtes (leaves.map fun x => (x.1, x.2.untyped)) = leafCtes leaves := by
  unfold leafCtes
  rw [List.mapM_map]
  congr 1
  refine mapM_congr_of_mem fun x hx => ?_
  show (buildLeaf x.2.keyLeaf.inputs.untyped x.2.keyLeaf.emit x.2.metrics (x.1 ++ "__") >>= _) = _
  rw [buildLeaf_untyped (h x hx)]
  rfl

theorem composeStatement_untyped (h : ∀ x ∈ n.leaves, x.2.keyLeaf.emit.Blind) :
    composeStatement env n.untyped metrics = composeStatement env n metrics := by
  have hctes : leafCtes n.untyped.leaves = leafCtes n.leaves := leafCtes_untyped h
  have hlength : n.untyped.leaves.length = n.leaves.length := List.length_map _
  have hnames : n.untyped.leaves.map (·.1) = n.leaves.map (·.1) := by
    simp [Named.untyped, List.map_map, Function.comp_def]
  have hspine (extra : List String) : buildSpine n.untyped.dims n.untyped.withIsFinal
      n.untyped.leaves extra = buildSpine n.dims n.withIsFinal n.leaves extra :=
    buildSpine_untyped ..
  unfold composeStatement
  simp only [hctes, hlength, hnames, hspine, outerSelect_untyped]
  rfl

end

theorem loneStatement_untyped {p : Physical} (h : p.keyLeaf.emit.Blind) :
    loneStatement p.untyped = loneStatement p := by
  unfold loneStatement
  show (buildLeaf p.keyLeaf.inputs.untyped p.keyLeaf.emit p.metrics "" >>= _) = _
  rw [buildLeaf_untyped h]
  rfl

theorem physicalStatement_untyped {ps : List Physical} (h : ∀ p ∈ ps, p.keyLeaf.emit.Blind)
    (env : Env) (dims : List String) (ownerOf : List Nat) (metrics : List MetricPlan) :
    physicalStatement env dims (ps.map Physical.untyped) ownerOf metrics =
      physicalStatement env dims ps ownerOf metrics := by
  have hnamed : composeStatement env (nameLeaves dims (ps.map Physical.untyped) ownerOf) metrics =
      composeStatement env (nameLeaves dims ps ownerOf) metrics := by
    rw [nameLeaves_untyped]
    refine composeStatement_untyped fun x hx => ?_
    obtain ⟨i, hi, -⟩ := mem_nameLeaves.mp hx
    exact h x.2 (List.mem_of_getElem? hi)
  unfold physicalStatement
  rw [hnamed]
  match ps, h with
  | [], _ => rfl
  | [p], h =>
      simp only [List.map_cons, List.map_nil, List.length_cons, List.length_nil]
      rw [loneStatement_untyped (h p (by simp))]
      rfl
  | _ :: _ :: _, _ => simp

theorem composeResult_untyped (env : Env) (ps : List Physical) (s : Sql.Statement) (count : Nat) :
    composeResult env (ps.map Physical.untyped) s count = composeResult env ps s count := by
  simp only [composeResult, mergeFinality, List.flatMap_map, List.filterMap_map]
  rfl

theorem compose_untyped {leaves : List LeafPlan} (h : ∀ l ∈ leaves, l.emit.Blind) (env : Env)
    (metrics : List MetricPlan) (dedup : Bool) :
    compose env (leaves.map LeafPlan.untyped) metrics dedup =
      compose env leaves metrics dedup := by
  cases leaves with
  | nil => rfl
  | cons l ls =>
      have hblind : ∀ p ∈ (fuse dedup (l :: ls)).1, p.keyLeaf.emit.Blind :=
        fun p hp => h p.keyLeaf (fuse_keyLeaf p hp)
      have hfinal : ((fuse dedup (l :: ls)).1.map Physical.untyped).any (·.projectsIsFinal) =
          (fuse dedup (l :: ls)).1.any (·.projectsIsFinal) := by
        rw [List.any_map]
        rfl
      have hfused := fuse_untyped dedup (l :: ls)
      rw [List.map_cons] at hfused ⊢
      unfold compose
      simp only [hfused, hfinal]
      refine bind_congr fun _ => ?_
      show (physicalStatement env l.dimNames _ _ metrics >>= _) = _
      rw [physicalStatement_untyped hblind]
      refine bind_congr fun s => ?_
      show composeResult env ((nameLeaves l.dimNames _ _).leaves.map (·.2)) s.1 s.2 = _
      rw [nameLeaves_untyped]
      have hleaves (n : Named) : n.untyped.leaves.map (·.2) =
          (n.leaves.map (·.2)).map Physical.untyped := by
        simp [Named.untyped, List.map_map, Function.comp_def]
      rw [hleaves, composeResult_untyped]

/-! ## Queries -/

/-- Every call of a metric is made with a builder that does not read the range. -/
theorem Calls.blind {ctx : LeafContext} {name : String} {b : Binding} {c : LeafCall}
    (h : Calls ctx name b c) : c.Blind := by
  induction h with
  | simple => exact simpleCall_blind
  | opaque_ => exact opaqueCall_blind
  | distinctCount => exact recomputeCall_blind
  | percentile => exact recomputeCall_blind
  | semiAdditive => exact semiAdditiveCall_blind
  | cumulative => exact cumulativeCall_blind
  | rolling => exact rollingCall_blind
  | component _ h =>
      cases h with
      | single => exact simpleCall_blind
      | distinctCount => exact recomputeCall_blind
  | conversions => exact conversionsCall_blind
  | base _ ih => exact ih
  | offset _ _ ih => exact ih
  | derived _ _ ih => exact ih

theorem planQuery_blind {p : Project} {q : SemanticQuery} {principal : Principal} {plan : Plan}
    (h : planQuery p q principal = .ok plan) : ∀ l ∈ plan.leaves, l.emit.Blind := by
  intro l hl
  obtain ⟨c, ⟨b, -, hc⟩, ha⟩ := planQuery_calls (planQuery_eq_ok h) hl
  exact leafEmit_blind hc.blind ha.emit

def Plan.untyped (plan : Plan) : Plan :=
  { plan with
    ctx := plan.ctx.untyped
    planned := plan.planned.map MetricLeaves.untyped
    probes := plan.probes.map LeafPlan.untyped }

theorem Plan.leaves_untyped (plan : Plan) :
    plan.untyped.leaves = plan.leaves.map LeafPlan.untyped := by
  show (plan.planned.map MetricLeaves.untyped).flatMap (·.leaves) ++
    plan.probes.map LeafPlan.untyped = _
  rw [flatMap_leaves_untyped, ← List.map_append]
  rfl

theorem Plan.metrics_untyped (plan : Plan) : plan.untyped.metrics = plan.metrics := by
  have hlength : plan.untyped.metricLeaves.length = plan.metricLeaves.length := by
    show ((plan.planned.map MetricLeaves.untyped).flatMap (·.leaves)).length = _
    rw [flatMap_leaves_untyped, List.length_map]
    rfl
  unfold Plan.metrics
  rw [hlength]
  show joinOperands 0 (plan.planned.map MetricLeaves.untyped) ++
    (plan.probes.map LeafPlan.untyped).mapIdx _ = _
  rw [joinOperands_untyped]
  congr 1
  refine List.ext_getElem? fun k => ?_
  simp only [List.getElem?_mapIdx, List.getElem?_map, Option.map_map]
  rfl

theorem emitPlan_untyped {plan : Plan} (h : ∀ l ∈ plan.leaves, l.emit.Blind) (dedup : Bool) :
    emitPlan plan.untyped dedup = emitPlan plan dedup := by
  unfold emitPlan
  rw [plan.leaves_untyped, plan.metrics_untyped]
  show (compose plan.ctx.env _ plan.metrics dedup >>= _) = _
  rw [compose_untyped h]
  refine bind_congr fun composed => ?_
  refine bind_congr fun dialect => ?_
  have hresolved : plan.untyped.planned.map (·.resolved) = plan.planned.map (·.resolved) := by
    simp [Plan.untyped, List.map_map, Function.comp_def, MetricLeaves.untyped]
  have hwarnings : plan.untyped.planned.flatMap (·.warnings) =
      plan.planned.flatMap (·.warnings) := flatMap_warnings_untyped plan.planned
  rw [hresolved, hwarnings]
  rfl

/-- The range of a query narrows none of the metrics it asks for. -/
def UnnarrowedQuery (p : Project) (q : SemanticQuery) (principal : Principal) : Prop :=
  ∀ bindings, resolveQuery p q (p.resolver.authzFor principal) = .ok bindings →
    ∀ b ∈ bindings, b.2.Unnarrowed ⟨p.lib, dialectForBindings p bindings, p.sources⟩ q.timeRange

theorem planQuery_untyped {p : Project} {q planned : SemanticQuery} {principal : Principal}
    (hq : applyTimeRange p.lib q p.sources = .ok planned)
    (h : UnnarrowedQuery p planned principal) :
    planQuery p planned.untyped principal = Plan.untyped <$> planQuery p q principal := by
  have huntyped : applyTimeRange p.lib planned.untyped p.sources = .ok planned.untyped := rfl
  unfold planQuery
  rw [hq, huntyped, ok_bind, ok_bind]
  simp only [map_bind, map_pure]
  refine bind_congr fun stage0 => ?_
  refine bind_congr_of_ok fun bindings hbindings => ?_
  refine bind_congr fun admitted => ?_
  let ctx : LeafContext := {
    env := ⟨p.lib, dialectForBindings p bindings, p.sources⟩, query := planned
    resolver := p.resolver, principal := principal, policy := p.resolver.authzFor principal }
  have hplanned : (bindings.mapM fun b => planMetric ctx.untyped b.1 b.2) =
      List.map MetricLeaves.untyped <$> bindings.mapM fun b => planMetric ctx b.1 b.2 :=
    mapM_eq_map_mapM fun b hb => planMetric_untyped (h bindings hbindings b hb)
  show ((bindings.mapM fun b => planMetric ctx.untyped b.1 b.2) >>= _) = _
  rw [hplanned, bind_map_left]
  refine bind_congr fun leaves => ?_
  rw [flatMap_leaves_untyped, latestPeriodProbes_untyped, bind_map_left]
  rfl

theorem compile_untyped {p : Project} {q planned : SemanticQuery} {principal : Principal}
    (hq : applyTimeRange p.lib q p.sources = .ok planned)
    (h : UnnarrowedQuery p planned principal) (dedup : Bool) :
    compile p planned.untyped principal dedup = compile p q principal dedup := by
  unfold compile
  rw [planQuery_untyped hq h, bind_map_left]
  exact bind_congr_of_ok fun plan hplan => emitPlan_untyped (planQuery_blind hplan) dedup

/-- The query with the range's predicate as its last filter, and no range. -/
def SemanticQuery.filtered (q : SemanticQuery) (r : ResolvedTimeRange) : SemanticQuery :=
  { q with filters := q.filters ++ [r.predicate], timeRange := none }

/-- The query that is planned: the predicate among the filters, the range in explicit days. -/
def SemanticQuery.explicit (q : SemanticQuery) (r : ResolvedTimeRange) : SemanticQuery :=
  { q with filters := q.filters ++ [r.predicate], timeRange := some r.asExplicit }

private def chargeTexts : List (String × Expr) :=
  [("SUM(amount)", .node (.agg .sum) [.bare "amount"]),
   ("day >= '2023-03-01'", .node .gte [.bare "day", .string "2023-03-01"]),
   ("day >= '2023-01-29'", .node .gte [.bare "day", .string "2023-01-29"]),
   ("day >= '2023-02-25'", .node .gte [.bare "day", .string "2023-02-25"])]

private def chargeColumns : List Column := [⟨"day", .date, true⟩, ⟨"amount", .decimal, true⟩]

/-- Charges, those of the day before, and of these the ones of the month before. -/
private def chargeProject : Project where
  lib := Lib.ofTexts chargeTexts
  sources := { list := [
    { name := "charges", connection := "wh", table := "charges"
      columns := chargeColumns
      measures := [{ name := "amount", expr := "SUM(amount)" }]
      dimensions := [{ name := "day", column := some "day" }]
      measures_nodup := List.nodup_singleton "amount"
      dimensions_nodup := List.nodup_singleton "day" }] }
  resolver := { bindings := [
    { metric := "charged", canonical := { of := .single "charges" "amount" } },
    { metric := "a_day_before",
      canonical := { of := .offset "charged" "day" ⟨1, .day, Nat.one_pos⟩ } },
    { metric := "a_month_before",
      canonical := { of := .offset "a_day_before" "day" ⟨1, .month, Nat.one_pos⟩ } }] }

private theorem startsInMarch :
    (some (⟨2023, 3, 1⟩ : Date)).isSome = true ∨ (none : Option Date).isSome = true := .inl rfl

private def sinceMarch : TimeRange := ⟨"day", .dates (some ⟨2023, 3, 1⟩) none startsInMarch⟩

private def sinceMarchDays : ResolvedTimeRange := ⟨"day", some ⟨2023, 3, 1⟩, none, startsInMarch⟩

/-- The days that the texts of the project name. -/
private def namedDays : List Date := [⟨2023, 3, 1⟩, ⟨2023, 1, 29⟩, ⟨2023, 2, 25⟩]

/-- Dates as ordinals: moved by calendar units, and compared. -/
private def chargeValue (column : Sql.Column → Sql.Value Int) : Expr → Sql.Value Int
  | .column c => column c
  | .literal true t => ((namedDays.find? fun d => d.isoformat == t).map fun d =>
      Sql.Value.data d.toOrdinal).getD .null
  | .node (.cast _) [e] => chargeValue column e
  | .node (.func "DATE_ADD") [e, .literal false "1", .node (.func unit) []] =>
      match chargeValue column e with
      | .data n =>
          let step := if unit = "Var:MONTH" then DurationUnit.month else .day
          match addToDate (Date.ofOrdinal n) ⟨1, step, Nat.one_pos⟩ 1 with
          | .ok d => .data d.toOrdinal
          | .error _ => .null
      | _ => .null
  | .node .gte [a, b] =>
      match chargeValue column a, chargeValue column b with
      | .data x, .data y => .bool (decide (y ≤ x))
      | _, _ => .null
  | _ => .null

/-- A sum is the only aggregate that is asked for. -/
private def chargeEngine : Sql.Engine Int where
  other e column := chargeValue column e
  bare _ _ := .null
  grouped _ ps _ ss := [ps.map fun p => match p.expr with
    | .node (.agg .sum) [.column c] =>
        if ss.isEmpty then .null
        else .data (ss.map fun s => match s.value c.table c.name with
          | .data n => n
          | _ => 0).sum
    | _ => .null]

/-- One charge, of 28 January. -/
private def oneCharge (_ : String) : Sql.Table Int :=
  ⟨["day", "amount"], [[.data (Date.toOrdinal ⟨2023, 1, 28⟩), .data 100]]⟩

private def since (metric : String) : SemanticQuery :=
  { metrics := [metric], timeRange := some sinceMarch }

/-- The rows returned for the one charge, when the query compiles. -/
private def chargedRows (x : Except Err CompileResult) : Option (List (List (Sql.Value Int))) :=
  x.toOption.map fun r => (r.statement.evalOver chargeEngine oneCharge fun _ => none).rows

/-- The charge of 28 January moves to 1 March, where the range begins. With the filter it is in the
sum, with the range it is not. -/
theorem compile_timeRange_counterexample :
    checkTimeRangeDimension chargeProject.lib sinceMarch chargeProject.sources = .ok () ∧
      resolveTimeRange chargeProject.lib sinceMarch none = .ok sinceMarchDays ∧
      chargedRows (compile chargeProject (since "a_month_before") {}) = some [[.null]] ∧
      chargedRows (compile chargeProject
        ((since "a_month_before").filtered sinceMarchDays) {}) = some [[.data 100]] :=
  ⟨rfl, rfl, by decide +kernel, by decide +kernel⟩

end Canonic
