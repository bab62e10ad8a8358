import Canonic.Compiler.Division

set_option autoImplicit false

/-! # Trees of divisions

The plan of a metric has the shape of its binding, whatever it is renamed to and however its leaves
are shifted. From that shape, the value of the metric's output expression and of its
zero-denominator flag, over any tree of metrics. -/

namespace Canonic

open Sql (Expr Op Outcome RowEngine Value)

/-! ## The shape of a plan -/

mutual
/-- A plan is read off a binding: combined by its policy, over the plans of its inputs. -/
def Binding.Shapes (lib : Lib) : Binding → MetricPlan → Prop
  | .leaf _, m => m.combine = .direct ∧ m.operands = []
  | .composite b _ _, m => m.combine = b.canonical.onZeroDenominator.combine ∧
      m.accumulate = none ∧ m.operands = [] ∧ m.refs.length = 2
  | .offset _ base _ _, m => base.Shapes lib m
  | .derived b expr names inputs, m =>
      m.combine = .derived ∧ m.accumulate = none ∧
        (∃ t, derivedTemplate lib expr names b.canonical.onZeroDenominator.combine = .ok t ∧
          m.template = some t ∧ m.division =
            if divides t then some b.canonical.onZeroDenominator.combine else none) ∧
        Binding.ShapesList lib inputs m.operands
  | .conversion b base _ p, m =>
      m.combine = .derived ∧ m.accumulate = none ∧
        m.template = some
          (conversionTemplate p.calculation b.canonical.onZeroDenominator.combine) ∧
        m.division = (if p.calculation = .conversionRate
          then some b.canonical.onZeroDenominator.combine else none) ∧
        ∃ conversions planned, m.operands = [conversions, planned] ∧
          conversions.combine = .direct ∧ conversions.operands = [] ∧ base.Shapes lib planned

def Binding.ShapesList (lib : Lib) : List Binding → List MetricPlan → Prop
  | [], [] => True
  | b :: bs, m :: ms => b.Shapes lib m ∧ Binding.ShapesList lib bs ms
  | _, _ => False
end

theorem Binding.Shapes.renamed {lib : Lib} (name : String) :
    ∀ {b : Binding} {m : MetricPlan}, b.Shapes lib m → b.Shapes lib { m with name := name }
  | .leaf _, _, h => h
  | .composite _ _ _, _, h => h
  | .offset _ base _ _, m, h => by
      rw [Binding.Shapes] at h ⊢
      exact h.renamed name
  | .derived _ _ _ _, _, h => h
  | .conversion _ _ _ _, _, h => h

mutual
theorem Binding.Shapes.shifted {lib : Lib} (n : Nat) :
    ∀ {b : Binding} {m : MetricPlan}, b.Shapes lib m → b.Shapes lib (m.shifted n)
  | .leaf _, m, h => by
      rw [Binding.Shapes] at h ⊢
      rw [MetricPlan.shifted_eq, h.2]
      exact ⟨h.1, rfl⟩
  | .composite _ _ _, m, h => by
      rw [Binding.Shapes] at h ⊢
      obtain ⟨hcombine, hacc, hops, hrefs⟩ := h
      rw [MetricPlan.shifted_eq, hops]
      exact ⟨hcombine, hacc, rfl, by simpa using hrefs⟩
  | .offset _ base _ _, m, h => by
      rw [Binding.Shapes] at h ⊢
      exact h.shifted n
  | .derived _ _ _ inputs, m, h => by
      rw [Binding.Shapes] at h ⊢
      obtain ⟨hcombine, hacc, htemplate, hops⟩ := h
      rw [MetricPlan.shifted_eq]
      exact ⟨hcombine, hacc, htemplate, Binding.ShapesList.shifted n hops⟩
  | .conversion _ base _ _, m, h => by
      rw [Binding.Shapes] at h ⊢
      obtain ⟨hcombine, hacc, htemplate, hdivision, conv, planned, hops, hdirect, hnone, hbase⟩ := h
      rw [MetricPlan.shifted_eq, hops]
      refine ⟨hcombine, hacc, htemplate, hdivision, conv.shifted n, planned.shifted n, rfl, ?_, ?_,
        hbase.shifted n⟩
      · rw [MetricPlan.shifted_eq]
        exact hdirect
      · rw [MetricPlan.shifted_eq, hnone]
        rfl

theorem Binding.ShapesList.shifted {lib : Lib} (n : Nat) :
    ∀ {bs : List Binding} {ms : List MetricPlan}, Binding.ShapesList lib bs ms →
      Binding.ShapesList lib bs (MetricPlan.shiftedList n ms)
  | [], [], _ => by
      rw [MetricPlan.shiftedList, Binding.ShapesList]
      trivial
  | [], _ :: _, h => by simp [Binding.ShapesList] at h
  | _ :: _, [], h => by simp [Binding.ShapesList] at h
  | b :: bs, m :: ms, h => by
      rw [Binding.ShapesList] at h
      rw [MetricPlan.shiftedList, Binding.ShapesList]
      exact ⟨h.1.shifted n, Binding.ShapesList.shifted n h.2⟩
end

theorem planMetric_leaf_direct {ctx : LeafContext} {name : String} {b : MetricBinding}
    {pl : MetricLeaves} (h : planMetric ctx name (.leaf b) = .ok pl) :
    pl.metric.combine = .direct := by
  rw [planMetric] at h
  split at h
  · simp only [planSemiAdditive, bind_eq_ok, pure_eq_ok] at h
    obtain ⟨_, -, _, -, _, -, rfl⟩ := h
    rfl
  · simp only [planRecomputeAtGrain, bind_eq_ok, pure_eq_ok] at h
    obtain ⟨_, -, _, -, _, -, rfl⟩ := h
    rfl
  · simp only [planRecomputeAtGrain, bind_eq_ok, pure_eq_ok] at h
    obtain ⟨_, -, _, -, _, -, rfl⟩ := h
    rfl
  · split at h
    · simp only [planRolling, bind_eq_ok, pure_eq_ok] at h
      obtain ⟨_, -, _, -, _, -, _, -, rfl⟩ := h
      rfl
    · simp only [planCumulative, bind_eq_ok, pure_eq_ok] at h
      obtain ⟨_, -, _, -, _, -, _, -, rfl⟩ := h
      rfl
  · simp only [planOpaque, bind_eq_ok, pure_eq_ok] at h
    obtain ⟨_, -, _, -, rfl⟩ := h
    rfl
  · simp only [planSimpleAdditive, bind_eq_ok, pure_eq_ok] at h
    obtain ⟨_, -, _, -, rfl⟩ := h
    rfl

mutual
/-- **The plan of a metric has the shape of its binding.** -/
theorem planMetric_shapes : ∀ {ctx : LeafContext} {name : String} {b : Binding}
    {pl : MetricLeaves}, planMetric ctx name b = .ok pl → b.Shapes ctx.env.lib pl.metric
  | ctx, name, .leaf b, pl, h => by
      obtain ⟨⟨_, _, -, -, hops, -⟩, -⟩ := planMetric_leaf_readOff h
      rw [Binding.Shapes]
      exact ⟨planMetric_leaf_direct h, hops⟩
  | ctx, name, .composite b num den, pl, h => by
      simp only [planMetric, planComposite, bind_eq_ok, pure_eq_ok] at h
      obtain ⟨_, -, _, -, rfl⟩ := h
      rw [Binding.Shapes]
      exact ⟨rfl, rfl, rfl, rfl⟩
  | ctx, name, .offset b base dim off, pl, h => by
      simp only [planMetric, bind_eq_ok, pure_eq_ok] at h
      obtain ⟨_, -, planned, hp, rfl⟩ := h
      rw [Binding.Shapes]
      exact (planMetric_shapes hp).renamed name
  | ctx, name, .derived b expr names inputs, pl, h => by
      simp only [planMetric, combineDerived, bind_eq_ok, pure_eq_ok] at h
      obtain ⟨planned, hp, t, ht, rfl⟩ := h
      have hops := planInputs_shapes 0 hp
      rw [Binding.Shapes]
      exact ⟨rfl, rfl, ⟨t, ht, rfl, rfl⟩, hops⟩
  | ctx, name, .conversion b base conv p, pl, h => by
      rw [planMetric, planConversion] at h
      split at h
      · simp at h
      · simp only [bind_eq_ok, pure_eq_ok] at h
        obtain ⟨_, -, planned, hp, rfl⟩ := h
        rw [Binding.Shapes]
        refine ⟨rfl, rfl, rfl, ?_, directPlan name, planned.metric.shifted 1, rfl, rfl, rfl,
          (planMetric_shapes hp).shifted 1⟩
        simp only [beq_iff_eq]
        rfl

theorem planInputs_shapes : ∀ {ctx : LeafContext} {bs : List Binding} {ps : List MetricLeaves}
    (n : Nat), planInputs ctx bs = .ok ps →
      Binding.ShapesList ctx.env.lib bs (joinOperands n ps)
  | ctx, [], ps, n, h => by
      rw [planInputs] at h
      obtain rfl := Except.ok.inj h
      rw [joinOperands, Binding.ShapesList]
      trivial
  | ctx, b :: bs, ps, n, h => by
      simp only [planInputs, bind_eq_ok, pure_eq_ok] at h
      obtain ⟨planned, hp, rest, hrest, rfl⟩ := h
      rw [joinOperands, Binding.ShapesList]
      exact ⟨(planMetric_shapes hp).shifted n, planInputs_shapes _ hrest⟩
end

/-! ## Values -/

theorem metricValue_derived (env : Env) (leafName : Nat → String) {m : MetricPlan}
    (h : m.combine = .derived) : metricValue env leafName m =
      substituteOperands (m.template.getD (.node .null []))
        (operandValues env leafName m.operands) := by
  cases m
  rw [metricValue, if_pos h]

theorem metricValue_combined (env : Env) (leafName : Nat → String) {m : MetricPlan}
    (h : m.combine ≠ .derived) (hacc : m.accumulate = none) : metricValue env leafName m =
      combineExpr m.combine (columnsOf leafName m.refs) := by
  cases m
  simp only at hacc
  rw [metricValue, if_neg h, hacc]

theorem length_operandValues (env : Env) (leafName : Nat → String) (ms : List MetricPlan) :
    (operandValues env leafName ms).length = ms.length := by
  induction ms with
  | nil => rw [operandValues, List.length_nil, List.length_nil]
  | cons m ms ih => rw [operandValues, List.length_cons, ih, List.length_cons]

theorem Binding.ShapesList.length_eq {lib : Lib} : ∀ {bs : List Binding} {ms : List MetricPlan},
    Binding.ShapesList lib bs ms → bs.length = ms.length
  | [], [], _ => rfl
  | [], _ :: _, h => by simp [Binding.ShapesList] at h
  | _ :: _, [], h => by simp [Binding.ShapesList] at h
  | _ :: bs, _ :: ms, h => by
      rw [Binding.ShapesList] at h
      rw [List.length_cons, h.2.length_eq, List.length_cons]

/-- A policy is neither a column as it stands nor a template. -/
theorem OnZeroDenominator.combine_ne (policy : OnZeroDenominator) :
    policy.combine ≠ .direct ∧ policy.combine ≠ .derived := by
  cases policy <;> simp [OnZeroDenominator.combine]

theorem exists_of_conversion {lib : Lib} {b : MetricBinding} {base conv : Binding}
    {p : ConversionParams} {m : MetricPlan} (h : (Binding.conversion b base conv p).Shapes lib m) :
    ∃ conversions planned, m.operands = [conversions, planned] ∧
      conversions.combine = .direct ∧ conversions.operands = [] ∧ base.Shapes lib planned := by
  rw [Binding.Shapes] at h
  exact h.2.2.2.2

section
variable {α : Type} [DecidableEq α] (E : RowEngine α)

/-- The template of a conversion evaluates to its arithmetic. -/
theorem eval_conversionTemplate (policy : OnZeroDenominator)
    (calculation : ConversionCalculation) : E.eval (conversionTemplate calculation policy.combine) =
      conversionValue E policy calculation (E.column ⟨"", "", operandPlaceholder 0⟩)
        (E.column ⟨"", "", operandPlaceholder 1⟩) := by
  cases calculation with
  | conversionRate =>
      rw [conversionTemplate, eval_guardDivision, RowEngine.eval_node (by decide), List.map_cons,
        List.map_singleton, RowEngine.eval_zero, Expr.bare, Expr.bare, RowEngine.eval_column,
        RowEngine.eval_column]
      rfl
  | conversions =>
      rw [conversionTemplate, RowEngine.eval_node (by decide), List.map_cons, List.map_singleton,
        RowEngine.eval_node (by decide), List.map_cons, List.map_singleton, RowEngine.eval_zero,
        RowEngine.eval_node (by decide), List.map_singleton, RowEngine.eval_isNull, Expr.bare,
        Expr.bare, RowEngine.eval_column, RowEngine.eval_column]
      rcases E.column ⟨"", "", operandPlaceholder 1⟩ with _ | (_ | _ | _) <;> rfl

variable {E} {env : Env} {leafName : Nat → String}

/-- A conversion evaluates to its arithmetic over its two inputs. -/
theorem eval_conversion (policy : OnZeroDenominator) (calculation : ConversionCalculation)
    (conversions base : Expr) :
    E.eval (substituteOperands (conversionTemplate calculation policy.combine)
      [conversions, base]) =
      conversionValue E policy calculation (E.eval conversions) (E.eval base) := by
  have hplain : (conversionTemplate calculation policy.combine).isPlain = true := by
    cases calculation <;> cases policy <;> decide
  have h0 : operandValue [conversions, base] ⟨"", "", operandPlaceholder 0⟩ =
      .node .paren [conversions] := operandValue_placeholder Nat.two_pos
  have h1 : operandValue [conversions, base] ⟨"", "", operandPlaceholder 1⟩ =
      .node .paren [base] := operandValue_placeholder Nat.one_lt_two
  refine (RowEngine.evalWith_mapColumns _ hplain).trans ?_
  refine (eval_conversionTemplate _ policy calculation).trans ?_
  show conversionValue E policy calculation (E.eval (operandValue [conversions, base] _))
    (E.eval (operandValue [conversions, base] _)) = _
  rw [h0, h1, RowEngine.eval_paren, RowEngine.eval_paren]

mutual
/-- **The value of a metric.** Its output expression evaluates to its own arithmetic. -/
theorem eval_metricValue : ∀ {b : Binding} {m : MetricPlan}, b.Shapes env.lib m →
    b.Accepted env.lib → E.eval (metricValue env leafName m) = b.value E env leafName m
  | .leaf _, m, _, _ => by rw [Binding.value]
  | .composite b _ _, m, h, _ => by
      rw [Binding.Shapes] at h
      obtain ⟨hcombine, hacc, -, hrefs⟩ := h
      obtain ⟨n, d, hnd⟩ := List.length_eq_two.mp hrefs
      have hpolicy := b.canonical.onZeroDenominator.combine_ne
      have hcolumns : columnsOf leafName m.refs =
          [Expr.col n.column (leafName n.leaf), Expr.col d.column (leafName d.leaf)] := by
        rw [hnd]
        rfl
      rw [metricValue_combined _ _ (hcombine ▸ hpolicy.2) hacc, hcombine, Binding.value, hcolumns,
        combineExpr, if_neg hpolicy.1, eval_guardDivision]
  | .offset _ base _ _, m, h, hok => by
      rw [Binding.Shapes] at h
      rw [Binding.Accepted] at hok
      rw [Binding.value]
      exact eval_metricValue h hok
  | .derived b expr names inputs, m, h, hok => by
      rw [Binding.Shapes] at h
      rw [Binding.Accepted] at hok
      obtain ⟨hcombine, -, ⟨t, ht, htemplate, -⟩, hops⟩ := h
      obtain ⟨hvalid, hlen, hinputs⟩ := hok
      obtain ⟨hnodup, parsed, hparse, hplain, hcolumns⟩ := validateDerived_eq_ok hvalid
      have hvalues := eval_operandValues hops hinputs
      have hlength : names.length = (operandValues env leafName m.operands).length := by
        rw [length_operandValues, hlen, hops.length_eq]
      rw [metricValue_derived _ _ hcombine, htemplate, Option.getD_some,
        derivedTemplate_eq_ok ht hparse, eval_derived _ hnodup hlength hplain hcolumns, hvalues,
        Binding.value, hparse]
  | .conversion b base conv p, m, h, hok => by
      obtain ⟨conversions, planned, hops, -, -, hbase⟩ := exists_of_conversion h
      rw [Binding.Shapes] at h
      rw [Binding.Accepted] at hok
      have hoperands : conversionOperands m = some (conversions, planned) := by
        rw [conversionOperands, hops]
      rw [metricValue_derived _ _ h.1, h.2.2.1, Option.getD_some, hops, operandValues,
        operandValues, operandValues, eval_conversion, Binding.value, hoperands,
        eval_metricValue hbase hok]

theorem eval_operandValues : ∀ {bs : List Binding} {ms : List MetricPlan},
    Binding.ShapesList env.lib bs ms → Binding.AcceptedList env.lib bs →
      (operandValues env leafName ms).map E.eval = Binding.values E env leafName bs ms
  | [], [], _, _ => by rw [operandValues, Binding.values, List.map_nil]; simp
  | [], _ :: _, h, _ => by simp [Binding.ShapesList] at h
  | _ :: _, [], h, _ => by simp [Binding.ShapesList] at h
  | b :: bs, m :: ms, h, hok => by
      rw [Binding.ShapesList] at h
      rw [Binding.AcceptedList] at hok
      rw [operandValues, Binding.values, List.map_cons, eval_metricValue h.1 hok.1,
        eval_operandValues h.2 hok.2]
end

/-! ## Denominators -/

theorem nodes_node (op : Op) (args : List Expr) :
    (Expr.node op args).nodes = .node op args :: args.flatMap Expr.nodes := by
  rw [Expr.nodes, Expr.nodesList_eq]

theorem divisors_leaf {e : Expr} (h : e.children = []) : divisors e = [] := by
  cases e with
  | column c => rfl
  | literal s t => rfl
  | table d n => rfl
  | node op args =>
      obtain rfl : args = [] := h
      rw [divisors, nodes_node]
      simp [divisor]

/-- The divisors of a node: its own, and those of its arguments. -/
theorem divisors_node (op : Op) (args : List Expr) :
    divisors (.node op args) = (divisor (.node op args)).toList ++ args.flatMap divisors := by
  rw [divisors, nodes_node, List.filterMap_cons, List.filterMap_flatMap]
  cases divisor (.node op args) <;> rfl

theorem divisor_map (op : Op) (args : List Expr) (f : Expr → Expr) :
    divisor (.node op (args.map f)) = (divisor (.node op args)).map f := by
  cases hdiv : divisor (.node op args) with
  | some d =>
      obtain ⟨n, rfl, rfl⟩ := divisor_eq_some hdiv
      rfl
  | none =>
      cases hmap : divisor (.node op (args.map f)) with
      | none => rfl
      | some d =>
          obtain ⟨n, rfl, hargs⟩ := divisor_eq_some hmap
          obtain ⟨a, b, rfl⟩ := List.length_eq_two.mp (by simpa using congrArg List.length hargs)
          simp [divisor] at hdiv

/-- Columns in the place of columns keep the divisions. -/
theorem divisors_mapColumns {f : Sql.Column → Expr} (hf : ∀ c, divisors (f c) = []) (e : Expr) :
    divisors (e.mapColumns f) = (divisors e).map (Expr.mapColumns f) := by
  induction e using Expr.induct with
  | column c => rw [Expr.mapColumns_column, hf, divisors_leaf rfl, List.map_nil]
  | literal s t => rw [Expr.mapColumns_literal, divisors_leaf rfl, List.map_nil]
  | table d n => rw [Expr.mapColumns_table, divisors_leaf rfl, List.map_nil]
  | node op args ih =>
      rw [Expr.mapColumns_node, divisors_node, divisors_node, divisor_map, List.flatMap_map,
        List.map_append, List.map_flatMap]
      congr 1
      · cases divisor (.node op args) <;> rfl
      · exact List.flatMap_congr fun a ha => ih a ha

theorem guardedDenominator_eq_none {e : Expr} (h : divisor e = none) :
    guardedDenominator e = none := by
  unfold guardedDenominator
  split
  · simp [divisor] at h
  · rfl

theorem guardedDenominators_guardDivision {policy : OnZeroDenominator} (hp : policy ≠ .error)
    (n d : Expr) : (guardDivision n d policy.combine).nodes.filterMap guardedDenominator =
      d :: (n.nodes.filterMap guardedDenominator ++ d.nodes.filterMap guardedDenominator) := by
  cases policy with
  | error => exact absurd rfl hp
  | null =>
      simp [OnZeroDenominator.combine, guardDivision, guardedDenominator, Expr.number,
        Expr.nodes, Expr.nodesList_eq, List.filterMap_cons]
  | zero =>
      simp [OnZeroDenominator.combine, guardDivision, guardedDenominator, Expr.number,
        Expr.nodes, Expr.nodesList_eq, List.filterMap_cons]

/-- **The denominators of a guarded expression** are its divisors, guarded themselves. -/
theorem guardedDenominators {policy : OnZeroDenominator} (hp : policy ≠ .error) (e : Expr) :
    (guarded policy.combine e).nodes.filterMap guardedDenominator =
      (divisors e).map (guarded policy.combine) := by
  induction e using Expr.induct with
  | column c => rw [guarded, divisors_leaf rfl]; rfl
  | literal s t => rw [guarded, divisors_leaf rfl]; rfl
  | table d n => rw [guarded, divisors_leaf rfl]; rfl
  | node op args ih =>
      have hrest : (args.map (guarded policy.combine)).flatMap
          (fun a => a.nodes.filterMap guardedDenominator) =
          (args.flatMap divisors).map (guarded policy.combine) := by
        rw [List.flatMap_map, List.map_flatMap]
        exact List.flatMap_congr fun a ha => ih a ha
      cases hdiv : divisor (.node op args) with
      | none =>
          have hself : guardedDenominator (.node op (args.map (guarded policy.combine))) =
              none := by
            refine guardedDenominator_eq_none ?_
            rw [divisor_map, hdiv, Option.map_none]
          rw [guarded_node _ hdiv, nodes_node, List.filterMap_cons_none hself,
            List.filterMap_flatMap, hrest, divisors_node, hdiv, Option.toList_none,
            List.nil_append]
      | some d =>
          obtain ⟨n, rfl, rfl⟩ := divisor_eq_some hdiv
          rw [guarded_div, guardedDenominators_guardDivision hp, divisors_node, hdiv]
          simpa using hrest

theorem mem_divisors {d e : Expr} (h : d ∈ divisors e) : d ∈ e.nodes := by
  induction e using Expr.induct with
  | column | literal | table =>
      rw [divisors_leaf rfl] at h
      exact absurd h List.not_mem_nil
  | node op args ih =>
      rw [divisors_node, List.mem_append, Option.mem_toList, List.mem_flatMap] at h
      refine Expr.mem_nodes.mpr (.inr ?_)
      rcases h with h | ⟨a, ha, h⟩
      · obtain ⟨n, rfl, rfl⟩ := divisor_eq_some h
        exact ⟨d, by simp [Expr.children], Expr.mem_nodes.mpr (.inl rfl)⟩
      · exact ⟨a, ha, ih a ha h⟩

/-- A part of an expression reads columns of the expression. -/
theorem columns_of_mem_nodes {c : Sql.Column} {x e : Expr} (hx : x ∈ e.nodes)
    (hc : c ∈ x.columns) : c ∈ e.columns := by
  induction e using Expr.induct with
  | column | literal | table =>
      obtain rfl : x = _ := by simpa [Expr.nodes] using hx
      exact hc
  | node op args ih =>
      rcases Expr.mem_nodes.mp hx with rfl | ⟨a, ha, hxa⟩
      · exact hc
      · exact Expr.mem_columns_node.mpr ⟨a, ha, ih a ha hxa⟩

/-- The denominators of the divisions a template performs, over the values of its inputs. -/
theorem denominators_derived {m : MetricPlan} (h : m.combine = .derived) {t : Expr}
    (ht : m.template = some t) : denominators env leafName m =
      (t.walk.filterMap guardedDenominator).map fun d =>
        substituteOperands d (operandValues env leafName m.operands) := by
  rw [denominators, if_pos h, ht, Option.getD_some]

theorem mem_walk_filterMap {t x : Expr} : x ∈ t.walk.filterMap guardedDenominator ↔
    x ∈ t.nodes.filterMap guardedDenominator := by
  simp only [List.mem_filterMap, Expr.mem_walk]

theorem divisors_renameInput (names : List String) (c : Sql.Column) :
    divisors (renameInput names c) = [] := by
  unfold renameInput
  split
  · split <;> exact divisors_leaf rfl
  · exact divisors_leaf rfl

/-- Only the rate of a conversion divides, by the base. -/
theorem conversionTemplate_denominators {policy : OnZeroDenominator} (hp : policy ≠ .error)
    (calculation : ConversionCalculation) :
    (conversionTemplate calculation policy.combine).walk.filterMap guardedDenominator =
      match calculation with
      | .conversionRate => [Expr.bare (operandPlaceholder 1)]
      | .conversions => [] := by
  cases calculation <;> cases policy <;> first | exact absurd rfl hp | decide

theorem eval_substituteOperands_second (a b : Expr) :
    E.eval (substituteOperands (Expr.bare (operandPlaceholder 1)) [a, b]) = E.eval b := by
  have h1 : operandValue [a, b] ⟨"", "", operandPlaceholder 1⟩ = .node .paren [b] :=
    operandValue_placeholder Nat.one_lt_two
  rw [substituteOperands_eq, Expr.bare, Expr.mapColumns_column, h1, RowEngine.eval_paren]

/-- **A metric's own denominators.** The guarded denominators that are found in a template have
the values of the divisors of the metric's arithmetic. -/
theorem mem_denominators : ∀ {b : Binding} {m : MetricPlan}, b.Shapes env.lib m →
    b.Accepted env.lib → b.policy ≠ none → b.policy ≠ some .error → ∀ x,
      x ∈ (denominators env leafName m).map E.eval ↔ x ∈ b.denominators E env leafName m
  | .leaf _, _, _, _, hp, _, _ => absurd rfl hp
  | .composite b _ _, m, h, _, _, _, x => by
      rw [Binding.Shapes] at h
      rw [denominators, if_neg (h.1 ▸ b.canonical.onZeroDenominator.combine_ne.2),
        Binding.denominators]
      cases (columnsOf leafName m.refs)[1]? <;> rfl
  | .offset _ base _ _, m, h, hok, hp, he, x => by
      rw [Binding.Shapes] at h
      rw [Binding.Accepted] at hok
      rw [Binding.denominators]
      exact mem_denominators h hok hp he x
  | .derived b expr names inputs, m, h, hok, _, he, x => by
      rw [Binding.Shapes] at h
      rw [Binding.Accepted] at hok
      obtain ⟨hcombine, -, ⟨t, ht, htemplate, -⟩, hops⟩ := h
      obtain ⟨hvalid, hlen, hinputs⟩ := hok
      obtain ⟨hnodup, parsed, hparse, hplain, hcolumns⟩ := validateDerived_eq_ok hvalid
      have hp : b.canonical.onZeroDenominator ≠ .error := fun h => he (congrArg some h)
      have hlength : names.length = (operandValues env leafName m.operands).length := by
        rw [length_operandValues, hlen, hops.length_eq]
      -- a divisor with operands put in has the value of the divisor over the inputs
      have hdivisor : ∀ d ∈ divisors parsed, E.eval (substituteOperands
          (guarded b.canonical.onZeroDenominator.combine (d.mapColumns (renameInput names)))
          (operandValues env leafName m.operands)) = arithmetic E b.canonical.onZeroDenominator
            names (Binding.values E env leafName inputs m.operands) d := by
        intro d hd
        have hmem := mem_divisors hd
        rw [eval_derived _ hnodup hlength (Expr.isPlain_of_mem_nodes hplain hmem)
          fun c hc => hcolumns c (columns_of_mem_nodes hmem hc), eval_operandValues hops hinputs]
      rw [denominators_derived hcombine htemplate, derivedTemplate_eq_ok ht hparse,
        Binding.denominators, hparse, List.map_map]
      simp only [List.mem_map, mem_walk_filterMap, guardedDenominators hp,
        divisors_mapColumns (divisors_renameInput names), List.map_map, Function.comp_apply]
      constructor
      · rintro ⟨_, ⟨d, hd, rfl⟩, rfl⟩
        exact ⟨d, hd, (hdivisor d hd).symm⟩
      · rintro ⟨d, hd, rfl⟩
        exact ⟨_, ⟨d, hd, rfl⟩, hdivisor d hd⟩
  | .conversion b base conv p, m, h, hok, _, he, x => by
      obtain ⟨conversions, planned, hops, -, -, hbase⟩ := exists_of_conversion h
      rw [Binding.Shapes] at h
      rw [Binding.Accepted] at hok
      have hp : b.canonical.onZeroDenominator ≠ .error := fun h => he (congrArg some h)
      have hoperands : conversionOperands m = some (conversions, planned) := by
        rw [conversionOperands, hops]
      have hvalue := @eval_metricValue _ _ E env leafName base planned hbase hok
      rw [denominators_derived h.1 h.2.2.1, conversionTemplate_denominators hp,
        Binding.denominators, hoperands, hops]
      cases p.calculation with
      | conversions => rfl
      | conversionRate =>
          rw [operandValues, operandValues, operandValues]
          simp only [List.map_cons, List.map_nil, eval_substituteOperands_second, hvalue]

/-- A template that does not divide has no denominator. -/
theorem denominators_of_not_divides {m : MetricPlan} (h : m.combine = .derived) {t : Expr}
    (ht : m.template = some t) (hd : divides t = false) : denominators env leafName m = [] := by
  rw [denominators_derived h ht, List.map_eq_nil_iff, List.filterMap_eq_nil_iff]
  intro x hx
  refine guardedDenominator_eq_none ?_
  have hx' := List.any_eq_false.mp hd x hx
  unfold divisor
  split
  · simp at hx'
  · rfl

/-- A plan follows the policy of its binding, unless it has nothing to divide. -/
theorem zeroDenominatorPolicy_eq : ∀ {b : Binding} {m : MetricPlan}, b.Shapes env.lib m →
    b.Accepted env.lib → zeroDenominatorPolicy m = b.policy.map OnZeroDenominator.combine ∨
      zeroDenominatorPolicy m = none ∧
        (b.policy ≠ some .error → b.denominators E env leafName m = [])
  | .leaf _, m, h, _ => by
      rw [Binding.Shapes] at h
      left
      simp [zeroDenominatorPolicy, h.1, Binding.policy]
  | .composite b _ _, m, h, _ => by
      rw [Binding.Shapes] at h
      obtain ⟨hcombine, hacc, -⟩ := h
      have hpolicy := b.canonical.onZeroDenominator.combine_ne
      left
      simp [zeroDenominatorPolicy, hacc, hcombine, hpolicy, Binding.policy]
  | .offset _ base _ _, m, h, hok => by
      rw [Binding.Shapes] at h
      rw [Binding.Accepted] at hok
      rw [Binding.policy, Binding.denominators]
      exact zeroDenominatorPolicy_eq h hok
  | .derived b expr names inputs, m, h, hok => by
      have hmem := @mem_denominators _ _ E env leafName _ m h hok (by simp [Binding.policy])
      rw [Binding.Shapes] at h
      obtain ⟨hcombine, hacc, ⟨t, -, htemplate, hdivision⟩, -⟩ := h
      have hzdp : zeroDenominatorPolicy m = m.division := by
        simp [zeroDenominatorPolicy, hacc, hcombine]
      -- without a division in the template there is no denominator to probe
      cases hdivides : divides t with
      | true =>
          left
          simp [hzdp, hdivision, hdivides, Binding.policy]
      | false =>
          refine .inr ⟨by simp [hzdp, hdivision, hdivides], fun hp => ?_⟩
          refine List.eq_nil_iff_forall_not_mem.mpr fun x hx => ?_
          have := (hmem hp x).mpr hx
          rw [denominators_of_not_divides hcombine htemplate hdivides] at this
          exact absurd this List.not_mem_nil
  | .conversion b base conv p, m, h, hok => by
      rw [Binding.Shapes] at h
      obtain ⟨hcombine, hacc, -, hdivision, -⟩ := h
      have hzdp : zeroDenominatorPolicy m = m.division := by
        simp [zeroDenominatorPolicy, hacc, hcombine]
      by_cases hrate : p.calculation = .conversionRate
      · left
        simp [hzdp, hdivision, hrate, Binding.policy]
      · refine .inr ⟨by simp [hzdp, hdivision, hrate], fun _ => ?_⟩
        rw [Binding.denominators]
        split
        next _ _ _ hr => exact absurd hr hrate
        · rfl

/-- The denominators a plan counts are those of its binding, whichever policies are counted. -/
theorem mem_ownCounted {b : Binding} {m : MetricPlan} (h : b.Shapes env.lib m)
    (hok : b.Accepted env.lib) {counted : Combine → Bool} (hraw : counted .ratioRaw = false)
    (x : Outcome α) :
    (zeroDenominatorPolicy m).any counted = true ∧
        x ∈ (denominators env leafName m).map E.eval ↔
      b.policy.any (fun p => counted p.combine) = true ∧ x ∈ b.denominators E env leafName m := by
  have hpolicy := @zeroDenominatorPolicy_eq _ _ E env leafName b m h hok
  cases hp : b.policy with
  | none =>
      have hnone : zeroDenominatorPolicy m = none := by
        rcases hpolicy with hzdp | ⟨hzdp, -⟩
        · rw [hzdp, hp, Option.map_none]
        · exact hzdp
      simp [hnone]
  | some p =>
      by_cases herror : p = .error
      · subst herror
        have hnot : (zeroDenominatorPolicy m).any counted = false := by
          rcases hpolicy with hzdp | ⟨hzdp, -⟩
          · rw [hzdp, hp]
            exact hraw
          · rw [hzdp, Option.any_none]
        simp [hnot, OnZeroDenominator.combine, hraw]
      · have hne : b.policy ≠ some .error := by
          rw [hp]
          exact fun h => herror (Option.some.inj h)
        rcases hpolicy with hzdp | ⟨hzdp, hnil⟩
        · rw [hzdp, hp, mem_denominators h hok (by simp [hp]) hne]
          rfl
        · simp [hzdp, hnil hne]

/-- The denominators that turn a zero into `NULL`: a metric's own, and those of its inputs. -/
theorem nullDenominators_eq : ∀ (b : Binding) (m : MetricPlan),
    b.nullDenominators E env leafName m =
      (if b.policy = some .null then b.denominators E env leafName m else []) ++
        b.inputDenominators E env leafName m
  | .leaf _, m => by
      simp [Binding.nullDenominators, Binding.policy, Binding.inputDenominators]
  | .composite b _ _, m => by
      simp [Binding.nullDenominators, Binding.policy, Binding.inputDenominators]
  | .offset _ base _ _, m => by
      rw [Binding.nullDenominators, Binding.policy, Binding.denominators,
        Binding.inputDenominators]
      exact nullDenominators_eq base m
  | .derived b _ _ _, m => by
      simp [Binding.nullDenominators, Binding.policy, Binding.inputDenominators]
  | .conversion b base _ _, m => by
      simp [Binding.nullDenominators, Binding.policy, Binding.inputDenominators]

/-- The denominators of the plans, in a list, that turn a zero into `NULL`. -/
def nulledIn (env : Env) (leafName : Nat → String) (ps : List MetricPlan) : List Expr :=
  (ps.filter fun p => zeroDenominatorPolicy p == some .ratioNull).flatMap
    (denominators env leafName)

theorem nulledIn_singleton (m : MetricPlan) : nulledIn env leafName [m] =
    if (zeroDenominatorPolicy m).any (· == .ratioNull) then denominators env leafName m
    else [] := by
  rw [nulledIn, List.filter_singleton]
  cases zeroDenominatorPolicy m with
  | none => rfl
  | some c => cases hc : c == Combine.ratioNull <;> simp [hc]

theorem nulledIn_append (ps qs : List MetricPlan) : nulledIn env leafName (ps ++ qs) =
    nulledIn env leafName ps ++ nulledIn env leafName qs := by
  rw [nulledIn, List.filter_append, List.flatMap_append]
  rfl

theorem MetricPlan.walk_eq (m : MetricPlan) : m.walk = m :: MetricPlan.walkList m.operands := by
  cases m
  rw [MetricPlan.walk]

/-- A plan and the plans under it, once those under it are accounted for. -/
theorem mem_nulledIn_walk {b : Binding} {m : MetricPlan} (h : b.Shapes env.lib m)
    (hok : b.Accepted env.lib) {x : Outcome α}
    (hin : x ∈ (nulledIn env leafName (MetricPlan.walkList m.operands)).map E.eval ↔
      x ∈ b.inputDenominators E env leafName m) :
    x ∈ (nulledIn env leafName m.walk).map E.eval ↔
      x ∈ b.nullDenominators E env leafName m := by
  have hcounted := @mem_ownCounted _ _ E env leafName b m h hok (· == .ratioNull) rfl x
  have hplan : x ∈ (nulledIn env leafName [m]).map E.eval ↔
      (zeroDenominatorPolicy m).any (· == .ratioNull) = true ∧
        x ∈ (denominators env leafName m).map E.eval := by
    rw [nulledIn_singleton]
    cases (zeroDenominatorPolicy m).any (· == .ratioNull) <;> simp
  have hpolicy : b.policy.any (fun p => p.combine == .ratioNull) = true ↔
      b.policy = some .null := by
    rcases b.policy with _ | (_ | _ | _) <;> simp [OnZeroDenominator.combine]
  have hown : (x ∈ if b.policy = some .null then b.denominators E env leafName m else []) ↔
      b.policy = some .null ∧ x ∈ b.denominators E env leafName m := by
    split <;> simp [*]
  rw [MetricPlan.walk_eq, ← List.singleton_append, nulledIn_append, List.map_append,
    List.mem_append, hplan, hcounted, hpolicy, hin, nullDenominators_eq, List.mem_append, hown]

mutual
theorem mem_inputDenominators : ∀ {b : Binding} {m : MetricPlan}, b.Shapes env.lib m →
    b.Accepted env.lib → ∀ x,
      x ∈ (nulledIn env leafName (MetricPlan.walkList m.operands)).map E.eval ↔
        x ∈ b.inputDenominators E env leafName m
  | .leaf _, m, h, _, x => by
      rw [Binding.Shapes] at h
      rw [h.2, MetricPlan.walkList, Binding.inputDenominators]
      rfl
  | .composite _ _ _, m, h, _, x => by
      rw [Binding.Shapes] at h
      rw [h.2.2.1, MetricPlan.walkList, Binding.inputDenominators]
      rfl
  | .offset _ base _ _, m, h, hok, x => by
      rw [Binding.Shapes] at h
      rw [Binding.Accepted] at hok
      rw [Binding.inputDenominators]
      exact mem_inputDenominators h hok x
  | .derived _ _ _ inputs, m, h, hok, x => by
      rw [Binding.Shapes] at h
      rw [Binding.Accepted] at hok
      rw [Binding.inputDenominators]
      exact mem_nullDenominatorsList h.2.2.2 hok.2.2 x
  | .conversion _ base _ _, m, h, hok, x => by
      obtain ⟨conversions, planned, hops, hdirect, hnone, hbase⟩ := exists_of_conversion h
      rw [Binding.Accepted] at hok
      have hoperands : conversionOperands m = some (conversions, planned) := by
        rw [conversionOperands, hops]
      have hconv : nulledIn env leafName conversions.walk = [] := by
        rw [MetricPlan.walk_eq, hnone, MetricPlan.walkList, nulledIn_singleton]
        simp [zeroDenominatorPolicy, hdirect]
      rw [hops, MetricPlan.walkList, MetricPlan.walkList, MetricPlan.walkList, List.append_nil,
        nulledIn_append, hconv, List.nil_append, Binding.inputDenominators, hoperands]
      exact mem_nulledIn_walk hbase hok (mem_inputDenominators hbase hok x)

theorem mem_nullDenominatorsList : ∀ {bs : List Binding} {ms : List MetricPlan},
    Binding.ShapesList env.lib bs ms → Binding.AcceptedList env.lib bs → ∀ x,
      x ∈ (nulledIn env leafName (MetricPlan.walkList ms)).map E.eval ↔
        x ∈ Binding.nullDenominatorsList E env leafName bs ms
  | [], [], _, _, x => by
      rw [MetricPlan.walkList, Binding.nullDenominatorsList]
      · rfl
      · simp
  | [], _ :: _, h, _, _ => by simp [Binding.ShapesList] at h
  | _ :: _, [], h, _, _ => by simp [Binding.ShapesList] at h
  | b :: bs, m :: ms, h, hok, x => by
      rw [Binding.ShapesList] at h
      rw [Binding.AcceptedList] at hok
      rw [MetricPlan.walkList, nulledIn_append, List.map_append, List.mem_append,
        Binding.nullDenominatorsList, List.mem_append,
        mem_nulledIn_walk h.1 hok.1 (mem_inputDenominators h.1 hok.1 x),
        mem_nullDenominatorsList h.2 hok.2 x]
end

/-- A metric without a policy of its own does not divide. -/
theorem denominators_of_policy_none : ∀ {b : Binding} (m : MetricPlan), b.policy = none →
    b.denominators E env leafName m = []
  | .leaf _, _, _ => by rw [Binding.denominators]
  | .offset _ base _ _, m, h => by
      rw [Binding.policy] at h
      rw [Binding.denominators]
      exact denominators_of_policy_none m h
  | .composite _ _ _, _, h => by simp [Binding.policy] at h
  | .derived _ _ _ _, _, h => by simp [Binding.policy] at h
  | .conversion _ _ _ _, _, h => by simp [Binding.policy] at h

/-- **The probed denominators** of a plan are those of its binding. -/
theorem mem_countedDenominators {b : Binding} {m : MetricPlan} (h : b.Shapes env.lib m)
    (hok : b.Accepted env.lib) (x : Outcome α) :
    x ∈ (countedDenominators env leafName m).map E.eval ↔ x ∈ b.probed E env leafName m := by
  have hcounted := @mem_ownCounted _ _ E env leafName b m h hok
    (fun c => c == .ratioNull || c == .ratioZero) rfl x
  have hin := @mem_inputDenominators _ _ E env leafName b m h hok x
  have hown : x ∈ (if substitutesZeroDenominator m then denominators env leafName m
      else []).map E.eval ↔ (zeroDenominatorPolicy m).any
        (fun c => c == .ratioNull || c == .ratioZero) = true ∧
          x ∈ (denominators env leafName m).map E.eval := by
    have hsubstitutes : substitutesZeroDenominator m = (zeroDenominatorPolicy m).any
        fun c => c == .ratioNull || c == .ratioZero := by
      rw [substitutesZeroDenominator]
      cases zeroDenominatorPolicy m <;> rfl
    rw [hsubstitutes]
    cases (zeroDenominatorPolicy m).any fun c => c == .ratioNull || c == .ratioZero <;> simp
  have hpolicy : (b.policy.any (fun p => p.combine == .ratioNull || p.combine == .ratioZero) = true
      ∧ x ∈ b.denominators E env leafName m) ↔
        x ∈ if b.policy = some .error then [] else b.denominators E env leafName m := by
    rcases hp : b.policy with _ | (_ | _ | _) <;>
      simp [OnZeroDenominator.combine, denominators_of_policy_none, hp]
  rw [countedDenominators, List.map_append, List.mem_append, hown, hcounted, hpolicy,
    Binding.probed, List.mem_append]
  exact or_congr_right hin

/-! ## Flags -/

/-- A denominator compared with zero. -/
theorem decided_isZero (d : Expr) : (E.eval (.mkEq d (.number "0"))).decided =
    if E.eval d = .failed then none else some (decide (E.eval d = .data E.zero)) := by
  rw [Expr.mkEq, RowEngine.eval_node (by decide), List.map_cons, List.map_singleton,
    RowEngine.eval_zero]
  cases E.eval d with
  | failed => rfl
  | value v =>
      have hdecided : (E.apply E.divide .eq [.value v, .data E.zero]).decided =
          some (Value.eq3 v (.data E.zero)).isTrue := rfl
      rw [hdecided, if_neg (by simp), Value.isTrue_eq3]
      cases v <;> simp [Outcome.data]

/-- **The zero-denominator flag** is the probe of its denominators. -/
theorem eval_zeroDenominatorFlag (ds : List Expr) :
    E.eval (zeroDenominatorFlag ds) = probe E (ds.map E.eval) := by
  -- the disjunction holds where one comparison does, and fails where one fails
  have hor : (E.eval (mkOr (ds.map fun d => .mkEq d (.number "0")))).decided =
      Outcome.anyHolds ((ds.map E.eval).map fun o =>
        if o = .failed then none else some (decide (o = .data E.zero))) := by
    have hmap (es : List Expr) : (es.map fun d => Expr.mkEq d (.number "0")).map
        (fun c => (E.eval c).decided) = (es.map E.eval).map fun o =>
          if o = .failed then none else some (decide (o = .data E.zero)) := by
      rw [List.map_map, List.map_map]
      exact List.map_congr_left fun d _ => decided_isZero d
    cases ds with
    | nil =>
        rw [List.map_nil, mkOr, RowEngine.eval_node (by decide)]
        rfl
    | cons d ds =>
        rw [← hmap (d :: ds), List.map_cons, mkOr, RowEngine.decided_foldl_or]
  rw [zeroDenominatorFlag, RowEngine.eval_node (by decide), List.map_cons, List.map_cons,
    List.map_singleton, RowEngine.eval_zero, RowEngine.eval_one]
  refine (Outcome.choose_eq _ _ _).trans ?_
  have hfailed : none ∈ ((ds.map E.eval).map fun o =>
      if o = .failed then none else some (decide (o = .data E.zero))) ↔
        .failed ∈ ds.map E.eval := by
    rw [List.mem_map]
    constructor
    · rintro ⟨o, ho, hnone⟩
      split at hnone <;> simp_all
    · exact fun h => ⟨_, h, if_pos rfl⟩
  have hzero : some true ∈ ((ds.map E.eval).map fun o =>
      if o = .failed then none else some (decide (o = .data E.zero))) ↔
        .data E.zero ∈ ds.map E.eval := by
    rw [List.mem_map]
    constructor
    · rintro ⟨o, ho, htrue⟩
      split at htrue
      · simp at htrue
      · obtain rfl : o = .data E.zero := by simpa using htrue
        exact ho
    · exact fun h => ⟨_, h, by simp [Outcome.data]⟩
  rw [hor, probe, Outcome.anyHolds]
  simp only [hfailed, hzero]
  by_cases hf : Outcome.failed ∈ ds.map E.eval
  · rw [if_pos hf, if_pos hf]
  · rw [if_neg hf, if_neg hf]
    by_cases hz : Outcome.data E.zero ∈ ds.map E.eval <;> simp [hz]

/-- The order and repetition of denominators do not matter. -/
theorem probe_congr {as bs : List (Outcome α)} (h : ∀ x, x ∈ as ↔ x ∈ bs) :
    probe E as = probe E bs := by
  simp only [probe, h]

/-- **Divisions follow their policies.** In a tree of derived, conversion and ratio metrics of any
depth, the output expression of a planned metric evaluates to the metric's own arithmetic, each
division under the policy of the metric that declares it, and the flag is raised for the
denominators of its own substituted divisions and of the inputs that turn a zero into `NULL`. -/
theorem planMetric_evaluates {ctx : LeafContext} {name : String} {b : Binding} {pl : MetricLeaves}
    (h : planMetric ctx name b = .ok pl) (hok : b.Accepted ctx.env.lib) (E : RowEngine α)
    (leafName : Nat → String) (offset : Nat) :
    E.eval (metricValue ctx.env leafName (pl.metric.shifted offset)) =
        b.value E ctx.env leafName (pl.metric.shifted offset) ∧
      E.eval (zeroDenominatorFlag
          (countedDenominators ctx.env leafName (pl.metric.shifted offset))) =
        probe E (b.probed E ctx.env leafName (pl.metric.shifted offset)) := by
  have hshapes := (planMetric_shapes h).shifted offset
  refine ⟨eval_metricValue hshapes hok, ?_⟩
  rw [eval_zeroDenominatorFlag]
  exact probe_congr (mem_countedDenominators hshapes hok)

end

/-! ### The share of the billed amount that is paid -/

private def clinicTexts : List (String × Expr) :=
  [("SUM(paid)", .node (.agg .sum) [.bare "paid"]),
   ("SUM(billed)", .node (.agg .sum) [.bare "billed"]),
   ("share / billed", .node .div [.bare "share", .bare "billed"])]

private def clinicVisits : SemanticSource where
  name := "visits"
  connection := "wh"
  table := "visits"
  columns := [⟨"day", .date, true⟩, ⟨"paid", .decimal, true⟩, ⟨"billed", .decimal, true⟩]
  measures := [{ name := "paid", expr := "SUM(paid)" }, { name := "billed", expr := "SUM(billed)" }]
  dimensions := [{ name := "day", column := some "day" }]
  measures_nodup := by decide

private def clinicContext : LeafContext where
  env := ⟨Lib.ofTexts clinicTexts, "postgres", { list := [clinicVisits] }⟩
  query := { metrics := ["share"], dimensions := ["day"] }
  resolver := { bindings := [] }
  principal := {}
  policy := ContractResolver.unrestricted true

private def visitTotal (measure : String) : Binding :=
  .leaf { metric := measure, canonical := { of := .single "visits" measure } }

/-- A ratio that is zero for a zero denominator. -/
private def paidShare : Binding :=
  .composite { metric := "share", canonical :=
    { of := .ratio "paid" "billed", onZeroDenominator := .zero } }
    (visitTotal "paid") (visitTotal "billed")

/-- The ratio divided once more, under the policy `null`. -/
private def sharePerBilled : Binding :=
  .derived { metric := "rate", canonical :=
    { of := .derived "share / billed" [{ metric := "share" }, { metric := "billed" }] } }
    "share / billed" ["share", "billed"] [paidShare, visitTotal "billed"]

/-- One day, by its paid and its billed amount. -/
private def clinicDay (paid billed : Outcome ℚ) : RowEngine ℚ where
  zero := 0
  one := 1
  number t := if t = "0" then .data 0 else if t = "1" then .data 1 else .failed
  number_zero := rfl
  number_one := rfl
  string _ := .failed
  column c := if c.name = "paid" then paid else billed
  window _ := .failed
  quotient a b := some (a / b)
  byZero _ := .failed
  operator _ _ := .failed

/-- Under the policy `zero`, a ratio without a numerator is zero, where it would be `NULL`. -/
theorem planMetric_evaluates_counterexample :
    ∃ pl, planMetric clinicContext "share" paidShare = .ok pl ∧
      (clinicDay .null (.data 2)).eval
        (metricValue clinicContext.env (fun _ => "_leaf") pl.metric) = .data 0 := by
  obtain ⟨pl, hpl, hvalue⟩ := exists_ok_of_any (x := planMetric clinicContext "share" paidShare)
    (P := fun pl => (clinicDay .null (.data 2)).eval
      (metricValue clinicContext.env (fun _ => "_leaf") pl.metric) == .data 0) (by decide +kernel)
  exact ⟨pl, hpl, beq_iff_eq.mp hvalue⟩

theorem planMetric_evaluates_share :
    ∃ pl, planMetric clinicContext "rate" sharePerBilled = .ok pl ∧
      (clinicDay (.data 6) (.data 2)).eval
        (metricValue clinicContext.env (fun _ => "_leaf") (pl.metric.shifted 0)) =
          .data (3 / 2) := by
  obtain ⟨pl, hpl, hvalue⟩ := exists_ok_of_any (x := planMetric clinicContext "rate" sharePerBilled)
    (P := fun pl => sharePerBilled.value (clinicDay (.data 6) (.data 2)) clinicContext.env
      (fun _ => "_leaf") (pl.metric.shifted 0) == .data (3 / 2)) (by decide +kernel)
  have haccepted : sharePerBilled.Accepted clinicContext.env.lib := by
    have hvalid : validateDerived clinicContext.env.lib "share / billed" ["share", "billed"] =
        .ok () := by decide +kernel
    exact ⟨hvalid, rfl, trivial, trivial, trivial⟩
  exact ⟨pl, hpl, (planMetric_evaluates hpl haccepted _ _ 0).1.trans (beq_iff_eq.mp hvalue)⟩

end Canonic
