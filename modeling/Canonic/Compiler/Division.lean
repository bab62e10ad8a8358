import Canonic.Compiler.Outputs
import Canonic.Sql.Scalar

set_option autoImplicit false

/-! # Division

What the output expression of a ratio, a derived or a conversion metric evaluates to, over the
values of its leaves, and when its zero-denominator flag is raised. The expression of a derived
metric is rewritten twice, inputs to placeholders and placeholders to the inputs' own expressions,
with every division guarded in between. -/

namespace Canonic

open Sql (Expr Op Outcome RowEngine Value)

/-! ## What a contract guarantees

`contracts/models.py`: the expression of a derived metric is arithmetic over the names of its
inputs. -/

/-- `_DERIVED_OPERATORS` and `DERIVED_FUNCTIONS`. -/
def derivedOperators : List Op :=
  [.add, .sub, .mul, .div, .func "Neg", .paren, .coalesce, .nullif, .func "Abs", .func "Round",
    .func "Least", .func "Greatest"]

def isDerivedOperator : Expr → Bool
  | .node op _ => op ∈ derivedOperators
  | _ => false

/-- One node of `derived_input_names`, after the names read so far. -/
def readDerivedNode (lib : Lib) (names : List String) : Expr → Except String (List String)
  | .column c =>
      if c.table ≠ "" then
        .error ("expr may name inputs only, not the column " ++
          pyRepr (lib.sql none (.column c)))
      else .ok (if c.name ∈ names then names else names ++ [c.name])
  | .literal true s =>
      .error s!"expr may not contain the string {pyRepr (lib.sql none (.literal true s))}"
  | .literal false _ => .ok names
  | e =>
      if isDerivedOperator e then .ok names
      else .error ("expr may only use + - * /, numbers, parentheses and COALESCE, NULLIF, ABS, " ++
        s!"ROUND, LEAST, GREATEST, not {pyRepr (lib.sql none e)}")

/-- `derived_input_names`. The parser's own message is left out. -/
def derivedInputNames (lib : Lib) (expr : String) : Except String (List String) :=
  match lib.parseOne (some .postgres) expr with
  | none => .error s!"expr {pyRepr expr} is not valid SQL"
  | some parsed => parsed.walk.foldlM (readDerivedNode lib) []

/-- `_validate_derived`, over the names of the inputs; an error comes with its field. -/
def validateDerived (lib : Lib) (expr : String) (declared : List String) :
    Except (String × String) Unit :=
  let duplicates := sortedSet (declared.filter fun n => 1 < declared.count n)
  if declared = [] then .error ("inputs", "derived binding requires non-empty 'inputs'")
  else if duplicates ≠ [] then
    .error ("inputs", s!"derived binding names {pyReprList duplicates} more than once")
  else
    match derivedInputNames lib expr with
    | .error message => .error ("expr", message)
    | .ok used =>
        let unknown := used.filter (· ∉ declared)
        let unused := declared.filter (· ∉ used)
        if unknown ≠ [] then
          .error ("expr", s!"expr reads {pyReprList unknown}, which are not inputs; declare " ++
            "them in 'inputs'")
        else if unused ≠ [] then
          .error ("inputs", s!"inputs {pyReprList unused} are not used in expr")
        else .ok ()

mutual
/-- Every derived metric of the tree has an expression the contract accepts, and resolved
inputs. -/
def Binding.Accepted (lib : Lib) : Binding → Prop
  | .leaf _ => True
  | .composite _ _ _ => True
  | .offset _ base _ _ => base.Accepted lib
  | .derived _ expr names inputs =>
      validateDerived lib expr names = .ok () ∧ names.length = inputs.length ∧
        Binding.AcceptedList lib inputs
  | .conversion _ base _ _ => base.Accepted lib

def Binding.AcceptedList (lib : Lib) : List Binding → Prop
  | [] => True
  | b :: bs => b.Accepted lib ∧ Binding.AcceptedList lib bs
end

theorem readDerivedNode_eq_ok {lib : Lib} {names names' : List String} {e : Expr}
    (h : readDerivedNode lib names e = .ok names') : names ⊆ names' ∧ e.readsGroup = false ∧
      ∀ c, e = .column c → c.table = "" ∧ c.name ∈ names' := by
  cases e with
  | column c =>
      simp only [readDerivedNode] at h
      split at h
      · simp at h
      next htable =>
        obtain rfl := Except.ok.inj h
        refine ⟨?_, rfl, ?_⟩
        · split
          · exact List.Subset.refl _
          · exact List.subset_append_left _ _
        · rintro _ ⟨⟩
          refine ⟨by simpa using htable, ?_⟩
          split
          next hmem => exact hmem
          · simp
  | literal s t =>
      cases s with
      | true => simp [readDerivedNode] at h
      | false =>
          obtain rfl := Except.ok.inj h
          exact ⟨List.Subset.refl _, rfl, by simp⟩
  | table d n => simp [readDerivedNode, isDerivedOperator] at h
  | node op args =>
      simp only [readDerivedNode] at h
      split at h
      next hop =>
        obtain rfl := Except.ok.inj h
        refine ⟨List.Subset.refl _, ?_, by simp⟩
        have hall : ∀ op ∈ derivedOperators, op.readsGroup = false := by decide
        exact hall op (by simpa [isDerivedOperator] using hop)
      · simp at h

theorem foldlM_readDerivedNode {lib : Lib} {es : List Expr} {names used : List String}
    (h : es.foldlM (readDerivedNode lib) names = .ok used) : names ⊆ used ∧
      ∀ e ∈ es, e.readsGroup = false ∧ ∀ c, e = .column c → c.table = "" ∧ c.name ∈ used := by
  induction es generalizing names with
  | nil =>
      obtain rfl : names = used := by simpa using h
      exact ⟨List.Subset.refl _, by simp⟩
  | cons e es ih =>
      rw [List.foldlM_cons] at h
      obtain ⟨names', he, hes⟩ := bind_eq_ok.mp h
      obtain ⟨hsub, hgroup, hcol⟩ := readDerivedNode_eq_ok he
      obtain ⟨hsub', hrest⟩ := ih hes
      refine ⟨List.Subset.trans hsub hsub', ?_⟩
      rintro x hx
      rcases List.mem_cons.mp hx with rfl | hx
      · exact ⟨hgroup, fun c hc => ⟨(hcol c hc).1, hsub' (hcol c hc).2⟩⟩
      · exact hrest x hx

/-- **An accepted expression**: over single rows, each column the plain name of one input. -/
theorem validateDerived_eq_ok {lib : Lib} {expr : String} {names : List String}
    (h : validateDerived lib expr names = .ok ()) : names.Nodup ∧
      ∃ parsed, lib.parseOne (some .postgres) expr = some parsed ∧ parsed.isPlain = true ∧
        ∀ c ∈ parsed.columns, c.table = "" ∧ c.name ∈ names := by
  simp only [validateDerived, derivedInputNames] at h
  split at h
  · simp at h
  split at h
  · simp at h
  next hdup =>
    have hnodup : names.Nodup := by
      rw [List.nodup_iff_count_le_one]
      intro n
      by_contra hn
      have hmem : n ∈ names := List.count_pos_iff.mp (by omega)
      refine hdup (List.ne_nil_of_mem (mem_sortedSet.mpr (List.mem_filter.mpr ⟨hmem, ?_⟩)))
      exact decide_eq_true (Nat.lt_of_not_le hn)
    refine ⟨hnodup, ?_⟩
    cases hparse : lib.parseOne (some .postgres) expr with
    | none => simp [hparse] at h
    | some parsed =>
        simp only [hparse] at h
        split at h
        · simp at h
        next used hused =>
          obtain ⟨-, hnodes⟩ := foldlM_readDerivedNode hused
          split at h
          · simp at h
          next hunknown =>
            refine ⟨parsed, rfl, ?_, fun c hc => ?_⟩
            · refine List.all_eq_true.mpr fun x hx => ?_
              rw [(hnodes x (Expr.mem_walk.mpr hx)).1]
              rfl
            · obtain ⟨htable, hmem⟩ :=
                (hnodes _ (Expr.mem_walk.mpr (Expr.mem_columns.mp hc))).2 c rfl
              refine ⟨htable, ?_⟩
              by_contra hn
              refine hunknown ?_
              exact List.ne_nil_of_mem (List.mem_filter.mpr ⟨hmem, by simpa using hn⟩)

/-! ## The arithmetic of a metric

The value of each kind of metric over the values of its leaves. A binding says how they are
combined, and its plan which columns they are. -/

section
variable {α : Type} [DecidableEq α] (E : RowEngine α)

/-- What a metric's division gives for a zero denominator. -/
def byZeroUnder (policy : OnZeroDenominator) (x y : Value α) : Outcome α :=
  match policy with
  | .null => .null
  | .zero => .data E.zero
  | .error => E.divided x y

/-- A division of two values under a policy; under `zero` an unknown quotient is zero too. -/
def quotientUnder (policy : OnZeroDenominator) (x y : Value α) : Outcome α :=
  if x = .null ∨ y = .null then
    if policy = .zero then .data E.zero else .null
  else if y = .data E.zero then byZeroUnder E policy x y
  else E.divided x y

/-- The division of a metric under its policy. -/
def divideUnder (policy : OnZeroDenominator) (n d : Outcome α) : Outcome α :=
  n.andThen fun x => d.andThen fun y => quotientUnder E policy x y

/-- The row a derived expression is read over: its inputs under their names. -/
def inputRow (names : List String) (values : List (Outcome α)) : RowEngine α :=
  E.onRow fun c => ((names.zip values).lookup c.name).getD .failed

/-- A derived expression, every division under the metric's policy. -/
def arithmetic (policy : OnZeroDenominator) (names : List String) (values : List (Outcome α)) :
    Expr → Outcome α :=
  (inputRow E names values).evalWith (divideUnder E policy)

/-- A conversion metric: without conversions it is zero wherever the base has a value. -/
def conversionValue (policy : OnZeroDenominator) (calculation : ConversionCalculation)
    (conversions base : Outcome α) : Outcome α :=
  match calculation with
  | .conversionRate => divideUnder E policy (.coalesce [conversions, .data E.zero]) base
  | .conversions =>
      .coalesce [conversions, base.andThen fun v => if v = .null then .null else .data E.zero]

variable (env : Env) (leafName : Nat → String)

/-- The plan of a conversion's two inputs: its conversions and its base. -/
def conversionOperands (m : MetricPlan) : Option (MetricPlan × MetricPlan) :=
  match m.operands with
  | [conversions, base] => some (conversions, base)
  | _ => none

mutual
/-- The value of a metric over the values of its leaves. -/
def Binding.value : Binding → MetricPlan → Outcome α
  | .leaf _, m => E.eval (metricValue env leafName m)
  | .composite b _ _, m =>
      match columnsOf leafName m.refs with
      | [n, d] => divideUnder E b.canonical.onZeroDenominator (E.eval n) (E.eval d)
      | _ => .failed
  | .offset _ base _ _, m => base.value m
  | .derived b expr names inputs, m =>
      match env.lib.parseOne (some .postgres) expr with
      | some parsed => arithmetic E b.canonical.onZeroDenominator names
          (Binding.values inputs m.operands) parsed
      | none => .failed
  | .conversion b base _ p, m =>
      match conversionOperands m with
      | some o => conversionValue E b.canonical.onZeroDenominator p.calculation
          (E.eval (metricValue env leafName o.1)) (base.value o.2)
      | none => .failed

def Binding.values : List Binding → List MetricPlan → List (Outcome α)
  | b :: bs, m :: ms => b.value m :: Binding.values bs ms
  | _, _ => []
end

/-- The divisor of a division. -/
def divisor : Expr → Option Expr
  | .node .div [_, d] => some d
  | _ => none

theorem divisor_eq_some {op : Op} {args : List Expr} {d : Expr}
    (h : divisor (.node op args) = some d) : ∃ n, op = .div ∧ args = [n, d] := by
  unfold divisor at h
  split at h
  next n _ hnode =>
    injection hnode with hop hargs
    obtain rfl := Option.some.inj h
    exact ⟨n, hop, hargs⟩
  · simp at h

/-- The divisors of an expression. -/
def divisors (e : Expr) : List Expr := e.nodes.filterMap divisor

/-- The policy of the divisions a metric itself performs. -/
def Binding.policy : Binding → Option OnZeroDenominator
  | .leaf _ => none
  | .composite b _ _ => some b.canonical.onZeroDenominator
  | .offset _ base _ _ => base.policy
  | .derived b _ _ _ => some b.canonical.onZeroDenominator
  | .conversion b _ _ _ => some b.canonical.onZeroDenominator

/-- The values of the denominators of the divisions a metric itself performs. -/
def Binding.denominators : Binding → MetricPlan → List (Outcome α)
  | .leaf _, _ => []
  | .composite _ _ _, m => (((columnsOf leafName m.refs)[1]?).map E.eval).toList
  | .offset _ base _ _, m => base.denominators m
  | .derived b expr names inputs, m =>
      match env.lib.parseOne (some .postgres) expr with
      | some parsed => (divisors parsed).map
          (arithmetic E b.canonical.onZeroDenominator names
            (Binding.values E env leafName inputs m.operands))
      | none => []
  | .conversion _ base _ p, m =>
      match conversionOperands m, p.calculation with
      | some o, .conversionRate => [base.value E env leafName o.2]
      | _, _ => []

mutual
/-- The denominators of a metric, and of the metrics under it, that follow the policy `null`. -/
def Binding.nullDenominators : Binding → MetricPlan → List (Outcome α)
  | .leaf _, _ => []
  | .offset _ base _ _, m => base.nullDenominators m
  | .composite b n d, m =>
      if b.canonical.onZeroDenominator = .null
        then (Binding.composite b n d).denominators E env leafName m else []
  | .derived b expr names inputs, m =>
      (if b.canonical.onZeroDenominator = .null
        then (Binding.derived b expr names inputs).denominators E env leafName m else []) ++
        Binding.nullDenominatorsList inputs m.operands
  | .conversion b base conv p, m =>
      (if b.canonical.onZeroDenominator = .null
        then (Binding.conversion b base conv p).denominators E env leafName m else []) ++
        match conversionOperands m with
        | some o => base.nullDenominators o.2
        | none => []

def Binding.nullDenominatorsList : List Binding → List MetricPlan → List (Outcome α)
  | b :: bs, m :: ms => b.nullDenominators m ++ Binding.nullDenominatorsList bs ms
  | _, _ => []
end

/-- The denominators of the metrics a metric reads. -/
def Binding.inputDenominators : Binding → MetricPlan → List (Outcome α)
  | .leaf _, _ => []
  | .composite _ _ _, _ => []
  | .offset _ base _ _, m => base.inputDenominators m
  | .derived _ _ _ inputs, m => Binding.nullDenominatorsList E env leafName inputs m.operands
  | .conversion _ base _ _, m =>
      match conversionOperands m with
      | some o => base.nullDenominators E env leafName o.2
      | none => []

/-- The denominators that are probed for zero: a metric's own unless it divides unguarded, and
those of the inputs under it that follow the policy `null`. -/
def Binding.probed (b : Binding) (m : MetricPlan) : List (Outcome α) :=
  (if b.policy = some .error then [] else b.denominators E env leafName m) ++
    b.inputDenominators E env leafName m

/-- The probe over several denominators: one when one of them is zero, and zero otherwise. -/
def probe (ds : List (Outcome α)) : Outcome α :=
  if .failed ∈ ds then .failed
  else if .data E.zero ∈ ds then .data E.one else .data E.zero

end

/-! ## Guards -/

section
variable {α : Type} [DecidableEq α] {E : RowEngine α}

theorem divide_eq_divideUnder (n d : Outcome α) : E.divide n d = divideUnder E .error n d := by
  rcases n with _ | (_ | _ | _) <;> rcases d with _ | (_ | _ | _) <;>
    simp [RowEngine.divide, divideUnder, quotientUnder, byZeroUnder, Outcome.andThen,
      RowEngine.divided]

theorem divide_nullif (n d : Outcome α) :
    E.divide n (.nullif d (.data E.zero)) = divideUnder E .null n d := by
  rcases n with _ | (_ | _ | _) <;> rcases d with _ | (_ | _ | b) <;>
    simp [RowEngine.divide, divideUnder, quotientUnder, byZeroUnder, Outcome.andThen,
      RowEngine.divided, Outcome.nullif, Outcome.data, Outcome.null, Value.eq3]
  all_goals
    by_cases hb : b = E.zero <;> simp [hb]

theorem coalesce_divideUnder (n d : Outcome α) :
    .coalesce [divideUnder E .null n d, .data E.zero] = divideUnder E .zero n d := by
  have hquotient (a b : α) : .coalesce [((E.quotient a b).map Outcome.data).getD .failed,
      .data E.zero] = ((E.quotient a b).map Outcome.data).getD .failed := by
    cases E.quotient a b <;> rfl
  rcases n with _ | (_ | _ | a) <;> rcases d with _ | (_ | _ | b) <;>
    simp [divideUnder, quotientUnder, byZeroUnder, Outcome.andThen, Outcome.coalesce, Outcome.data,
      Outcome.null, RowEngine.divided]
  · by_cases hb : b = E.zero <;> simp [hb, Outcome.coalesce]
  · by_cases hb : b = E.zero
    · simp [hb, Outcome.coalesce]
    · simp only [hb, if_false]
      exact hquotient a b

/-- **A guarded division** is a division under its policy. -/
theorem eval_guardDivision (policy : OnZeroDenominator) (n d : Expr) :
    E.eval (guardDivision n d policy.combine) = divideUnder E policy (E.eval n) (E.eval d) := by
  have hguarded : E.eval (.node .div [n, .node .nullif [d, .number "0"]]) =
      divideUnder E .null (E.eval n) (E.eval d) := by
    rw [RowEngine.eval_node (by decide), List.map_cons, List.map_singleton,
      RowEngine.eval_node (by decide), List.map_cons, List.map_singleton, RowEngine.eval_zero]
    exact divide_nullif _ _
  cases policy with
  | error =>
      exact (RowEngine.eval_node (by decide) [n, d]).trans (divide_eq_divideUnder _ _)
  | null => exact hguarded
  | zero =>
      rw [OnZeroDenominator.combine, guardDivision, RowEngine.eval_node (by decide),
        List.map_cons, List.map_singleton, hguarded, RowEngine.eval_zero]
      exact coalesce_divideUnder _ _

theorem guarded_node (combine : Combine) {op : Op} {args : List Expr}
    (h : divisor (.node op args) = none) :
    guarded combine (.node op args) = .node op (args.map (guarded combine)) := by
  have hlist (es : List Expr) : guardedList combine es = es.map (guarded combine) := by
    induction es with
    | nil => rw [guardedList, List.map_nil]
    | cons e es ih => rw [guardedList, ih, List.map_cons]
  rw [guarded, hlist]
  rintro n d rfl rfl
  simp [divisor] at h

theorem guarded_div (combine : Combine) (n d : Expr) :
    guarded combine (.node .div [n, d]) =
      guardDivision (guarded combine n) (guarded combine d) combine := by
  rw [guarded]

theorem isPlain_guardDivision {n d : Expr} (hn : n.isPlain = true) (hd : d.isPlain = true)
    (combine : Combine) : (guardDivision n d combine).isPlain = true := by
  cases combine <;> simp [guardDivision, hn, hd, Op.readsGroup]

theorem isPlain_guarded (combine : Combine) {e : Expr} (h : e.isPlain = true) :
    (guarded combine e).isPlain = true := by
  induction e using Expr.induct with
  | column c => rwa [guarded]
  | literal s t => rwa [guarded]
  | table d n => rwa [guarded]
  | node op args ih =>
      have hargs := h
      rw [Expr.isPlain_node, Bool.and_eq_true, List.all_eq_true] at hargs
      cases hdiv : divisor (.node op args) with
      | none =>
          rw [guarded_node combine hdiv, Expr.isPlain_node, Bool.and_eq_true, List.all_map,
            List.all_eq_true]
          exact ⟨hargs.1, fun a ha => ih a ha (hargs.2 a ha)⟩
      | some d =>
          obtain ⟨n, rfl, rfl⟩ := divisor_eq_some hdiv
          rw [guarded_div]
          exact isPlain_guardDivision (ih n (by simp) (hargs.2 n (by simp)))
            (ih d (by simp) (hargs.2 d (by simp))) combine

/-- **A guarded expression** is the expression with every division under the policy. -/
theorem eval_guarded (policy : OnZeroDenominator) {e : Expr} (h : e.isPlain = true) :
    E.eval (guarded policy.combine e) = E.evalWith (divideUnder E policy) e := by
  induction e using Expr.induct with
  | column c => rw [guarded, RowEngine.eval, RowEngine.evalWith_column, RowEngine.evalWith_column]
  | literal s t => cases s <;> simp only [guarded, RowEngine.eval, RowEngine.evalWith]
  | table d n => simp only [guarded, RowEngine.eval, RowEngine.evalWith]
  | node op args ih =>
      have hop := RowEngine.ne_window_of_isPlain h
      have hargs := h
      rw [Expr.isPlain_node, Bool.and_eq_true, List.all_eq_true] at hargs
      cases hdiv : divisor (.node op args) with
      | none =>
          have hmap : (args.map (guarded policy.combine)).map (E.evalWith E.divide) =
              args.map (E.evalWith (divideUnder E policy)) := by
            rw [List.map_map]
            exact List.map_congr_left fun a ha => ih a ha (hargs.2 a ha)
          rw [guarded_node _ hdiv, RowEngine.eval, RowEngine.evalWith_node hop,
            RowEngine.evalWith_node hop, hmap]
          refine RowEngine.apply_congr ?_
          rintro n d rfl hnd
          obtain ⟨a, b, rfl⟩ := List.length_eq_two.mp (by simpa using congrArg List.length hnd)
          simp [divisor] at hdiv
      | some d =>
          obtain ⟨n, rfl, rfl⟩ := divisor_eq_some hdiv
          rw [guarded_div, eval_guardDivision, ih n (by simp) (hargs.2 n (by simp)),
            ih d (by simp) (hargs.2 d (by simp)), RowEngine.evalWith_node hop]
          rfl

/-! ## Placeholders -/

theorem operandPlaceholder_injective : Function.Injective operandPlaceholder := by
  intro a b h
  refine Nat.repr_injective (m := a) (n := b) ?_
  simpa [operandPlaceholder, toString] using h

/-- What a placeholder is replaced by. -/
def operandValue (values : List Expr) (c : Sql.Column) : Expr :=
  if c.table = "" then
    match (List.range values.length).find? fun i => operandPlaceholder i == c.name with
    | some i => .node .paren [values.getD i (.node .null [])]
    | none => .column c
  else .column c

theorem substituteOperands_eq (template : Expr) (values : List Expr) :
    substituteOperands template values = template.mapColumns (operandValue values) := rfl

theorem operandValue_placeholder {values : List Expr} {i : Nat} (hi : i < values.length) :
    operandValue values ⟨"", "", operandPlaceholder i⟩ = .node .paren [values[i]] := by
  have hfind : (List.range values.length).find? (fun j => operandPlaceholder j ==
      operandPlaceholder i) = some i := by
    rw [List.find?_range_eq_some]
    refine ⟨by simp, List.mem_range.mpr hi, fun j hj => ?_⟩
    simpa using fun h => hj.ne (operandPlaceholder_injective h)
  simp only [operandValue, if_true, hfind, List.getD_eq_getElem?_getD,
    List.getElem?_eq_getElem hi, Option.getD_some]

/-- `rename`: the placeholder of an input. -/
def renameInput (names : List String) (c : Sql.Column) : Expr :=
  match ((List.range names.length).filter fun i => names[i]? == some c.name).getLast? with
  | some i => if c.table = "" then Expr.bare (operandPlaceholder i) else .column c
  | none => .column c

theorem derivedTemplate_eq_ok {lib : Lib} {expr : String} {names : List String}
    {combine : Combine} {t parsed : Expr} (h : derivedTemplate lib expr names combine = .ok t)
    (hparse : lib.parseOne (some .postgres) expr = some parsed) :
    t = guarded combine (parsed.mapColumns (renameInput names)) := by
  rw [derivedTemplate, hparse] at h
  exact (Except.ok.inj h).symm

theorem renameInput_eq {names : List String} (hn : names.Nodup) {c : Sql.Column} {i : Nat}
    (hc : c.table = "") (hi : names[i]? = some c.name) :
    renameInput names c = Expr.bare (operandPlaceholder i) := by
  have hlt : i < names.length := (List.getElem?_eq_some_iff.mp hi).1
  have hfilter : (List.range names.length).filter (fun j => names[j]? == some c.name) = [i] := by
    have hsame : ∀ j ∈ List.range names.length, (names[j]? == some c.name) = (j == i) := by
      intro j hj
      rw [Bool.eq_iff_iff, beq_iff_eq, beq_iff_eq, ← hi]
      exact List.getElem?_inj (List.mem_range.mp hj) hn
    rw [List.filter_congr hsame, List.filter_beq,
      List.count_eq_one_of_mem List.nodup_range (List.mem_range.mpr hlt), List.replicate_one]
  simp only [renameInput, hfilter, List.getLast?_singleton, hc, if_true]

theorem lookup_zip {β : Type} {names : List String} (hn : names.Nodup) {values : List β}
    (hlen : names.length = values.length) {i : Nat} {n : String} (hi : names[i]? = some n) :
    (names.zip values).lookup n = values[i]? := by
  induction names generalizing values i with
  | nil => simp at hi
  | cons m names ih =>
      cases values with
      | nil => simp at hlen
      | cons v values =>
          rw [List.nodup_cons] at hn
          cases i with
          | zero =>
              obtain rfl : m = n := by simpa using hi
              simp [List.zip_cons_cons]
          | succ i =>
              have hi' : names[i]? = some n := by simpa using hi
              have hne : n ≠ m := by
                rintro rfl
                exact hn.1 (List.mem_of_getElem? hi')
              rw [List.zip_cons_cons, List.lookup_cons, beq_false_of_ne hne]
              simpa using ih hn.2 (by simpa using hlen) hi'

/-- **A derived expression** evaluates to its arithmetic over the values of its inputs. -/
theorem eval_derived (policy : OnZeroDenominator) {names : List String} (hn : names.Nodup)
    {exprs : List Expr} (hlen : names.length = exprs.length) {e : Expr} (he : e.isPlain = true)
    (hc : ∀ c ∈ e.columns, c.table = "" ∧ c.name ∈ names) :
    E.eval (substituteOperands (guarded policy.combine (e.mapColumns (renameInput names)))
      exprs) = arithmetic E policy names (exprs.map E.eval) e := by
  have hrename : ∀ c ∈ e.columns, ∃ i, ∃ hi : i < exprs.length, names[i]? = some c.name ∧
      renameInput names c = Expr.bare (operandPlaceholder i) := by
    intro c hcol
    obtain ⟨htable, hmem⟩ := hc c hcol
    obtain ⟨i, hi, hname⟩ := List.getElem_of_mem hmem
    have hget : names[i]? = some c.name := List.getElem?_eq_some_iff.mpr ⟨hi, hname⟩
    exact ⟨i, hlen ▸ hi, hget, renameInput_eq hn htable hget⟩
  have hplain : (e.mapColumns (renameInput names)).isPlain = true :=
    Expr.isPlain_mapColumns (fun c => by unfold renameInput; split <;> [split; skip] <;> rfl) he
  -- the inputs' expressions, the guards and the placeholders are undone one after the other
  refine (RowEngine.evalWith_mapColumns _ (isPlain_guarded _ hplain)).trans ?_
  refine (eval_guarded policy hplain).trans ?_
  rw [RowEngine.evalWith_mapColumns _ he]
  refine RowEngine.evalWith_congr he fun c hcol => ?_
  obtain ⟨i, hi, hname, hbare⟩ := hrename c hcol
  have hlookup : (names.zip (exprs.map E.eval)).lookup c.name = some (E.eval exprs[i]) := by
    rw [lookup_zip hn (by simpa using hlen) hname, List.getElem?_map, List.getElem?_eq_getElem hi,
      Option.map_some]
  rw [hbare, hlookup, Option.getD_some, Expr.bare, RowEngine.evalWith_column]
  show E.eval (operandValue exprs ⟨"", "", operandPlaceholder i⟩) = _
  rw [operandValue_placeholder hi, RowEngine.eval_paren]

end

end Canonic
