import Canonic.Sql.Engines
import Canonic.Compiler.Strategies.Cumulative

set_option autoImplicit false

/-! # Measures that re-aggregate

`Measure.is_p0_compilable` of `semantic/models.py` and `_reaggregate` of `strategies/rolling.py`: a
measure is accepted as additive by the first aggregate a walk finds in its expression, and the
values it has on parts of the rows are later combined by that aggregate alone. What stands around
the aggregate or beside it, and a `DISTINCT` inside a `SUM`, is not looked at. -/

namespace Canonic

open Sql (Expr Row Scalars foldValues)

variable {α : Type} [AddCommMonoidWithOne α] [LinearOrder α]

/-- The expression of a measure as it is compiled, with the aggregate its values are combined by. -/
def Combined (env : Env) (m : Measure) (e : Expr) (a : Sql.Agg) : Prop :=
  env.parse m.expr = .ok e ∧ reaggregateOf env m.expr = .ok a

/-- **The re-aggregation law** of an accepted measure. -/
def AcceptedReaggregates (env : Env) (S : Scalars α) (m : Measure) : Prop :=
  m.isP0Compilable env.lib = true → ∀ e a, Combined env m e a → S.Reaggregates a e

/-- An accepted measure whose values are combined by `SUM`. -/
def CombinedBySum (env : Env) (m : Measure) : Prop := ∀ e a, Combined env m e a → a = .sum

/-- An accepted measure that is nothing but one call of `SUM` or `COUNT` without `DISTINCT`, or of
`MIN` or `MAX`. -/
def AcceptedIsCall (env : Env) (m : Measure) : Prop :=
  m.isP0Compilable env.lib = true → ∀ e a, Combined env m e a → Scalars.isCall e = true

/-- Beside the calls of an accepted measure whose values are combined by `MIN` or `MAX`, nothing
depends on how often a row occurs. -/
def AcceptedExtremes (env : Env) (m : Measure) : Prop :=
  m.isP0Compilable env.lib = true → ∀ e a, Combined env m e a → a ≠ .sum →
    Scalars.weighsRows e = false

/-- An accepted measure whose calls all split, under functions that distribute. -/
def AcceptedDistributes (env : Env) (S : Scalars α) (m : Measure) : Prop :=
  m.isP0Compilable env.lib = true → ∀ e a, Combined env m e a →
    Scalars.callsSplit e = true ∧ S.Distributes a e

/-- The aggregate values are combined by, from the first call of the expression. -/
theorem Combined.agg_eq {env : Env} {m : Measure} {e : Expr} {a b : Sql.Agg}
    (h : Combined env m e a) (hb : e.walk.findSome? Scalars.asCall = some b) :
    (a.op : α → α → α) = b.op := by
  obtain ⟨hparse, hagg⟩ := h
  have hcall : Scalars.asCall = Option.map (·.1) ∘ asAgg := by
    funext x
    cases x with
    | node op args => cases op <;> rfl
    | column c => rfl
    | literal s t => rfl
    | table d n => rfl
  rw [hcall, ← List.map_findSome?, Option.map_eq_some_iff] at hb
  obtain ⟨⟨b, args⟩, hfind, rfl⟩ := hb
  rw [reaggregateOf, hparse, ok_bind, hfind] at hagg
  obtain rfl := Except.ok.inj hagg
  cases b <;> rfl

theorem Combined.agg_cases {env : Env} {m : Measure} {e : Expr} {a : Sql.Agg}
    (h : Combined env m e a) : a = .sum ∨ a = .min ∨ a = .max := by
  obtain ⟨hparse, hagg⟩ := h
  rw [reaggregateOf, hparse, ok_bind] at hagg
  obtain rfl := Except.ok.inj hagg
  split
  · exact Or.inr (Or.inl rfl)
  · exact Or.inr (Or.inr rfl)
  · exact Or.inl rfl

/-- A measure that is one call is one whose calls split, under nothing. -/
theorem AcceptedIsCall.distributes {env : Env} {m : Measure} (h : AcceptedIsCall env m)
    (S : Scalars α) : AcceptedDistributes env S m := by
  intro hacc e a hea
  have hcall := h hacc e a hea
  obtain ⟨b, hb, hd⟩ := Scalars.distributes_of_isCall (S := S) e hcall
  exact ⟨Scalars.callsSplit_of_isCall e hcall, hd a (hea.agg_eq hb)⟩

theorem AcceptedDistributes.reaggregates {env : Env} {S : Scalars α} {m : Measure}
    (h : AcceptedDistributes env S m) : AcceptedReaggregates env S m := by
  intro hacc e a hea
  exact Scalars.reaggregates_of_distributes (h hacc e a hea).1 (h hacc e a hea).2

/-- **Values of groups can be combined** where every call splits and what stands around the calls
distributes. Whatever the engine, a measure whose values add up is one call; beside a `MIN` or a
`MAX` there is no sum, count or average. -/
theorem acceptedReaggregates_iff (env : Env) (m : Measure) :
    (∀ S : Scalars α, AcceptedDistributes env S m → AcceptedReaggregates env S m) ∧
      (AcceptedIsCall env m → ∀ S : Scalars α, AcceptedReaggregates env S m) ∧
      (CombinedBySum env m →
        ((∀ S : Scalars ℚ, AcceptedReaggregates env S m) ↔ AcceptedIsCall env m)) ∧
      ((∀ S : Scalars ℚ, AcceptedReaggregates env S m) → AcceptedExtremes env m) := by
  refine ⟨fun S h => h.reaggregates, fun h S => (h.distributes S).reaggregates,
    fun hsum => ⟨fun h hacc e a hea => ?_, fun h S => (h.distributes S).reaggregates⟩,
    fun h hacc e a hea hne => ?_⟩
  · obtain rfl := hsum e a hea
    exact Scalars.isCall_of_reaggregates one_add_one_eq_two (h _ hacc e .sum hea)
  · have hop : (a.op : ℚ → ℚ → ℚ) 1 1 = 1 := by
      obtain rfl | rfl | rfl := hea.agg_cases
      · exact absurd rfl hne
      · exact min_self 1
      · exact max_self 1
    exact Scalars.weighsRows_of_reaggregates hop (h _ hacc e a hea)

/-! ### An average price -/

private def averageText : String := "SUM(amount) / COUNT(amount)"

private def averageExpr : Expr :=
  .node .div [.node (.agg .sum) [.bare "amount"], .node (.agg .count) [.bare "amount"]]

private def averagePrice : Measure := { name := "average_price", expr := averageText }

private def averageEnv : Env where
  lib := Lib.ofTexts [(averageText, averageExpr)]
  dialectName := "postgres"
  sources := ⟨[], List.nodup_nil⟩

/-- Rational numbers with division, as an engine. -/
private def rationals : Scalars ℚ where
  literal _ _ := none
  table _ _ := none
  apply
    | .div, [some x, some y] => some (x / y)
    | _, _ => none
  truth v := v.isSome
  nested _ := none
  loose _ _ := none
  aggregate _ _ := none

/-- The average over two rows is not the sum of their averages. -/
theorem acceptedReaggregates_counterexample :
    ¬ ∀ (env : Env) (S : Scalars ℚ) (m : Measure), AcceptedReaggregates env S m := by
  intro h
  have hlaw := h averageEnv rationals averagePrice (by decide +kernel) averageExpr .sum
    ⟨by rfl, by rfl⟩ {{fun _ => some 1}, {fun _ => some 3}} (by simp) (by simp)
  exact absurd hlaw (by decide +kernel)

end Canonic
