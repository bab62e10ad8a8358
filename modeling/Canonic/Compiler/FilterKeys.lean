import Canonic.Compiler.Fusion
import Canonic.Sql.Eval

set_option autoImplicit false

/-! # Filter keys

`_conjuncts` and `_filter_key` of `compiler/leaf.py` in three-valued logic. The conditions of a
`WHERE` are put together with `exp.and_`; what they are not split into (comparisons, `NOT`, calls)
has whatever value the engine gives it. -/

namespace Canonic

open Sql (Expr Engine Scope Value)

/-- A connective stands in parentheses inside of another one. -/
def wrapConnector : Expr → Expr
  | .node .and args => .node .paren [.node .and args]
  | .node .or args => .node .paren [.node .or args]
  | e => e

/-- `exp.and_(*conditions)`; without a condition every row is selected. -/
def conjunction : List Expr → Expr
  | [] => .node (.bool true) []
  | [e] => e
  | e :: es => es.foldl (fun a b => .mkAnd a (wrapConnector b)) (wrapConnector e)

/-! ## Three-valued conjunction -/

section

variable {α : Type}

theorem and3_assoc (a b c : Value α) :
    Value.and3 (Value.and3 a b) c = Value.and3 a (Value.and3 b c) := by
  rcases a with _ | (_ | _) | _ <;> rcases b with _ | (_ | _) | _ <;>
    rcases c with _ | (_ | _) | _ <;> rfl

/-- A value in front of a conjunction can be taken out of it. -/
theorem foldl_and3 (a b : Value α) (vs : List (Value α)) :
    vs.foldl Value.and3 (Value.and3 a b) = Value.and3 a (vs.foldl Value.and3 b) := by
  induction vs generalizing b with
  | nil => rfl
  | cons v vs ih => rw [List.foldl_cons, List.foldl_cons, and3_assoc, ih]

theorem isTrue_foldl_and3 (a : Value α) (vs : List (Value α)) :
    (vs.foldl Value.and3 a).isTrue = (a.isTrue && vs.all (·.isTrue)) := by
  induction vs generalizing a with
  | nil => simp
  | cons v vs ih =>
      rw [List.foldl_cons, ih, Value.isTrue_and3, List.all_cons, Bool.and_assoc]

end

section

variable {α : Type} [DecidableEq α] (E : Engine α) (s : Scope α)

theorem eval_paren (e : Expr) : E.eval s (.node .paren [e]) = E.eval s e := by
  rw [Engine.eval]

theorem eval_mkAnd (a b : Expr) :
    E.eval s (.mkAnd a b) = Value.and3 (E.eval s a) (E.eval s b) := by
  rw [Expr.mkAnd, Engine.eval]

theorem eval_wrapConnector (e : Expr) : E.eval s (wrapConnector e) = E.eval s e := by
  fun_cases wrapConnector e with
  | case1 args => exact eval_paren E s _
  | case2 args => exact eval_paren E s _
  | case3 e => rfl

/-- **The value of a conjunction**, by the values of its conditions. -/
theorem eval_conjunction (e : Expr) (es : List Expr) :
    E.eval s (conjunction (e :: es)) = (es.map (E.eval s)).foldl Value.and3 (E.eval s e) := by
  have hfold : ∀ (es : List Expr) (a : Expr),
      E.eval s (es.foldl (fun a b => Expr.mkAnd a (wrapConnector b)) a) =
        (es.map (E.eval s)).foldl Value.and3 (E.eval s a) := by
    intro es
    induction es with
    | nil => exact fun a => rfl
    | cons b bs ih =>
        intro a
        rw [List.foldl_cons, ih, eval_mkAnd, eval_wrapConnector]
        rfl
  cases es with
  | nil => rfl
  | cons b bs =>
      show E.eval s (List.foldl _ (wrapConnector e) (b :: bs)) = _
      rw [hfold, eval_wrapConnector]

/-- A conjunction is `TRUE` when all of its conditions are. -/
theorem isTrue_conjunction (es : List Expr) :
    (E.eval s (conjunction es)).isTrue = E.holds s es := by
  cases es with
  | nil =>
      show (E.eval s (.node (.bool true) [])).isTrue = true
      rw [Engine.eval, Value.isTrue_bool]
  | cons e es =>
      rw [eval_conjunction, isTrue_foldl_and3, List.all_map]
      rfl

theorem eval_conjunction_append {xs ys : List Expr} (hx : xs ≠ []) (hy : ys ≠ []) :
    E.eval s (conjunction (xs ++ ys)) =
      Value.and3 (E.eval s (conjunction xs)) (E.eval s (conjunction ys)) := by
  obtain ⟨x, xs, rfl⟩ := List.exists_cons_of_ne_nil hx
  obtain ⟨y, ys, rfl⟩ := List.exists_cons_of_ne_nil hy
  rw [List.cons_append, eval_conjunction, eval_conjunction, eval_conjunction, List.map_append,
    List.foldl_append, List.map_cons, List.foldl_cons, foldl_and3]

/-! ## Conjuncts -/

theorem conjuncts_ne_nil (e : Expr) : conjuncts e ≠ [] := by
  fun_induction conjuncts e with
  | case1 args => simp
  | case2 e _ ih => exact ih
  | case3 a b iha ihb => simp [iha]
  | case4 args => simp
  | case5 e => simp

/-- **The conjuncts of a condition, put back together, have its value.** -/
theorem eval_conjunction_conjuncts (e : Expr) :
    E.eval s (conjunction (conjuncts e)) = E.eval s e := by
  fun_induction conjuncts e with
  | case1 args => rfl
  | case2 e _ ih => rw [ih, eval_paren]
  | case3 a b iha ihb =>
      rw [eval_conjunction_append E s (conjuncts_ne_nil a) (conjuncts_ne_nil b), iha, ihb]
      exact (eval_mkAnd E s a b).symm
  | case4 args => exact eval_paren E s _
  | case5 e => rfl

/-- A condition is `TRUE` when its conjuncts are. -/
theorem holds_conjuncts (es : List Expr) : E.holds s (es.flatMap conjuncts) = E.holds s es := by
  show (es.flatMap conjuncts).all _ = es.all _
  rw [List.all_flatMap]
  congr 1
  funext e
  show E.holds s (conjuncts e) = _
  rw [← isTrue_conjunction, eval_conjunction_conjuncts]

/-! ## Keys -/

/-- The rows that a `WHERE` keeps. -/
def selected (conditions : List Expr) (rows : List (Scope α)) : List (Scope α) :=
  rows.filter fun s => (E.eval s (conjunction conditions)).isTrue

end

/-- **Conditions with the same key select the same rows, and conjuncts put back together are the
condition**, where no two of the conjuncts that the keys are made from have the same text. -/
theorem filterKey_sound {lib : Lib} {α : Type} [DecidableEq α] (E : Engine α) {cs ds : List Expr}
    (hrender : ∀ a ∈ cs.flatMap conjuncts, ∀ b ∈ ds.flatMap conjuncts,
      lib.keySql a = lib.keySql b → a = b) (hkey : filterKey lib cs = filterKey lib ds) :
    (∀ rows : List (Scope α), selected E cs rows = selected E ds rows) ∧
      ∀ (c : Expr) (s : Scope α), E.eval s (conjunction (conjuncts c)) = E.eval s c := by
  have hmem : ∀ a, a ∈ cs.flatMap conjuncts ↔ a ∈ ds.flatMap conjuncts := by
    have htexts : ∀ x, x ∈ (cs.flatMap conjuncts).map lib.keySql ↔
        x ∈ (ds.flatMap conjuncts).map lib.keySql := by
      intro x
      have hcs : x ∈ filterKey lib cs ↔ x ∈ (cs.flatMap conjuncts).map lib.keySql :=
        mem_firstById_self
      have hds : x ∈ filterKey lib ds ↔ x ∈ (ds.flatMap conjuncts).map lib.keySql :=
        mem_firstById_self
      rw [← hcs, ← hds, hkey]
    intro a
    constructor
    · intro ha
      obtain ⟨b, hb, htext⟩ := List.mem_map.mp ((htexts _).mp (List.mem_map_of_mem ha))
      rw [hrender a ha b hb htext.symm]
      exact hb
    · intro ha
      obtain ⟨b, hb, htext⟩ := List.mem_map.mp ((htexts _).mpr (List.mem_map_of_mem ha))
      rw [← hrender b hb a ha htext]
      exact hb
  refine ⟨fun rows => List.filter_congr fun s _ => ?_, fun c s => eval_conjunction_conjuncts E s c⟩
  rw [isTrue_conjunction, isTrue_conjunction, ← holds_conjuncts, ← holds_conjuncts E s ds,
    Bool.eq_iff_iff]
  simp only [Engine.holds, List.all_eq_true]
  constructor
  · exact fun h e he => h e ((hmem e).mpr he)
  · exact fun h e he => h e ((hmem e).mp he)

/-- The texts of a column and of a disjunction. -/
def disjunctionLib : Lib := .ofTexts [("\"a\"", .bare "a"),
  ("(\"b\" OR \"c\")", .node .paren [.node .or [.bare "b", .bare "c"]])]

/-- Every column is `TRUE`, except for one that is `NULL`. -/
def oneNullEngine : Engine Int where
  other _ _ := .null
  bare _ name := if name = "c" then .null else .bool true
  grouped _ _ _ _ := []

/-- `a AND ((b OR c) AND (a))` selects what `(a)` and `b OR c` do. -/
theorem filterKey_sound_disjunction :
    selected oneNullEngine [.mkAnd (.bare "a") (.node .paren [.mkAnd
        (.node .paren [.node .or [.bare "b", .bare "c"]]) (.node .paren [.bare "a"])])] [[]] =
      selected oneNullEngine [.node .paren [.bare "a"], .node .or [.bare "b", .bare "c"]] [[]] :=
  (@filterKey_sound disjunctionLib Int _ oneNullEngine _ _ (by decide) (by decide)).1 [[]]

end Canonic
