import Canonic.Except
import Canonic.Sql.Eval

set_option autoImplicit false

/-! # Scalar expressions that may fail

The value of an expression over one row, where an operation may also fail: a division by zero, an
overflow, an operand of another type. `COALESCE` and `CASE` leave what they do not need alone, every
other operator fails with its operands. Columns and windows are part of the row, and so is every
function the engine brings along. -/

namespace Canonic.Sql

/-- A value, or the failure of the whole statement. -/
inductive Outcome (α : Type) where
  | failed
  | value (v : Value α)
  deriving DecidableEq, Repr

namespace Outcome

variable {α : Type}

/-- The `NULL` that is nobody's failure. -/
def null : Outcome α := .value .null

def data (a : α) : Outcome α := .value (.data a)

/-- What follows on a value. -/
def andThen : Outcome α → (Value α → Outcome α) → Outcome α
  | .failed, _ => .failed
  | .value v, f => f v

/-- `COALESCE`: the first operand that is not `NULL`, or that fails. -/
def coalesce : List (Outcome α) → Outcome α
  | [] => null
  | .failed :: _ => .failed
  | .value .null :: vs => coalesce vs
  | .value v :: _ => .value v

/-- `CASE WHEN … THEN … ELSE … END`, the branch that is not taken left alone. -/
def choose : List (Outcome α) → Outcome α
  | [c, a, b] => c.andThen fun v => if v.isTrue then a else b
  | [c, a] => c.andThen fun v => if v.isTrue then a else null
  | _ => .failed

/-- `NULLIF`. -/
def nullif [DecidableEq α] (a b : Outcome α) : Outcome α :=
  a.andThen fun x => b.andThen fun y => if (Value.eq3 x y).isTrue then null else .value x

def negated : Outcome α → Outcome α
  | .value (.bool b) => .value (.bool !b)
  | .value .null => null
  | _ => .failed

/-- An operator of two values that fails with its operands. -/
def lift₂ (f : Value α → Value α → Value α) (a b : Outcome α) : Outcome α :=
  a.andThen fun x => b.andThen fun y => .value (f x y)

/-! ## Conditions -/

/-- What a condition decides, unless it fails. -/
def decided : Outcome α → Option Bool
  | .failed => none
  | .value v => some v.isTrue

/-- Whether one of several conditions holds, unless one of them fails. -/
def anyHolds (conditions : List (Option Bool)) : Option Bool :=
  if none ∈ conditions then none else some (decide (some true ∈ conditions))

theorem decided_or3 (a b : Outcome α) :
    decided (lift₂ .or3 a b) = anyHolds [decided a, decided b] := by
  rcases a with _ | a
  · rfl
  rcases b with _ | b
  · rfl
  have hor : decided (lift₂ .or3 (.value a) (.value b)) = some (a.isTrue || b.isTrue) :=
    congrArg some (Value.isTrue_or3 a b)
  rw [hor]
  simp only [decided]
  cases a.isTrue <;> cases b.isTrue <;> rfl

theorem anyHolds_pair (p q : Option Bool) (rest : List (Option Bool)) :
    anyHolds (anyHolds [p, q] :: rest) = anyHolds (p :: q :: rest) := by
  rcases p with _ | (_ | _) <;> rcases q with _ | (_ | _) <;> simp [anyHolds]

theorem choose_eq (c a b : Outcome α) : choose [c, a, b] =
    match decided c with
    | none => .failed
    | some true => a
    | some false => b := by
  rcases c with _ | v
  · rfl
  · show (if v.isTrue then a else b) = _
    simp only [decided]
    cases v.isTrue <;> rfl

end Outcome

/-- One row, and the arithmetic of the engine it is read by. -/
structure RowEngine (α : Type) where
  zero : α
  one : α
  /-- A numeric literal, by its text. -/
  number : String → Outcome α
  number_zero : number "0" = .data zero
  number_one : number "1" = .data one
  string : String → Outcome α
  column : Column → Outcome α
  /-- A window's value at the row, by the window's arguments. -/
  window : List Expr → Outcome α
  /-- The quotient by a number other than zero, unless it is out of range. -/
  quotient : α → α → Option α
  /-- What the engine makes of a division by zero. -/
  byZero : α → Outcome α
  /-- Every other operator, from the values of its operands. -/
  operator : Op → List (Outcome α) → Outcome α

namespace RowEngine

variable {α : Type} [DecidableEq α] (E : RowEngine α)

/-- The same engine over another row. -/
def onRow (column : Column → Outcome α) : RowEngine α := { E with column := column }

/-- The engine's division of two values: `NULL` as soon as one side is. -/
def divided : Value α → Value α → Outcome α
  | .null, _ => .null
  | _, .null => .null
  | .data a, .data b =>
      if b = E.zero then E.byZero a else ((E.quotient a b).map Outcome.data).getD .failed
  | _, _ => .failed

def divide (n d : Outcome α) : Outcome α := n.andThen fun x => d.andThen fun y => E.divided x y

/-- One operator over the values of its operands, with a division of one's own. -/
def apply (division : Outcome α → Outcome α → Outcome α) : Op → List (Outcome α) → Outcome α
  | .paren, [v] => v
  | .null, [] => .null
  | .div, [n, d] => division n d
  | .nullif, [a, b] => .nullif a b
  | .coalesce, vs => .coalesce vs
  | .case, vs => .choose vs
  | .not, [v] => v.negated
  | .eq, [a, b] => .lift₂ .eq3 a b
  | .or, [a, b] => .lift₂ .or3 a b
  | .is, [a, b] => .lift₂ (fun x y => .bool (decide (x = y))) a b
  | op, vs => E.operator op vs

mutual
/-- The value of an expression, with a division of one's own. -/
def evalWith (division : Outcome α → Outcome α → Outcome α) : Expr → Outcome α
  | .column c => E.column c
  | .literal true s => E.string s
  | .literal false s => E.number s
  | .table _ _ => .failed
  | .node .window args => E.window args
  | .node op args => E.apply division op (evalListWith division args)

def evalListWith (division : Outcome α → Outcome α → Outcome α) : List Expr → List (Outcome α)
  | [] => []
  | e :: es => evalWith division e :: evalListWith division es
end

/-- The value of an expression. -/
def eval : Expr → Outcome α := E.evalWith E.divide

/-! ## Evaluation by the constructor -/

variable {E} {division : Outcome α → Outcome α → Outcome α}

@[simp] theorem evalWith_column (c : Column) : E.evalWith division (.column c) = E.column c := by
  simp only [evalWith]

@[simp] theorem evalWith_string (s : String) :
    E.evalWith division (.literal true s) = E.string s := by
  simp only [evalWith]

@[simp] theorem evalWith_number (s : String) :
    E.evalWith division (.number s) = E.number s := by
  simp only [Expr.number, evalWith]

theorem evalListWith_eq (es : List Expr) :
    E.evalListWith division es = es.map (E.evalWith division) := by
  induction es with
  | nil => rw [evalListWith, List.map_nil]
  | cons e es ih => rw [evalListWith, ih, List.map_cons]

/-- Only a window reads more than the values of its arguments. -/
theorem evalWith_node {op : Op} (h : op ≠ .window) (args : List Expr) :
    E.evalWith division (.node op args) =
      E.apply division op (args.map (E.evalWith division)) := by
  rw [evalWith, evalListWith_eq]
  exact h

theorem eval_node {op : Op} (h : op ≠ .window) (args : List Expr) :
    E.eval (.node op args) = E.apply E.divide op (args.map E.eval) :=
  evalWith_node h args

theorem eval_column (c : Column) : E.eval (.column c) = E.column c := evalWith_column c

theorem eval_paren (e : Expr) : E.eval (.node .paren [e]) = E.eval e :=
  eval_node (by decide) [e]

theorem eval_zero : E.eval (.number "0") = .data E.zero :=
  (evalWith_number "0").trans E.number_zero

theorem eval_one : E.eval (.number "1") = .data E.one :=
  (evalWith_number "1").trans E.number_one

/-- `IS NULL` knows no third value. -/
theorem eval_isNull (e : Expr) :
    E.eval e.isNull = (E.eval e).andThen fun v => .value (.bool (decide (v = .null))) := by
  have hnull : E.eval (.node .null []) = .null := eval_node (by decide) []
  rw [Expr.isNull, eval_node (by decide), List.map_cons, List.map_singleton, hnull]
  cases E.eval e <;> rfl

/-- A disjunction of conditions, nested to the left. -/
theorem decided_foldl_or (conditions : List Expr) (e : Expr) :
    (E.eval (conditions.foldl (fun a b => .node .or [a, b]) e)).decided =
      Outcome.anyHolds ((e :: conditions).map fun c => (E.eval c).decided) := by
  induction conditions generalizing e with
  | nil =>
      rw [List.foldl_nil, List.map_singleton]
      rcases (E.eval e).decided with _ | (_ | _) <;> rfl
  | cons c cs ih =>
      have hor : (E.eval (.node .or [e, c])).decided =
          Outcome.anyHolds [(E.eval e).decided, (E.eval c).decided] := by
        rw [eval_node (by decide)]
        exact Outcome.decided_or3 _ _
      rw [List.foldl_cons, ih, List.map_cons, hor, Outcome.anyHolds_pair]
      rfl

/-- An operator other than a division of two operands has one meaning. -/
theorem apply_congr {division' : Outcome α → Outcome α → Outcome α} {op : Op}
    {vs : List (Outcome α)} (h : ∀ n d, op = .div → vs ≠ [n, d]) :
    E.apply division op vs = E.apply division' op vs := by
  -- the meaning of an operator depends on how many operands it has
  rcases vs with _ | ⟨n, _ | ⟨d, _ | ⟨_, _⟩⟩⟩
  · cases op <;> rfl
  · cases op <;> rfl
  · cases op with
    | div => exact absurd rfl (h n d rfl)
    | _ => rfl
  · cases op <;> rfl

theorem ne_window_of_isPlain {op : Op} {args : List Expr}
    (h : (Expr.node op args).isPlain = true) : op ≠ .window := by
  rintro rfl
  simp [Op.readsGroup] at h

/-- **Substitution.** Expressions in the place of columns are evaluated like columns of a row that
has their values. -/
theorem evalWith_mapColumns (f : Column → Expr) {e : Expr} (h : e.isPlain = true) :
    E.evalWith division (e.mapColumns f) =
      (E.onRow fun c => E.evalWith division (f c)).evalWith division e := by
  induction e using Expr.induct with
  | column c => rw [Expr.mapColumns_column, evalWith_column, onRow]
  | literal s t => cases s <;> simp only [Expr.mapColumns_literal, evalWith, onRow]
  | table d n => simp only [Expr.mapColumns_table, evalWith]
  | node op args ih =>
      have hop := ne_window_of_isPlain h
      rw [Expr.isPlain_node, Bool.and_eq_true, List.all_eq_true] at h
      rw [Expr.mapColumns_node, evalWith_node hop, evalWith_node hop, List.map_map]
      exact congrArg (E.apply division op) (List.map_congr_left fun a ha => ih a ha (h.2 a ha))

/-- Only the columns an expression reads matter. -/
theorem evalWith_congr {r r' : Column → Outcome α} {e : Expr} (he : e.isPlain = true)
    (h : ∀ c ∈ e.columns, r c = r' c) :
    (E.onRow r).evalWith division e = (E.onRow r').evalWith division e := by
  induction e using Expr.induct with
  | column c => simpa [onRow] using h c
  | literal s t => cases s <;> simp only [evalWith, onRow]
  | table d n => simp only [evalWith]
  | node op args ih =>
      have hop := ne_window_of_isPlain he
      rw [Expr.isPlain_node, Bool.and_eq_true, List.all_eq_true] at he
      rw [evalWith_node hop, evalWith_node hop]
      refine congrArg (E.apply division op) (List.map_congr_left fun a ha => ?_)
      exact ih a ha (he.2 a ha) fun c hc => h c (Expr.mem_columns_node.mpr ⟨a, ha, hc⟩)

end RowEngine

end Canonic.Sql
