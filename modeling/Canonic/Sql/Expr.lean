import Mathlib

set_option autoImplicit false

/-! # SQL expression trees

A shallow copy of the expression trees a SQL parser returns, cut down to what a rewriting
pass can see: column references (with up to two qualifiers), literals, table references
inside nested queries, and operator nodes with an ordered list of arguments.

Nodes whose class no pass inspects are kept with their class name as a tag (`Op.func`), so
a tree is never simplified on the way in. The traversals follow the parser library's own:

* `Expr.transform` rewrites in pre-order and does **not** descend into a replaced node;
* `Expr.walk` lists the nodes breadth first, `Expr.columns` the column references among them;
* `Expr.tables` lists the tables a nested query reads. -/

namespace Canonic.Sql

/-- The aggregate function classes a pass distinguishes. -/
inductive Agg where
  | sum
  | count
  | min
  | max
  | avg
  | other (name : String)
  deriving DecidableEq, Repr

/-- The node classes a pass builds or inspects; every other class is a `func` of its name. -/
inductive Op where
  | and | or | not | paren
  | eq | neq | lt | lte | gt | gte | between | isIn | is
  | add | sub | mul | div | nullif | coalesce | case
  | cast (type : String)
  | date | interval (unit : String)
  | agg (a : Agg) | distinct
  | window | ordered (desc : Bool)
  | null | bool (b : Bool) | currentDate | star
  | subquery
  | func (name : String)
  deriving DecidableEq, Repr

/-- A column reference `db.table.name`; an absent qualifier is the empty string. -/
structure Column where
  db : String
  table : String
  name : String
  deriving DecidableEq, Repr

/-- An expression tree. -/
inductive Expr where
  | column (c : Column)
  | literal (isString : Bool) (text : String)
  | table (db name : String)
  | node (op : Op) (args : List Expr)
  deriving Repr

/-! ## Decidable equality -/

mutual
def Expr.decEq : (a b : Expr) → Decidable (a = b)
  | .column c, .column d =>
      if h : c = d then isTrue (by rw [h]) else isFalse (by simpa using h)
  | .literal s t, .literal s' t' =>
      if h : s = s' ∧ t = t' then isTrue (by rw [h.1, h.2]) else isFalse (by simpa using h)
  | .table d n, .table d' n' =>
      if h : d = d' ∧ n = n' then isTrue (by rw [h.1, h.2]) else isFalse (by simpa using h)
  | .node op as, .node op' bs =>
      if h : op = op' then
        match Expr.decEqs as bs with
        | isTrue h' => isTrue (by rw [h, h'])
        | isFalse h' => isFalse (by simp [h'])
      else isFalse (by simp [h])
  | .column _, .literal _ _ => isFalse (by simp)
  | .column _, .table _ _ => isFalse (by simp)
  | .column _, .node _ _ => isFalse (by simp)
  | .literal _ _, .column _ => isFalse (by simp)
  | .literal _ _, .table _ _ => isFalse (by simp)
  | .literal _ _, .node _ _ => isFalse (by simp)
  | .table _ _, .column _ => isFalse (by simp)
  | .table _ _, .literal _ _ => isFalse (by simp)
  | .table _ _, .node _ _ => isFalse (by simp)
  | .node _ _, .column _ => isFalse (by simp)
  | .node _ _, .literal _ _ => isFalse (by simp)
  | .node _ _, .table _ _ => isFalse (by simp)

def Expr.decEqs : (as bs : List Expr) → Decidable (as = bs)
  | [], [] => isTrue rfl
  | [], _ :: _ => isFalse (by simp)
  | _ :: _, [] => isFalse (by simp)
  | a :: as, b :: bs =>
      match Expr.decEq a b with
      | isFalse h => isFalse (by simp [h])
      | isTrue h =>
        match Expr.decEqs as bs with
        | isTrue h' => isTrue (by rw [h, h'])
        | isFalse h' => isFalse (by simp [h'])
end

instance : DecidableEq Expr := Expr.decEq

namespace Expr

/-- A column reference with one qualifier. -/
def col (name table : String) : Expr := .column ⟨"", table, name⟩

/-- A column reference without a qualifier. -/
def bare (name : String) : Expr := .column ⟨"", "", name⟩

/-- A string literal. -/
def string (text : String) : Expr := .literal true text

/-- A numeric literal. -/
def number (text : String) : Expr := .literal false text

/-- The conjunction node of two conditions. -/
def mkAnd (a b : Expr) : Expr := .node .and [a, b]

/-- `a = b`. -/
def mkEq (a b : Expr) : Expr := .node .eq [a, b]

/-- `a IS NULL`. -/
def isNull (a : Expr) : Expr := .node .is [a, .node .null []]

/-- A call of the function `name`. -/
def call (name : String) (args : List Expr) : Expr := .node (.func name) args

/-- The direct subexpressions. -/
def children : Expr → List Expr
  | .node _ args => args
  | _ => []

/-! ## Rewriting -/

mutual
/-- Pre-order rewriting: where `f` answers, its answer replaces the node and is not entered. -/
def transform (f : Expr → Option Expr) : Expr → Expr
  | .column c => (f (.column c)).getD (.column c)
  | .literal s t => (f (.literal s t)).getD (.literal s t)
  | .table d n => (f (.table d n)).getD (.table d n)
  | .node op args =>
      match f (.node op args) with
      | some e => e
      | none => .node op (transformList f args)

def transformList (f : Expr → Option Expr) : List Expr → List Expr
  | [] => []
  | e :: es => e.transform f :: transformList f es
end

mutual
/-- Rewrite the column references in a fallible pass that also collects what it used. -/
def mapColumnsM {ε σ : Type} (f : Column → Except ε (Expr × List σ)) :
    Expr → Except ε (Expr × List σ)
  | .column c => f c
  | .literal s t => .ok (.literal s t, [])
  | .table d n => .ok (.table d n, [])
  | .node op args => do
      let r ← mapColumnsListM f args
      return (.node op r.1, r.2)

def mapColumnsListM {ε σ : Type} (f : Column → Except ε (Expr × List σ)) :
    List Expr → Except ε (List Expr × List σ)
  | [] => .ok ([], [])
  | e :: es => do
      let r ← e.mapColumnsM f
      let rs ← mapColumnsListM f es
      return (r.1 :: rs.1, r.2 ++ rs.2)
end

mutual
/-- Rewrite the column references. -/
def mapColumns (f : Column → Expr) : Expr → Expr
  | .column c => f c
  | .literal s t => .literal s t
  | .table d n => .table d n
  | .node op args => .node op (mapColumnsList f args)

def mapColumnsList (f : Column → Expr) : List Expr → List Expr
  | [] => []
  | e :: es => e.mapColumns f :: mapColumnsList f es
end

/-! ## Traversal -/

mutual
/-- The height of the tree, the number of levels a breadth-first walk visits. -/
def depth : Expr → Nat
  | .column _ => 1
  | .literal _ _ => 1
  | .table _ _ => 1
  | .node _ args => depthList args + 1

def depthList : List Expr → Nat
  | [] => 0
  | e :: es => max e.depth (depthList es)
end

/-- Level order from a list of nodes, `n` levels deep. -/
def levels : Nat → List Expr → List Expr
  | 0, _ => []
  | n + 1, es => es ++ levels n (es.flatMap children)

/-- Every node, breadth first. -/
def walk (e : Expr) : List Expr := levels e.depth [e]

/-- The column references among a list of nodes. -/
def asColumn : Expr → Option Column
  | .column c => some c
  | _ => none

/-- Every column reference, in breadth-first order. -/
def columns (e : Expr) : List Column := e.walk.filterMap asColumn

/-- The tables among a list of nodes. -/
def asTable : Expr → Option (String × String)
  | .table d n => some (d, n)
  | _ => none

/-- Every table a nested query inside the expression reads. -/
def tables (e : Expr) : List (String × String) := e.walk.filterMap asTable

mutual
/-- Every node, depth first: the traversal proofs go by. -/
def nodes : Expr → List Expr
  | .column c => [.column c]
  | .literal s t => [.literal s t]
  | .table d n => [.table d n]
  | .node op args => .node op args :: nodesList args

def nodesList : List Expr → List Expr
  | [] => []
  | e :: es => e.nodes ++ nodesList es
end

end Expr

end Canonic.Sql
