import Mathlib
import Canonic.Sql.Traverse

set_option autoImplicit false

/-! # The meaning of queries

Values with `NULL`, conditions in three-valued logic, and the relational operations over lists of
rows. What is specific to an engine (literals, functions, aggregates, windows, nested queries) is a
parameter, so a result holds for every engine and every database. A list of rows is a bag: its order
is an artefact of the evaluation. -/

namespace Canonic.Sql

/-! ## Values -/

/-- A value: `NULL`, a truth value, or a datum of another type. -/
inductive Value (α : Type) where
  | null
  | bool (b : Bool)
  | data (a : α)
  deriving DecidableEq, Repr

namespace Value

variable {α : Type}

/-- A condition keeps a row when it is `TRUE`, not when it is `FALSE` or `NULL`. -/
def isTrue : Value α → Bool
  | .bool b => b
  | _ => false

def and3 : Value α → Value α → Value α
  | .bool false, _ => .bool false
  | _, .bool false => .bool false
  | .bool true, .bool true => .bool true
  | _, _ => .null

def or3 : Value α → Value α → Value α
  | .bool true, _ => .bool true
  | _, .bool true => .bool true
  | .bool false, .bool false => .bool false
  | _, _ => .null

/-- `a = b`, unknown as soon as one side is `NULL`. -/
def eq3 [DecidableEq α] (a b : Value α) : Value α :=
  if a = .null ∨ b = .null then .null else .bool (decide (a = b))

@[simp] theorem isTrue_bool (b : Bool) : (Value.bool b : Value α).isTrue = b := rfl

@[simp] theorem isTrue_and3 (a b : Value α) : (and3 a b).isTrue = (a.isTrue && b.isTrue) := by
  rcases a with _ | (_ | _) | _ <;> rcases b with _ | (_ | _) | _ <;> rfl

@[simp] theorem isTrue_or3 (a b : Value α) : (or3 a b).isTrue = (a.isTrue || b.isTrue) := by
  rcases a with _ | (_ | _) | _ <;> rcases b with _ | (_ | _) | _ <;> rfl

@[simp] theorem isTrue_eq3 [DecidableEq α] (a b : Value α) :
    (eq3 a b).isTrue = decide (a ≠ .null ∧ a = b) := by
  unfold eq3
  by_cases h : a = .null ∨ b = .null
  · rw [if_pos h]
    rcases h with rfl | rfl
    · simp [isTrue]
    · simp only [isTrue, false_eq_decide_iff]
      exact fun h => h.1 h.2
  · rw [if_neg h]
    simp_all

end Value

/-! ## Rows in scope -/

/-- A table: the names of its columns and its rows. -/
structure Table (α : Type) where
  columns : List String
  rows : List (List (Value α))

/-- What an alias is bound to: a row of a table, or no row (the null-extended side of a join). -/
structure Bound (α : Type) where
  columns : List String
  row : Option (List (Value α))
  deriving DecidableEq

/-- The rows in scope, by alias. -/
abbrev Scope (α : Type) := List (String × Bound α)

section
variable {α : Type}

/-- A column of a row. -/
def Table.value (t : Table α) (r : List (Value α)) (c : String) : Value α :=
  ((t.columns.zip r).lookup c).getD .null

def Bound.value (b : Bound α) (c : String) : Value α :=
  match b.row with
  | none => .null
  | some r => ((b.columns.zip r).lookup c).getD .null

/-- A column of an alias. -/
def Scope.value (s : Scope α) (a c : String) : Value α := ((s.lookup a).map (·.value c)).getD .null

/-- The row an alias is bound to. -/
def Scope.rowOf (s : Scope α) (a : String) : Option (List (Value α)) := (s.lookup a).bind (·.row)

theorem Scope.rowOf_eq {s : Scope α} {a : String} {b : Bound α} (h : s.lookup a = some b) :
    s.rowOf a = b.row := by
  simp [Scope.rowOf, h]

theorem Scope.value_of_rowOf_none {s : Scope α} {a : String} (h : s.rowOf a = none) (c : String) :
    s.value a c = .null := by
  unfold Scope.rowOf at h
  unfold Scope.value
  cases hb : s.lookup a with
  | none => rfl
  | some b =>
      simp only [hb, Option.bind_some] at h
      simp [Bound.value, h]

theorem Scope.value_cons_self (a : String) (t : Table α) (r : List (Value α)) (s : Scope α)
    (c : String) : Scope.value ((a, ⟨t.columns, some r⟩) :: s) a c = t.value r c := by
  simp [Scope.value, Bound.value, Table.value]

theorem Scope.value_cons_ne {a b : String} (h : a ≠ b) (x : Bound α) (s : Scope α) (c : String) :
    Scope.value ((b, x) :: s) a c = Scope.value s a c := by
  simp only [Scope.value, List.lookup_cons, beq_eq_false_iff_ne.mpr h]

/-- The column of a name in a row that was listed by column name. -/
theorem Table.value_map (cols : List String) (f : String → Value α) {c : String} (hc : c ∈ cols)
    (rest : List String) (more rows) :
    (Table.mk (cols ++ rest) rows).value (cols.map f ++ more) c = f c := by
  unfold Table.value
  induction cols with
  | nil => simp at hc
  | cons d cols ih =>
      simp only [List.cons_append, List.map_cons, List.zip_cons_cons, List.lookup_cons]
      by_cases hd : c = d
      · simp [hd]
      · simp only [beq_eq_false_iff_ne.mpr hd]
        exact ih (by simpa [hd] using hc)

/-- The column after them. -/
theorem Table.value_append (cols : List String) (f : String → Value α) {c : String} (hc : c ∉ cols)
    (v : Value α) (rest : List String) (rows) :
    (Table.mk (cols ++ c :: rest) rows).value (cols.map f ++ [v]) c = v := by
  unfold Table.value
  induction cols with
  | nil => simp
  | cons d cols ih =>
      simp only [List.mem_cons, not_or] at hc
      simp only [List.cons_append, List.map_cons, List.zip_cons_cons, List.lookup_cons,
        beq_eq_false_iff_ne.mpr hc.1]
      exact ih hc.2

end

/-! ## Expressions -/

/-- What an engine brings: the meaning of everything that is not a column, a truth value or a
connective, of columns without a qualifier, and of a projection that aggregates or ranks. -/
structure Engine (α : Type) where
  other : Expr → (Column → Value α) → Value α
  bare : Scope α → String → Value α
  grouped : Distinct → List Projection → List Expr → List (Scope α) → List (List (Value α))

/-- An operator that reads more than the row it stands in. -/
def Op.readsGroup : Op → Bool
  | .agg _ => true
  | .window => true
  | _ => false

/-- A node that reads more than one row. -/
def Expr.readsGroup : Expr → Bool
  | .node op _ => op.readsGroup
  | _ => false

/-- An expression over single rows: no aggregate and no window. -/
def Expr.isPlain (e : Expr) : Bool := e.nodes.all fun x => !x.readsGroup

namespace Expr

@[simp] theorem isPlain_column (c : Column) : (Expr.column c).isPlain = true := by
  simp [isPlain, nodes, readsGroup]

@[simp] theorem isPlain_col (name table : String) : (Expr.col name table).isPlain = true :=
  isPlain_column _

@[simp] theorem isPlain_number (t : String) : (Expr.number t).isPlain = true := by
  simp [isPlain, nodes, readsGroup, number]

@[simp] theorem isPlain_node (op : Op) (args : List Expr) :
    (Expr.node op args).isPlain = (!op.readsGroup && args.all isPlain) := by
  have hall : (args.all fun a => a.nodes.all fun x => !x.readsGroup) = args.all isPlain := rfl
  simp only [isPlain, nodes, nodesList_eq, List.all_cons, List.all_flatMap, hall]
  rfl

theorem isPlain_of_mem_nodes {e : Expr} (h : e.isPlain = true) :
    ∀ {x : Expr}, x ∈ e.nodes → x.isPlain = true := by
  induction e using Expr.induct with
  | column c | literal s t | table d n =>
      intro x hx
      obtain rfl : x = _ := by simpa [nodes] using hx
      exact h
  | node op args ih =>
      intro x hx
      rcases mem_nodes.mp hx with rfl | ⟨a, ha, hxa⟩
      · exact h
      · rw [isPlain_node, Bool.and_eq_true, List.all_eq_true] at h
        exact ih a ha (h.2 a ha) hxa

/-- Plain expressions in the place of columns leave an expression plain. -/
theorem isPlain_mapColumns {f : Column → Expr} (hf : ∀ c, (f c).isPlain = true) {e : Expr}
    (h : e.isPlain = true) : (e.mapColumns f).isPlain = true := by
  induction e using Expr.induct with
  | column c => simpa [mapColumns] using hf c
  | literal s t => simpa [mapColumns] using h
  | table d n => simpa [mapColumns] using h
  | node op args ih =>
      rw [isPlain_node, Bool.and_eq_true, List.all_eq_true] at h
      rw [mapColumns_node, isPlain_node, Bool.and_eq_true, List.all_map, List.all_eq_true]
      exact ⟨h.1, fun a ha => ih a ha (h.2 a ha)⟩

end Expr

namespace Engine

variable {α : Type} [DecidableEq α] (E : Engine α)

/-- A column reference in a scope. -/
def column (s : Scope α) (c : Column) : Value α :=
  if c.table = "" then E.bare s c.name else s.value c.table c.name

/-- The value of an expression in a scope. -/
def eval (s : Scope α) : Expr → Value α
  | .column c => E.column s c
  | .node .paren [e] => eval s e
  | .node .and [a, b] => .and3 (eval s a) (eval s b)
  | .node .or [a, b] => .or3 (eval s a) (eval s b)
  | .node .eq [a, b] => .eq3 (eval s a) (eval s b)
  | .node .is [a, b] => .bool (decide (eval s a = eval s b))
  | .node .null [] => .null
  | .node (.bool b) [] => .bool b
  | e => E.other e (E.column s)

/-- All conditions are `TRUE`. -/
def holds (s : Scope α) (conditions : List Expr) : Bool :=
  conditions.all fun e => (E.eval s e).isTrue

/-- The rows of a projection. -/
def project (d : Distinct) (ps : List Projection) (groupBy : List Expr) (ss : List (Scope α)) :
    List (List (Value α)) :=
  if groupBy.isEmpty && ps.all fun p => p.expr.isPlain then
    match d with
    | .none => ss.map fun s => ps.map fun p => E.eval s p.expr
    | .rows => (ss.map fun s => ps.map fun p => E.eval s p.expr).dedup
    | .on _ => E.grouped d ps groupBy ss
  else E.grouped d ps groupBy ss

/-- A scope joined with a table: with every row that matches, and in a `LEFT JOIN` without one when
no row does. -/
def join (kind : JoinKind) (a : String) (on : List Expr) (t : Table α) (s : Scope α) :
    List (Scope α) :=
  let matched := (t.rows.map fun r => ((a, ⟨t.columns, some r⟩) :: s : Scope α)).filter
    fun s' => E.holds s' on
  match kind with
  | .left => if matched.isEmpty then [(a, ⟨t.columns, none⟩) :: s] else matched
  | _ => matched

/-- A `LEFT JOIN` that finds at most one row keeps one row of the left side. -/
theorem join_left_of_unique {a : String} {on : List Expr} {t : Table α} {s : Scope α}
    (h : (t.rows.filter fun r => E.holds ((a, ⟨t.columns, some r⟩) :: s) on).length ≤ 1) :
    E.join .left a on t s = [(a, ⟨t.columns,
      t.rows.find? fun r => E.holds ((a, ⟨t.columns, some r⟩) :: s) on⟩) :: s] := by
  unfold join
  simp only [List.filter_map, Function.comp_def]
  rw [← List.head?_filter]
  cases hf : t.rows.filter fun r => E.holds ((a, ⟨t.columns, some r⟩) :: s) on with
  | nil => simp
  | cons r rs =>
      obtain rfl : rs = [] := by
        rw [hf, List.length_cons] at h
        exact List.length_eq_zero_iff.mp (by omega)
      simp

/-- Without a condition every row is joined. -/
theorem join_nil {kind : JoinKind} (hk : kind ≠ .left) (a : String) (t : Table α) (s : Scope α) :
    E.join kind a [] t s = t.rows.map fun r => (a, ⟨t.columns, some r⟩) :: s := by
  have hall : (t.rows.map fun r => ((a, ⟨t.columns, some r⟩) :: s : Scope α)).filter
      (fun s' => E.holds s' []) = t.rows.map fun r => (a, ⟨t.columns, some r⟩) :: s :=
    List.filter_eq_self.mpr fun _ _ => rfl
  rcases kind with _ | _ | _ | _
  · exact hall
  · exact absurd rfl hk
  · exact hall
  · exact hall

/-- A plain projection keeps one row for each scope. -/
theorem project_plain {ps : List Projection} (h : ∀ p ∈ ps, p.expr.isPlain = true)
    (ss : List (Scope α)) :
    E.project .none ps [] ss = ss.map fun s => ps.map fun p => E.eval s p.expr := by
  have hall : (ps.all fun p => p.expr.isPlain) = true := List.all_eq_true.mpr h
  simp [project, hall]

end Engine

/-! ## Queries -/

section
variable {α : Type} [DecidableEq α] (E : Engine α) (db : String → Table α)

mutual
/-- The table a query returns, from the base tables and the common table expressions. -/
def Query.eval (ctes : String → Table α) : Query → Table α
  | .select d ps fs w g => ⟨ps.map (·.name), E.project d ps g
      ((Query.evalItems ctes fs [[]]).filter fun s => E.holds s w)⟩
  | .union all l r => ⟨(l.eval ctes).columns,
      if all then (l.eval ctes).rows ++ (r.eval ctes).rows
      else ((l.eval ctes).rows ++ (r.eval ctes).rows).dedup⟩

/-- The rows of a `FROM` clause. -/
def Query.evalItems (ctes : String → Table α) :
    List (FromItem Query) → List (Scope α) → List (Scope α)
  | [], ss => ss
  | i :: is, ss => Query.evalItems ctes is (ss.flatMap (Query.evalItem ctes i))

def Query.evalItem (ctes : String → Table α) : FromItem Query → Scope α → List (Scope α)
  | ⟨kind, rel, a, on⟩, s => E.join kind a on (Query.evalRel ctes rel) s

def Query.evalRel (ctes : String → Table α) : Rel Query → Table α
  | .source _ t => db t
  | .cte n => ctes n
  | .derived q => q.eval ctes
end

@[simp] theorem Query.evalItems_nil (ctes : String → Table α) (ss : List (Scope α)) :
    Query.evalItems E db ctes [] ss = ss := by
  simp only [Query.evalItems]

@[simp] theorem Query.evalItems_cons (ctes : String → Table α) (i : FromItem Query)
    (is : List (FromItem Query)) (ss : List (Scope α)) :
    Query.evalItems E db ctes (i :: is) ss = Query.evalItems E db ctes is
      (ss.flatMap (E.join i.kind i.alias_ i.on (Query.evalRel E db ctes i.rel))) := by
  cases i with
  | mk kind rel a on =>
      rw [Query.evalItems]
      rfl

@[simp] theorem Query.evalRel_cte (ctes : String → Table α) (n : String) :
    Query.evalRel E db ctes (.cte n) = ctes n := by
  simp only [Query.evalRel]

/-- The rows of a union without duplicates. -/
theorem Query.mem_unionAll {ctes : String → Table α} {x : List (Value α)} :
    ∀ {q : Query} {rs : List Query}, x ∈ ((Query.unionAll false q rs).eval E db ctes).rows ↔
      ∃ r ∈ q :: rs, x ∈ (r.eval E db ctes).rows
  | q, [] => by simp [Query.unionAll]
  | q, r :: rs => by
      rw [Query.unionAll, Query.mem_unionAll]
      simp [Query.eval, or_assoc]

theorem Query.nodup_unionAll {ctes : String → Table α} :
    ∀ {q r : Query} {rs : List Query},
      ((Query.unionAll false q (r :: rs)).eval E db ctes).rows.Nodup
  | q, r, [] => by
      simp only [Query.unionAll, Query.eval, Bool.false_eq_true, ↓reduceIte]
      exact List.nodup_dedup _
  | q, r, r' :: rs => by
      rw [Query.unionAll]
      exact Query.nodup_unionAll

theorem Query.columns_unionAll {ctes : String → Table α} {all : Bool} :
    ∀ {q : Query} {rs : List Query},
      ((Query.unionAll all q rs).eval E db ctes).columns = (q.eval E db ctes).columns
  | q, [] => rfl
  | q, r :: rs => by
      rw [Query.unionAll, Query.columns_unionAll, Query.eval]

/-- The common table expressions of a statement, evaluated in order. One that is given is not
evaluated: its table is the given one. -/
def Statement.tables (given : String → Option (Table α)) (st : Statement) : String → Table α :=
  st.ctes.foldl (fun env c n => if n = c.1 then (given n).getD (c.2.eval E db env) else env n)
    fun _ => ⟨[], []⟩

/-- The table a statement returns, some of its common table expressions being given. -/
def Statement.evalOver (given : String → Option (Table α)) (st : Statement) : Table α :=
  st.body.eval E db (st.tables E db given)

end

end Canonic.Sql
