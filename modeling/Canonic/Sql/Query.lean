import Canonic.Sql.Expr

set_option autoImplicit false

/-! # SELECT statements

The statement shapes a query builder emits: a `SELECT` over a list of joined relations, a
`UNION` of two queries, and a list of common table expressions in front of the final query.

A relation is a base table, a reference to a common table expression, or a derived table. A
base table also carries the name of the modelled relation (`source`) the scan was emitted
for; that name is not rendered, it is what a statement about *which relation is read* needs.

`Query.selects` lists every `SELECT` of a query, those of derived tables included, and
`Statement.selects` those of a whole statement. An invariant of an emitted statement is a
property of each of these. -/

namespace Canonic.Sql

/-- What a `FROM` or `JOIN` item reads. -/
inductive Rel (α : Type) where
  | source (source table : String)
  | cte (name : String)
  | derived (q : α)

/-- How an item is joined to the ones before it. -/
inductive JoinKind where
  | from
  | left
  | inner
  | cross
  deriving DecidableEq, Repr

/-- One item of a `FROM` clause, with the condition it is joined on. -/
structure FromItem (α : Type) where
  kind : JoinKind
  rel : Rel α
  alias_ : String
  on : List Expr

/-- `DISTINCT`, `DISTINCT ON (…)`, or neither. -/
inductive Distinct where
  | none
  | rows
  | on (keys : List Expr)

/-- A projected expression and its output name. -/
structure Projection where
  expr : Expr
  name : String
  deriving Repr, DecidableEq

/-- A query. `where_` lists the conjuncts of the `WHERE` clause. -/
inductive Query where
  | select (distinct : Distinct) (projections : List Projection)
      (from_ : List (FromItem Query)) (where_ groupBy : List Expr)
  | union (all : Bool) (left right : Query)

/-- A query under its common table expressions, each visible to the ones after it. -/
structure Statement where
  ctes : List (String × Query)
  body : Query

/-- The clauses of one `SELECT`, derived tables seen as relations. -/
structure Select where
  distinct : Distinct
  projections : List Projection
  from_ : List (FromItem Query)
  where_ : List Expr
  groupBy : List Expr

namespace Select

/-- The `SELECT` as a query. -/
def toQuery (s : Select) : Query := .select s.distinct s.projections s.from_ s.where_ s.groupBy

/-- The aliases the `SELECT` binds in `FROM` and `JOIN`. -/
def aliases (s : Select) : List String := s.from_.map (·.alias_)

/-- The base-table scans of the `SELECT`: source name, table name and alias. -/
def scans (s : Select) : List (String × String × String) :=
  s.from_.filterMap fun i => match i.rel with
    | .source src t => some (src, t, i.alias_)
    | _ => none

/-- Every expression that stands in the `SELECT` itself. -/
def exprs (s : Select) : List Expr :=
  (match s.distinct with | .on ks => ks | _ => []) ++
    s.projections.map (·.expr) ++ s.from_.flatMap (·.on) ++ s.where_ ++ s.groupBy

end Select

mutual
/-- Every `SELECT` of a query, derived tables included. -/
def Query.selects : Query → List Select
  | .select d ps fs w g => ⟨d, ps, fs, w, g⟩ :: Query.selectsItems fs
  | .union _ l r => l.selects ++ r.selects

def Query.selectsItems : List (FromItem Query) → List Select
  | [] => []
  | i :: is => Query.selectsItem i ++ Query.selectsItems is

def Query.selectsItem : FromItem Query → List Select
  | ⟨_, rel, _, _⟩ => Query.selectsRel rel

def Query.selectsRel : Rel Query → List Select
  | .source .. => []
  | .cte _ => []
  | .derived q => q.selects
end

/-- Every `SELECT` of a statement. -/
def Statement.selects (s : Statement) : List Select :=
  s.ctes.flatMap (fun c => c.2.selects) ++ s.body.selects

/-- A statement without common table expressions. -/
def Query.toStatement (q : Query) : Statement := ⟨[], q⟩

/-- The union of a non-empty list of queries, nested to the left. -/
def Query.unionAll (all : Bool) (q : Query) : List Query → Query
  | [] => q
  | r :: rs => Query.unionAll all (.union all q r) rs

/-- The names of the columns a query gives, those of the first branch of a union. -/
def Query.outputs : Query → List String
  | .select _ ps _ _ _ => ps.map (·.name)
  | .union _ l _ => l.outputs

namespace Query

@[simp] theorem outputs_select (d : Distinct) (ps : List Projection)
    (fs : List (FromItem Query)) (w g : List Expr) :
    (Query.select d ps fs w g).outputs = ps.map (·.name) := rfl

theorem outputs_unionAll {all : Bool} {q : Query} {rs : List Query} :
    (unionAll all q rs).outputs = q.outputs := by
  induction rs generalizing q with
  | nil => rfl
  | cons r rs ih => rw [unionAll, ih, outputs]

@[simp] theorem selects_select (d : Distinct) (ps : List Projection)
    (fs : List (FromItem Query)) (w g : List Expr) :
    (Query.select d ps fs w g).selects = ⟨d, ps, fs, w, g⟩ :: selectsItems fs := rfl

@[simp] theorem selects_union (all : Bool) (l r : Query) :
    (Query.union all l r).selects = l.selects ++ r.selects := rfl

@[simp] theorem selectsItems_nil : selectsItems [] = [] := rfl

@[simp] theorem selectsItems_cons (i : FromItem Query) (is : List (FromItem Query)) :
    selectsItems (i :: is) = selectsRel i.rel ++ selectsItems is := by
  cases i with
  | mk kind rel alias_ on => simp only [selectsItems, selectsItem]

@[simp] theorem selectsRel_source (src t : String) : selectsRel (.source src t) = [] := rfl

@[simp] theorem selectsRel_cte (n : String) : selectsRel (.cte n) = [] := rfl

@[simp] theorem selectsRel_derived (q : Query) : selectsRel (.derived q) = q.selects := rfl

theorem mem_selectsItems {s : Select} {is : List (FromItem Query)} :
    s ∈ selectsItems is ↔ ∃ i ∈ is, s ∈ selectsRel i.rel := by
  induction is with
  | nil => simp
  | cons i is ih => simp [ih]

theorem mem_selects_unionAll {s : Select} {all : Bool} {q : Query} {rs : List Query} :
    s ∈ (unionAll all q rs).selects ↔ ∃ r ∈ q :: rs, s ∈ r.selects := by
  induction rs generalizing q with
  | nil => simp [unionAll]
  | cons r rs ih => simp [unionAll, ih, or_assoc]

end Query

end Canonic.Sql
