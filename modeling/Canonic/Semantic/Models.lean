import Canonic.Lib

set_option autoImplicit false

/-! # Semantic sources

`semantic/models.py`: a semantic source is one queryable relation with its columns, measures,
dimensions and declared joins. The model validators run when a source is loaded, so a loaded
source satisfies them; the ones on names are carried here as fields of the structures, and a
source that breaks them cannot be built. -/

namespace Canonic

open Sql (Expr)

/-- The dialect-neutral column types. -/
inductive NormalizedType where
  | string | int | decimal | float | bool | date | timestamp | json
  deriving DecidableEq, Repr

def NormalizedType.value : NormalizedType → String
  | string => "string" | int => "int" | decimal => "decimal" | float => "float"
  | bool => "bool" | date => "date" | timestamp => "timestamp" | json => "json"

/-- The types of a time axis (`_TIME_TYPES`). -/
def NormalizedType.isTime : NormalizedType → Bool
  | date | timestamp => true
  | _ => false

inductive Additivity where
  | additive | semiAdditive | nonAdditive
  deriving DecidableEq, Repr

def Additivity.value : Additivity → String
  | additive => "additive" | semiAdditive => "semi_additive" | nonAdditive => "non_additive"

inductive Relationship where
  | oneToOne | manyToOne | oneToMany | manyToMany
  deriving DecidableEq, Repr

/-- The joins that multiply the rows they start from (`_FANOUT`). -/
def Relationship.fansOut : Relationship → Bool
  | oneToMany | manyToMany => true
  | _ => false

structure Column where
  name : String
  type : NormalizedType
  nullable : Bool := true
  deriving DecidableEq, Repr

structure Measure where
  name : String
  expr : String
  additivity : Additivity := .additive
  semiAdditiveOver : List String := []
  deriving DecidableEq, Repr

/-- The aggregate classes a P0 measure may use (`_P0_AGG_FUNCTIONS`). -/
def p0AggFunctions : List Sql.Agg := [.sum, .count, .min, .max]

/-- The aggregate class of a node, if it is one. -/
def asAgg : Expr → Option (Sql.Agg × List Expr)
  | .node (.agg a) args => some (a, args)
  | _ => none

/-- Whether a `DISTINCT` node stands somewhere in an expression. -/
def hasDistinct (e : Expr) : Bool :=
  e.walk.any fun n => match n with
    | .node .distinct _ => true
    | _ => false

/-- `Measure.is_p0_compilable`: additive, and its first aggregate is a P0 one without `DISTINCT`. -/
def Measure.isP0Compilable (lib : Lib) (m : Measure) : Bool :=
  if m.additivity ≠ .additive then false
  else match lib.parseOne none m.expr with
    | none => false
    | some parsed =>
        match parsed.walk.findSome? asAgg with
        | none => false
        | some (.count, this :: _) => !hasDistinct this
        | some (agg, _) => agg ∈ p0AggFunctions

/-- The period grains a time dimension can declare, shortest first. -/
def periodGrains : List String := ["hour", "day", "week", "month", "quarter", "year"]

/-- The placeholders of a `time_format`, in order. -/
def formatDirectives : List Char → List Char
  | '%' :: '\n' :: cs => formatDirectives ('\n' :: cs)
  | '%' :: '%' :: cs => formatDirectives cs
  | '%' :: c :: cs => c :: formatDirectives cs
  | _ :: cs => formatDirectives cs
  | [] => []

/-- The placeholders a format of each grain needs, most significant first. -/
def requiredDirectives (grain : String) : List Char :=
  if grain = "year" then ['Y']
  else if grain = "quarter" then ['Y', 'q']
  else if grain = "month" then ['Y', 'm']
  else if grain = "week" then ['G', 'V']
  else if grain = "day" then ['Y', 'm', 'd']
  else ['Y', 'm', 'd', 'H']

/-- A column or derived value exposed for grouping and filtering. -/
structure Dimension where
  name : String
  column : Option String := none
  expr : Option String := none
  jsonPath : Option (List String) := none
  type : Option NormalizedType := none
  granularity : Option String := none
  timeGrain : Option String := none
  timeFormat : Option String := none
  label : Option String := none
  aliases : List String := []
  /-- Exactly one of `column` and `expr` is set. -/
  column_xor_expr : column.isNone ≠ expr.isNone := by
    first | exact Bool.false_ne_true | decide
  /-- A JSON path reads a column. -/
  jsonPath_column : jsonPath.isSome → expr.isNone := by
    first | exact fun _ => Eq.refl true | decide
  /-- A derived value declares its type. -/
  derived_type : (expr.isSome || jsonPath.isSome) → type.isSome := by
    first | exact fun h => h | decide
  deriving DecidableEq, Repr

/-- `_columns_in_expr`: the names of the columns a SQL text refers to. -/
def columnsInExpr (lib : Lib) (expr : String) : Option (List String) :=
  (lib.parseOne none expr).map fun parsed => (parsed.columns.map (·.name)).dedup

namespace Dimension

/-- Whether the value is computed rather than a bare column. -/
def isDerived (d : Dimension) : Bool := d.expr.isSome || d.jsonPath.isSome

/-- The physical columns the dimension reads. A text that does not parse is refused at load. -/
def backingColumns (lib : Lib) (d : Dimension) : List String :=
  match d.column with
  | some c => [c]
  | none => ((d.expr.bind (columnsInExpr lib)).getD [])

/-- The declared type of a derived value, else the backing column's. -/
def valueType (d : Dimension) (columns : List Column) : Option NormalizedType :=
  if d.isDerived then d.type
  else (columns.find? fun c => some c.name == d.column).map (·.type)

/-- The period each value stands for, `none` when it is unknown. -/
def periodGrain (d : Dimension) : Option String :=
  match d.timeGrain with
  | some g => some g
  | none =>
      let g := (d.granularity.getD "").toLower
      if g ∈ periodGrains then some g else none

/-- Whether labels sort as text in the order of their periods; true without a `time_format`. -/
def sortsChronologically (d : Dimension) : Bool :=
  match d.timeFormat, d.timeGrain with
  | some f, some g => formatDirectives f.toList == requiredDirectives g
  | _, _ => true

/-- `_dim_matches`: the canonical name or any declared alias. -/
def dimMatches (d : Dimension) (name : String) : Bool := d.name == name || name ∈ d.aliases

end Dimension

/-- A declared join to another source. -/
structure Join where
  to_ : String
  on : String
  relationship : Relationship
  name : Option String := none
  deriving DecidableEq, Repr

/-- `join.name or join.to`: the SQL alias of the join target. -/
def Join.alias_ (j : Join) : String :=
  match j.name with
  | some n => if n = "" then j.to_ else n
  | none => j.to_

/-! A source without columns declares no grain and no dimension that needs one. -/

theorem grain_of_no_columns : ∀ g ∈ ([] : List String), g ∈ ([] : List Column).map (·.name) :=
  fun _ hg => absurd hg List.not_mem_nil

theorem dimensions_of_no_columns :
    ∀ d ∈ ([] : List Dimension), ∀ c ∈ d.column, c ∈ ([] : List Column).map (·.name) :=
  fun _ hd => absurd hd List.not_mem_nil

/-- One queryable relation. -/
structure SemanticSource where
  name : String
  connection : String
  table : String
  grain : List String := []
  columns : List Column := []
  measures : List Measure := []
  dimensions : List Dimension := []
  joins : List Join := []
  lastValidatedAt : Option String := none
  columns_nodup : (columns.map (·.name)).Nodup := by first | exact List.nodup_nil | decide
  measures_nodup : (measures.map (·.name)).Nodup := by first | exact List.nodup_nil | decide
  dimensions_nodup : (dimensions.map (·.name)).Nodup := by first | exact List.nodup_nil | decide
  /-- No two joins of a source share an alias. -/
  joins_nodup : (joins.map Join.alias_).Nodup := by first | exact List.nodup_nil | decide
  /-- Grain columns are declared. -/
  grain_declared : ∀ g ∈ grain, g ∈ columns.map (·.name) := by
    first | exact grain_of_no_columns | decide
  /-- The column of a dimension is declared. -/
  dimensions_declared : ∀ d ∈ dimensions, ∀ c ∈ d.column, c ∈ columns.map (·.name) := by
    first | exact dimensions_of_no_columns | decide

namespace SemanticSource

/-- `own_column`: the column a name refers to on this source, without following a join. -/
def ownColumn (s : SemanticSource) (name : String) : Option Column :=
  match s.dimensions.find? fun d => d.name == name with
  | some d =>
      match d.column, d.jsonPath with
      | some c, none => s.columns.find? fun k => k.name == c
      | _, _ => none
  | none => s.columns.find? fun k => k.name == name

def hasColumn (s : SemanticSource) (name : String) : Bool := s.columns.any fun c => c.name == name

/-- The declared type of a column. -/
def columnType (s : SemanticSource) (name : String) : Option NormalizedType :=
  (s.columns.find? fun c => c.name == name).map (·.type)

/-- `_find_measure`. -/
def findMeasure (s : SemanticSource) (name : String) : Option Measure :=
  s.measures.find? fun m => m.name == name

end SemanticSource

/-- `sources_by_name`: the loaded sources. Names are unique across a project (enforced by the
loader), so the dictionary holds every one of them. -/
structure Sources where
  list : List SemanticSource
  names_nodup : (list.map (·.name)).Nodup := by decide

namespace Sources

/-- `sources_by_name.get(name)`. -/
def get (ss : Sources) (name : String) : Option SemanticSource :=
  ss.list.find? fun s => s.name == name

/-- `sources_by_name[name]`, a key error when the name is absent. -/
def getKey (ss : Sources) (name : String) : Except Err SemanticSource :=
  match ss.get name with
  | some s => .ok s
  | none => .error (.internal s!"KeyError: {pyRepr name}")

theorem get_name {ss : Sources} {name : String} {s : SemanticSource} (h : ss.get name = some s) :
    s.name = name := by
  have := List.find?_some h
  simpa using this

theorem get_mem {ss : Sources} {name : String} {s : SemanticSource} (h : ss.get name = some s) :
    s ∈ ss.list :=
  List.mem_of_find?_eq_some h

theorem getKey_eq_ok {ss : Sources} {name : String} {s : SemanticSource} :
    ss.getKey name = .ok s ↔ ss.get name = some s := by
  unfold getKey
  cases h : ss.get name with
  | none => simp
  | some t => simp

end Sources

end Canonic
