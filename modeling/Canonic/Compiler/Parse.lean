import Canonic.Compiler.Dialect
import Canonic.Compiler.Joins
import Canonic.Contracts.Principal
import Canonic.PyText

set_option autoImplicit false

/-! # Reading authored SQL

The context a piece of SQL text is read in (`_helpers.py`): the dialect it is written in, the
loaded sources, and the offsets that move columns of the leaf being built. The source keeps the
dialect and the offsets in context variables; here they are arguments. -/

namespace Canonic

open Sql (Expr)

/-- The libraries, the name of the connection's dialect and the loaded sources. -/
structure Env where
  lib : Lib
  dialectName : String
  sources : Sources

/-- The dialect texts are read in (`_PARSE_DIALECT`): none for a name without an adapter. -/
def Env.dialect (env : Env) : Option Dialect := Dialect.ofName env.dialectName

/-- `_active_adapter`. -/
def Env.adapter (env : Env) : Dialect := env.dialect.getD .postgres

/-! ## SQLite date modifiers -/

/-- The letters that a case-insensitive match folds into an ASCII one. -/
def foldCase (c : Char) : Char :=
  if c.toNat = 383 then 's' else if c.toNat = 8490 then 'k' else c.toLower

/-- `^start of (day|week|month|year)$`, ignoring case. -/
def dateTruncUnit (modifier : String) : Option String :=
  let text := String.ofList ((stripSpaces modifier.toList).map foldCase)
  ["day", "week", "month", "year"].find? fun u => "start of " ++ u == text

/-- `\w` of a regular expression. -/
def isWordChar (lib : Lib) (c : Char) : Bool :=
  c == '_' || if c.toNat < 128 then c.isAlphanum else lib.isAlnum c

/-- `^([+-]?)\s*(\d+)\s+(\w+)$`: the sign, the digits and the unit. -/
def dateStep (lib : Lib) (modifier : String) : Option (Bool × String × String) :=
  let cs := stripSpaces modifier.toList
  let (negative, rest) := match cs with
    | '-' :: r => (true, r)
    | '+' :: r => (false, r)
    | r => (false, r)
  let rest := rest.dropWhile isPySpace
  let digits := rest.takeWhile fun c => (decimalDigit c).isSome
  let rest := rest.dropWhile fun c => (decimalDigit c).isSome
  let unit := rest.dropWhile isPySpace
  if digits ≠ [] ∧ unit ≠ rest ∧ unit ≠ [] ∧ unit.all (isWordChar lib) then
    some (negative, String.ofList digits, String.ofList unit)
  else none

/-- `_apply_sqlite_date_modifier`. -/
def applySqliteDateModifier (lib : Lib) (base : Expr) (modifier : String) : Option Expr :=
  match dateTruncUnit modifier with
  | some unit => some (.call "DATE_TRUNC" [.string unit, base])
  | none =>
      (dateStep lib modifier).map fun (negative, num, unit) =>
        let interval := .node (.interval (lib.upper unit)) [.string num]
        .node (if negative then .sub else .add) [base, interval]

/-- The text a node is written with, the `name` of a literal. -/
def literalText : Expr → String
  | .literal _ t => t
  | .column c => c.name
  | .table _ n => n
  | .node _ _ => ""

/-- `_rewrite_sqlite_date_modifiers`: `DATE('now', modifier, …)` as arithmetic on the current
day. A modifier that is not understood leaves the node as it is. -/
def rewriteSqliteDateModifiers (lib : Lib) : Expr → Option Expr
  | .node .date (.literal _ "now" :: zone :: rest) =>
      (zone :: rest).foldl (fun acc m => acc.bind fun e =>
        applySqliteDateModifier lib e (literalText m)) (some (.node .currentDate []))
  | _ => none

/-- `_parse`. -/
def Env.parse (env : Env) (sql : String) : Except Err Expr :=
  match env.lib.parseOne env.dialect sql with
  | none => .error (.parseError sql)
  | some e => .ok (e.transform (rewriteSqliteDateModifiers env.lib))

/-! ## Offsets -/

/-- One offset a metric is planned under. The prefilters are read on the stored column. -/
structure TimeShift where
  timeDimension : String
  offset : Duration
  prefilters : List String := []
  deriving DecidableEq, Repr

/-- The offsets one column of a leaf moves by. -/
structure ShiftedColumn where
  offsets : List Duration
  isDate : Bool
  deriving DecidableEq, Repr

/-- The columns a leaf moves, by alias and name (`_SHIFTED`); empty when nothing moves. -/
abbrev ShiftMap := List ((String × String) × ShiftedColumn)

/-- A column moved forward by its offsets. -/
def Env.moveColumn (env : Env) (shifted : ShiftMap) (c : Sql.Column) : Expr :=
  match shifted.lookup (c.table, c.name) with
  | none => .column c
  | some s => s.offsets.foldl
      (fun e o => env.adapter.dateAdd e o.count o.unit s.isDate) (.column c)

/-- `_shift`: every shifted column moved forward by its offsets. -/
def Env.shift (env : Env) (shifted : ShiftMap) (e : Expr) : Expr :=
  e.mapColumns (env.moveColumn shifted)

/-- `_qualify_to`: every bare column qualified by one alias. -/
def qualifyTo (e : Expr) (alias_ : String) : Expr :=
  e.mapColumns fun c => if c.table = "" then Expr.col c.name alias_ else .column c

/-- `_requalify_source`: the columns of one table read from another. -/
def requalifySource (e : Expr) (oldSource newSource : String) : Expr :=
  e.mapColumns fun c => if c.table = oldSource then Expr.col c.name newSource else .column c

end Canonic
