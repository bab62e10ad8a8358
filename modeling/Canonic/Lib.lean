import Canonic.Sql.Query
import Canonic.Semantic.Duration

set_option autoImplicit false

/-! # The libraries the compiler calls

The compiler reads and writes SQL text through a SQL library, suggests names with a fuzzy
matcher, and evaluates watermarks against a time-zone database. `Lib` bundles these as
parameters: every definition and theorem below holds for any behaviour of theirs, and where a
result needs one (a text that parses to a given tree), it says so as a hypothesis. -/

namespace Canonic

/-- The dialects with an adapter (`DIALECT_ADAPTERS`). -/
inductive Dialect where
  | postgres | redshift | duckdb | snowflake | databricks | mysql | clickhouse | sqlite
  deriving DecidableEq, Repr

namespace Dialect

def name : Dialect → String
  | postgres => "postgres" | redshift => "redshift" | duckdb => "duckdb"
  | snowflake => "snowflake" | databricks => "databricks" | mysql => "mysql"
  | clickhouse => "clickhouse" | sqlite => "sqlite"

def all : List Dialect :=
  [postgres, redshift, duckdb, snowflake, databricks, mysql, clickhouse, sqlite]

/-- The dialect of a dialect name or connector type (`TYPE_TO_DIALECT`, `adapter_for`). -/
def ofName (s : String) : Option Dialect :=
  if s = "postgresql" ∨ s = "pg" then some postgres else all.find? fun d => d.name == s

end Dialect

/-- A finality watermark: its ISO text and its instant, comparable across time zones. -/
structure Watermark where
  iso : String
  instant : Int
  deriving DecidableEq, Repr

/-- What the compiler uses of the libraries around it. -/
structure Lib where
  /-- `sqlglot.parse_one(sql, read=dialect)`; `none` is a parse error. -/
  parseOne : Option Dialect → String → Option Sql.Expr
  /-- `expr.sql(dialect=…)`. -/
  sql : Option Dialect → Sql.Expr → String
  /-- `expr.sql(dialect="postgres", identify=True)`, the rendering of leaf keys. -/
  keySql : Sql.Expr → String
  /-- The same rendering of a whole query. -/
  keySqlQuery : Sql.Query → String
  /-- `difflib.get_close_matches(word, possibilities, n=5, cutoff=0.5)`. -/
  getCloseMatches : String → List String → List String
  /-- `evaluate_watermark` and `watermark_to_iso`, from the expression, the zone and `as_of`. -/
  evaluateWatermark : String → String → Option DateTime → Except String Watermark
  /-- The instant of an ISO date or datetime literal (`_parse_datetime_literal`). -/
  parseDatetime : String → Option Int
  /-- `str.lower` and `str.upper`, Unicode included. -/
  lower : String → String
  upper : String → String
  /-- `str.isalnum` of a character outside ASCII. -/
  isAlnum : Char → Bool
  /-- Whether the dialect's `NULL_ORDERING` is `nulls_are_small`. -/
  nullsAreSmall : Dialect → Bool
  /-- The wall clock, read only for a query without `as_of`. -/
  now : DateTime

/-- The library as it behaves on the texts of a finite table: each text parses to its tree, in
every dialect, and each tree renders to its text. -/
def Lib.ofTexts (texts : List (String × Sql.Expr)) : Lib where
  parseOne _ s := texts.lookup s
  sql _ e := ((texts.find? fun p => p.2 == e).map (·.1)).getD ""
  keySql e := ((texts.find? fun p => p.2 == e).map (·.1)).getD ""
  keySqlQuery _ := ""
  getCloseMatches _ _ := []
  evaluateWatermark w tz _ := .ok ⟨w ++ " " ++ tz, 0⟩
  parseDatetime _ := none
  lower s := s
  upper s := s
  isAlnum _ := false
  nullsAreSmall _ := false
  now := ⟨⟨2026, 1, 1⟩, "2026-01-01T00:00:00+00:00"⟩

end Canonic
