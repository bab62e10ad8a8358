import Canonic.Semantic.Models

set_option autoImplicit false

/-! # Dialect adapters

`compiler/dialect.py`, the part of an adapter that shapes the statement before it is rendered:
date arithmetic, JSON access, the names of types, and whether percentiles are native. Rendering
itself (`emit`) is the SQL library's. -/

namespace Canonic

open Sql (Expr)

/-- A keyword argument such as the unit of an interval (`exp.Var`). -/
def Sql.Expr.var (name : String) : Expr := .node (.func ("Var:" ++ name)) []

/-- `CAST(e AS type)`. -/
def Sql.Expr.cast (e : Expr) (type : String) : Expr := .node (.cast type) [e]

/-- `n:+d`, a number with its sign. -/
def signed (n : Int) : String := if 0 ≤ n then s!"+{n}" else toString n

namespace Dialect

/-- `map_type`, the type table of a dialect. -/
def mapType : Dialect → NormalizedType → String
  | postgres, t | redshift, t => match t with
      | .string => "TEXT" | .int => "BIGINT" | .decimal => "NUMERIC"
      | .float => "DOUBLE PRECISION" | .bool => "BOOLEAN" | .date => "DATE"
      | .timestamp => "TIMESTAMPTZ" | .json => "JSONB"
  | duckdb, t => match t with
      | .string => "TEXT" | .int => "BIGINT" | .decimal => "DECIMAL" | .float => "DOUBLE"
      | .bool => "BOOLEAN" | .date => "DATE" | .timestamp => "TIMESTAMPTZ" | .json => "JSON"
  | snowflake, t => match t with
      | .string => "VARCHAR" | .int => "BIGINT" | .decimal => "NUMBER" | .float => "DOUBLE"
      | .bool => "BOOLEAN" | .date => "DATE" | .timestamp => "TIMESTAMP_TZ"
      | .json => "VARIANT"
  | databricks, t => match t with
      | .string => "STRING" | .int => "BIGINT" | .decimal => "DECIMAL" | .float => "DOUBLE"
      | .bool => "BOOLEAN" | .date => "DATE" | .timestamp => "TIMESTAMP" | .json => "STRING"
  | mysql, t => match t with
      | .string => "VARCHAR(255)" | .int => "BIGINT" | .decimal => "DECIMAL(38, 10)"
      | .float => "DOUBLE" | .bool => "BOOLEAN" | .date => "DATE" | .timestamp => "DATETIME"
      | .json => "JSON"
  | clickhouse, t => match t with
      | .string => "String" | .int => "Int64" | .decimal => "Decimal(38, 10)"
      | .float => "Float64" | .bool => "Bool" | .date => "Date" | .timestamp => "DateTime64(3)"
      | .json => "String"
  | sqlite, t => match t with
      | .string => "TEXT" | .int => "INTEGER" | .decimal => "REAL" | .float => "REAL"
      | .bool => "INTEGER" | .date => "TEXT" | .timestamp => "TEXT" | .json => "TEXT"

/-- `supports_percentile_cont`: whether percentiles are an ordered-set aggregate. -/
def supportsPercentileCont : Dialect → Bool
  | mysql | sqlite => false
  | _ => true

/-! ## Date arithmetic -/

/-- `_normalize_date_step` of a number: minutes, hours, days and months only. -/
def normalizeDateStep (amount : Int) (unit : DurationUnit) : String × Int :=
  match unit with
  | .minute => ("MINUTE", amount)
  | .hour => ("HOUR", amount)
  | .day => ("DAY", amount)
  | .week => ("DAY", 7 * amount)
  | .month => ("MONTH", amount)
  | .quarter => ("MONTH", 3 * amount)
  | .year => ("MONTH", 12 * amount)

/-- `_date_add_node` with a step that is already in a SQL unit. -/
def dateAddNode (day step : Expr) (sqlUnit : String) : Expr :=
  .call "DATE_ADD" [day, step, .var sqlUnit]

/-- `_sqlite_modifier`: a `DATE()` modifier built from a computed amount. -/
def sqliteModifier (amount : Expr) (unit : String) : Expr :=
  .call "DPipe" [amount.cast "TEXT", .string (" " ++ unit)]

/-- A month step in SQLite, clamped to the end of the target month. -/
def sqliteMonths (day : Expr) (months : Int) : Expr :=
  let dayOfMonth := (Expr.call "STRFTIME" [.string "%d", day]).cast "INT"
  let shifted := .node .date [day, .string "start of month", .string s!"{signed months} months",
    sqliteModifier (.node .sub [dayOfMonth, .number "1"]) "days"]
  let monthEnd := .node .date [day, .string "start of month",
    .string s!"{signed (months + 1)} months", .string "-1 days"]
  .call "MIN" [shifted, monthEnd]

/-- SQLite's `DATE` or `DATETIME` of a day and a modifier. -/
def sqliteMove (asDate : Bool) (day modifier : Expr) : Expr :=
  if asDate then .node .date [day, modifier] else .call "DATETIME" [day, modifier]

/-- `date_add` of SQLite by a number of units. -/
def sqliteDateAdd (day : Expr) (amount : Int) (unit : DurationUnit) (asDate : Bool) : Expr :=
  match normalizeDateStep amount unit with
  | ("MINUTE", n) => .call "DATETIME" [day, .string s!"{signed n} minutes"]
  | ("HOUR", n) => .call "DATETIME" [day, .string s!"{signed n} hours"]
  | ("DAY", n) => sqliteMove asDate day (.string s!"{signed n} days")
  | (_, n) =>
      if asDate then sqliteMonths day n
      else .call "DATETIME" [.call "DPipe" [.call "DPipe" [sqliteMonths day n, .string " "],
        .call "TIME" [day]]]

/-- `date_add`: `day` moved by `amount` units, back for a negative one. -/
def dateAdd (d : Dialect) (day : Expr) (amount : Int) (unit : DurationUnit)
    (asDate : Bool := true) : Expr :=
  match d with
  | sqlite => sqliteDateAdd day amount unit asDate
  | clickhouse =>
      let step := normalizeDateStep amount unit
      dateAddNode day (.number (toString step.2)) step.1
  | _ =>
      let step := normalizeDateStep amount unit
      let added := dateAddNode day (.number (toString step.2)) step.1
      if asDate then added.cast "DATE" else added

/-- `date_add` by a computed number of days. -/
def dateAddDays (d : Dialect) (day amount : Expr) : Expr :=
  match d with
  | sqlite => sqliteMove true day (sqliteModifier amount "days")
  | clickhouse => dateAddNode day amount "DAY"
  | _ => (dateAddNode day amount "DAY").cast "DATE"

/-! ## JSON -/

/-- A JSON path of keys below the root. -/
def jsonPath (keys : List String) : Expr :=
  .call "JSONPath" (.call "JSONPathRoot" [] :: keys.map fun k => .call "JSONPathKey" [.string k])

/-- `json_extract_text`: the key at a path, as text. -/
def jsonExtractText (d : Dialect) (column : Expr) (segments : List String) : Expr :=
  match d with
  | postgres =>
      let node := segments.dropLast.foldl
        (fun e key => .call "JSONExtract" [e, jsonPath [key]]) column
      .call "JSONExtractScalar" [node, jsonPath [segments.getLastD ""]]
  | snowflake =>
      let path := String.join (segments.map fun key => "[\"" ++ key ++ "\"]")
      (Expr.call "GET_PATH" [column, .string path]).cast "VARCHAR"
  | sqlite =>
      let path := "$" ++ String.join (segments.map fun key => ".\"" ++ key ++ "\"")
      .call "JSON_EXTRACT" [column, .string path]
  | _ => .call "JSONExtractScalar" [column, jsonPath segments]

/-- `json_value`: the key at a path, cast unless it is text. -/
def jsonValue (d : Dialect) (column : Expr) (segments : List String) (type : NormalizedType) :
    Expr :=
  let text := d.jsonExtractText column segments
  if type = .string then text else text.cast (d.mapType type)

end Dialect

end Canonic
