import Canonic.Compiler.Dialect
import Canonic.Semantic.Periods
import Canonic.Semantic.TimeFormat

set_option autoImplicit false

/-! # SQLite's calendar

`date_add` and `_rewrite_date_trunc_for_sqlite` of `compiler/dialect.py` against `add_to_date` and
`floor_date`. SQLite is a parameter: what it documents about single modifiers is `Documented`. Its
date functions are documented to work for the years 0 to 9999, so nothing is known about a day after
them, wherever in a chain of modifiers the day stands. -/

namespace Canonic

open Sql (Expr Op)

namespace Dialect

/-- `_SQLITE_TRUNC_MODIFIERS`. -/
def sqliteTruncModifiers : List (String × String) :=
  [("day", "start of day"), ("month", "start of month"), ("year", "start of year")]

/-- The first of the quarter: back from the first of the month by the months of the quarter before
it. -/
def sqliteQuarter (base : Expr) : Expr :=
  let month := (Expr.call "STRFTIME" [.string "%m", base]).cast "INT"
  let back := Expr.call "Mod" [.node .paren [.node .sub [month, .number "1"]], .number "3"]
  .node .date [base, .string "start of month",
    sqliteModifier (.call "Neg" [.node .paren [back]]) "months"]

/-- `_rewrite_date_trunc_for_sqlite`. -/
def rewriteDateTruncForSqlite : Expr → Expr
  | .node (.func "DATE_TRUNC") [.literal s unit, base] =>
      let unitName := String.ofList (unit.toList.map Char.toLower)
      if unitName = "week" then .node .date [base, .string "weekday 0", .string "-6 days"]
      else if unitName = "quarter" then sqliteQuarter base
      else match sqliteTruncModifiers.lookup unitName with
        | none => .node (.func "DATE_TRUNC") [.literal s unit, base]
        | some modifier => .node .date [base, .string modifier]
  | node => node

end Dialect

/-! ## SQLite -/

/-- A value that a calendar expression has. -/
inductive SqliteValue where
  | null
  | int (n : Int)
  | text (s : String)
  deriving DecidableEq, Repr

/-- A value as text, `none` for `NULL`. -/
def SqliteValue.text? : SqliteValue → Option String
  | null => none
  | int n => some (toString n)
  | text s => some s

/-- The value of a text that may be missing. -/
def SqliteValue.ofText (s : Option String) : SqliteValue := s.elim null text

/-- The number that the digits at the beginning of a text make. -/
def leadingNat (cs : List Char) : Nat := Nat.ofDigitChars 10 (cs.takeWhile Char.isDigit) 0

/-- `CAST(s AS INT)`: the number that a text starts with. -/
def castInt (s : String) : Int :=
  match s.toList.dropWhile Char.isWhitespace with
  | '-' :: cs => -(leadingNat cs : Int)
  | '+' :: cs => leadingNat cs
  | cs => leadingNat cs

/-- What of SQLite is not in this repository: how it reads the text of a day, where a modifier leads
from a day (`none` for `NULL`), how it writes a day, and the rest of its expressions. -/
structure Sqlite where
  read : String → Option Date
  modify : String → Date → Option Date
  write : Date → Option String
  other : Expr → List SqliteValue → SqliteValue

namespace Sqlite

/-- `DATE(time value, modifier, ...)`: modifiers apply from left to right. -/
def date (sq : Sqlite) (args : List SqliteValue) : SqliteValue :=
  .ofText do
    match ← args.mapM (·.text?) with
    | [] => none
    | day :: modifiers =>
        let start ← sq.read day
        let moved ← modifiers.foldlM (fun d m => sq.modify m d) start
        sq.write moved

/-- `STRFTIME` of the day and of the month. -/
def strftime (sq : Sqlite) (format : String) (day : SqliteValue) : Option SqliteValue :=
  if format = "%d" then
    some (.ofText ((day.text?.bind sq.read).map fun d => Date.padded 2 d.day))
  else if format = "%m" then
    some (.ofText ((day.text?.bind sq.read).map fun d => Date.padded 2 d.month))
  else none

/-- The operators of the emitted calendar expressions; `none` for any other. -/
def operator (sq : Sqlite) (op : Op) (args : List SqliteValue) : Option SqliteValue :=
  match op, args with
  | .date, args => some (sq.date args)
  | .paren, [v] => some v
  | .sub, [.int a, .int b] => some (.int (a - b))
  | .func "Mod", [.int a, .int b] => some (if b = 0 then .null else .int (a.tmod b))
  | .func "Neg", [.int a] => some (.int (-a))
  | .cast "INT", [.text s] => some (.int (castInt s))
  | .cast "TEXT", [v] => some (.ofText v.text?)
  | .func "DPipe", [v, w] =>
      some (.ofText do let s ← v.text?; let t ← w.text?; return s ++ t)
  | .func "MIN", [.text s, .text t] => some (.text (if t < s then t else s))
  | .func "MIN", [.null, _] => some .null
  | .func "MIN", [_, .null] => some .null
  | .func "STRFTIME", [.text format, day] => sq.strftime format day
  | _, _ => none

mutual
/-- The value of an expression. -/
def eval (sq : Sqlite) : Expr → SqliteValue
  | .literal true t => .text t
  | .literal false t =>
      if t.toList.all Char.isDigit then .int (castInt t) else sq.other (.literal false t) []
  | .column c => sq.other (.column c) []
  | .table d n => sq.other (.table d n) []
  | .node op args =>
      let values := sq.evalList args
      (sq.operator op values).getD (sq.other (.node op args) values)

def evalList (sq : Sqlite) : List Expr → List SqliteValue
  | [] => []
  | e :: es => sq.eval e :: sq.evalList es
end

section

variable (sq : Sqlite)

@[simp] theorem eval_string (t : String) : sq.eval (.string t) = .text t := rfl

@[simp] theorem evalList_nil : sq.evalList [] = [] := rfl

@[simp] theorem evalList_cons (e : Expr) (es : List Expr) :
    sq.evalList (e :: es) = sq.eval e :: sq.evalList es := rfl

/-- The value of a node whose operator is known. -/
theorem eval_node {op : Op} {args : List Expr} {v : SqliteValue}
    (h : sq.operator op (sq.evalList args) = some v) : sq.eval (.node op args) = v := by
  show (sq.operator op (sq.evalList args)).getD _ = v
  rw [h, Option.getD_some]

@[simp] theorem operator_paren (v : SqliteValue) : sq.operator .paren [v] = some v := rfl

@[simp] theorem operator_date (vs : List SqliteValue) :
    sq.operator .date vs = some (sq.date vs) := rfl

@[simp] theorem operator_sub (a b : Int) :
    sq.operator .sub [.int a, .int b] = some (.int (a - b)) := rfl

@[simp] theorem operator_mod (a b : Int) : sq.operator (.func "Mod") [.int a, .int b] =
    some (if b = 0 then .null else .int (a.tmod b)) := rfl

@[simp] theorem operator_neg (a : Int) : sq.operator (.func "Neg") [.int a] = some (.int (-a)) :=
  rfl

@[simp] theorem operator_cast_int (s : String) :
    sq.operator (.cast "INT") [.text s] = some (.int (castInt s)) := rfl

@[simp] theorem operator_cast_text (v : SqliteValue) :
    sq.operator (.cast "TEXT") [v] = some (.ofText v.text?) := rfl

@[simp] theorem operator_dpipe (s t : String) :
    sq.operator (.func "DPipe") [.text s, .text t] = some (.text (s ++ t)) := rfl

@[simp] theorem operator_min (s t : String) : sq.operator (.func "MIN") [.text s, .text t] =
    some (.text (if t < s then t else s)) := rfl

@[simp] theorem operator_min_null (v : SqliteValue) :
    sq.operator (.func "MIN") [v, .null] = some .null := by
  cases v <;> rfl

@[simp] theorem operator_strftime (format : String) (day : SqliteValue) :
    sq.operator (.func "STRFTIME") [.text format, day] = sq.strftime format day := by
  cases day <;> rfl

end

end Sqlite

/-- A day that SQLite's date functions work for. -/
structure Date.InSqlite (d : Date) : Prop where
  valid : d.Valid
  year : 0 ≤ d.year ∧ d.year ≤ 9999

/-- SQLite's documentation of its modifiers, on the days that its date functions work for. A number
may be written with its sign or without. -/
structure Sqlite.Documented (sq : Sqlite) : Prop where
  read : ∀ d : Date, d.InSqlite → sq.read d.isoformat = some d
  write : ∀ d : Date, d.InSqlite → sq.write d = some d.isoformat
  startOfDay : ∀ d : Date, d.InSqlite → sq.modify "start of day" d = some d
  startOfMonth : ∀ d : Date, d.InSqlite → sq.modify "start of month" d = some { d with day := 1 }
  startOfYear : ∀ d : Date, d.InSqlite → sq.modify "start of year" d = some ⟨d.year, 1, 1⟩
  /-- The month moves; a day that the target month does not have runs over into the next. -/
  months : ∀ (d e : Date) (n : Int) (t : String), d.InSqlite → e.InSqlite →
    t = toString n ∨ t = signed n → e.toOrdinal = Date.monthStart (d.index + n) + d.day →
      sq.modify (t ++ " months") d = some e
  days : ∀ (d e : Date) (n : Int) (t : String), d.InSqlite → e.InSqlite →
    t = toString n ∨ t = signed n → e.toOrdinal = d.toOrdinal + n →
      sq.modify (t ++ " days") d = some e
  /-- Forward to the next Sunday, or not at all on a Sunday. -/
  weekday0 : ∀ d e : Date, d.InSqlite → e.InSqlite → e.weekday = 6 → d.toOrdinal ≤ e.toOrdinal →
    e.toOrdinal < d.toOrdinal + 7 → sq.modify "weekday 0" d = some e

/-- A rewriting of a day's expression has the value `d'` where the day is `d`. -/
def EvaluatesTo (f : Expr → Expr) (d d' : Date) : Prop :=
  ∀ sq : Sqlite, sq.Documented → ∀ day : Expr, sq.eval day = .text d.isoformat →
    sq.eval (f day) = .text d'.isoformat

/-! ## Numbers in texts -/

theorem leadingNat_append {digits rest : List Char} (hdigits : ∀ c ∈ digits, c.isDigit = true)
    (hrest : ∀ c ∈ rest.head?, c.isDigit = false) :
    leadingNat (digits ++ rest) = Nat.ofDigitChars 10 digits 0 := by
  have htake : (digits ++ rest).takeWhile Char.isDigit = digits := by
    rw [List.takeWhile_append_of_pos hdigits]
    cases rest with
    | nil => simp
    | cons c cs =>
        have hc : c.isDigit = false := hrest c rfl
        rw [List.takeWhile_cons_of_neg (by simp [hc]), List.append_nil]
  rw [leadingNat, htake]

/-- A text that starts with digits is cast to their number. -/
theorem castInt_digits {s : String} {digits rest : List Char} (hs : s.toList = digits ++ rest)
    (hne : digits ≠ []) (hdigits : ∀ c ∈ digits, c.isDigit = true)
    (hrest : ∀ c ∈ rest.head?, c.isDigit = false) :
    castInt s = Nat.ofDigitChars 10 digits 0 := by
  have hvalue := leadingNat_append hdigits hrest
  obtain ⟨c, cs, rfl⟩ := List.exists_cons_of_ne_nil hne
  have hc : c.isDigit = true := hdigits c List.mem_cons_self
  have hspace : c.isWhitespace = false := by
    by_contra hspace
    rw [Bool.not_eq_false, Char.isWhitespace] at hspace
    simp only [Bool.or_eq_true, decide_eq_true_eq] at hspace
    rcases hspace with ((rfl | rfl) | rfl) | rfl <;> exact absurd hc (by decide)
  unfold castInt
  rw [hs, List.cons_append, List.dropWhile_cons_of_neg (by simp [hspace])]
  split
  next heq =>
    rw [(List.cons.inj heq).1] at hc
    exact absurd hc (by decide)
  next heq =>
    rw [(List.cons.inj heq).1] at hc
    exact absurd hc (by decide)
  next => rw [← List.cons_append, hvalue]

theorem castInt_padded {n : Int} (h : 0 ≤ n ∧ n < 100) : castInt (Date.padded 2 n) = n := by
  have hs : (Date.padded 2 n).toList = fixedDigits 2 n.toNat ++ [] := by
    rw [List.append_nil]
    exact toList_padded (by decide) (by omega)
  rw [castInt_digits hs (by simp [fixedDigits]) isDigit_fixedDigits (by simp),
    ofDigitChars_fixedDigits (by omega)]
  omega

/-- The digits of a number, after a sign or none, are cast to the number. -/
theorem castInt_modifier {n : Int} {t rest : String} (ht : t = toString n ∨ t = signed n)
    (hrest : ∀ c ∈ rest.toList.head?, c.isDigit = false) : castInt (t ++ rest) = n := by
  have hdigits : ∀ k : Nat, ∀ c ∈ Nat.toDigits 10 k, c.isDigit = true := fun k c hc =>
    Nat.isDigit_of_mem_toDigits (by decide) (by decide) hc
  have hvalue : ∀ k : Nat, Nat.ofDigitChars 10 (Nat.toDigits 10 k) 0 = k := fun k =>
    Nat.ofDigitChars_toDigits (by decide) (by decide)
  cases n with
  | ofNat k =>
      have hplain : (toString (Int.ofNat k)).toList = Nat.toDigits 10 k := Nat.toList_repr
      rcases ht with rfl | rfl
      · have hs : (toString (Int.ofNat k) ++ rest).toList = Nat.toDigits 10 k ++ rest.toList := by
          rw [String.toList_append, hplain]
        rw [castInt_digits hs Nat.toDigits_ne_nil (hdigits k) hrest, hvalue]
        rfl
      · have hs : (signed (Int.ofNat k) ++ rest).toList =
            '+' :: (Nat.toDigits 10 k ++ rest.toList) := by
          have hpos : 0 ≤ Int.ofNat k := Int.natCast_nonneg k
          rw [signed, if_pos hpos, String.toList_append]
          show ("+" ++ toString (Int.ofNat k)).toList ++ _ = _
          rw [String.toList_append, hplain]
          rfl
        rw [castInt, hs, List.dropWhile_cons_of_neg (by decide)]
        show ((leadingNat _ : Nat) : Int) = _
        rw [leadingNat_append (hdigits k) hrest, hvalue]
        rfl
  | negSucc k =>
      have hsigned : signed (Int.negSucc k) = toString (Int.negSucc k) :=
        if_neg (by simp)
      obtain rfl : t = toString (Int.negSucc k) := by
        rcases ht with rfl | rfl
        · rfl
        · exact hsigned
      have hs : (toString (Int.negSucc k) ++ rest).toList =
          '-' :: (Nat.toDigits 10 (k + 1) ++ rest.toList) := by
        rw [String.toList_append]
        show ("-" ++ toString (k + 1)).toList ++ _ = _
        have hplain : (toString (k + 1)).toList = Nat.toDigits 10 (k + 1) := Nat.toList_repr
        rw [String.toList_append, hplain]
        rfl
      rw [castInt, hs, List.dropWhile_cons_of_neg (by decide)]
      show -((leadingNat _ : Nat) : Int) = _
      rw [leadingNat_append (hdigits _) hrest, hvalue]
      rfl

/-! ## Values of the emitted expressions -/

section

variable {sq : Sqlite} {day : Expr} {d : Date}

/-- `DATE` of a day and modifiers. -/
theorem eval_date (hsq : sq.Documented) (hd : d.InSqlite) (hday : sq.eval day = .text d.isoformat)
    {args : List Expr} (modifiers : List String)
    (hargs : sq.evalList args = modifiers.map .text) :
    sq.eval (.node .date (day :: args)) =
      .ofText ((modifiers.foldlM (fun x m => sq.modify m x) d).bind sq.write) := by
  have htexts : ∀ ts : List String, (ts.map SqliteValue.text).mapM SqliteValue.text? = some ts := by
    intro ts
    induction ts with
    | nil => rfl
    | cons t ts ih => simp [SqliteValue.text?, ih]
  apply sq.eval_node
  rw [Sqlite.evalList_cons, hday, hargs, ← List.map_cons, Sqlite.operator_date, Sqlite.date]
  simp only [htexts (d.isoformat :: modifiers), Option.bind_eq_bind, Option.bind_some,
    hsq.read d hd]

/-- A modifier of a computed number. -/
theorem eval_sqliteModifier {amount : Expr} {n : Int} (h : sq.eval amount = .int n)
    (unit : String) :
    sq.eval (Dialect.sqliteModifier amount unit) = .text (toString n ++ (" " ++ unit)) := by
  have hcast : sq.eval (amount.cast "TEXT") = .text (toString n) := by
    apply sq.eval_node
    rw [Sqlite.evalList_cons, h]
    exact sq.operator_cast_text _
  apply sq.eval_node
  rw [Sqlite.evalList_cons, hcast]
  exact sq.operator_dpipe _ _

/-- The number that `STRFTIME` writes with two digits. -/
theorem eval_strftime (hsq : sq.Documented) (hd : d.InSqlite)
    (hday : sq.eval day = .text d.isoformat) :
    sq.eval ((Expr.call "STRFTIME" [.string "%d", day]).cast "INT") = .int d.day ∧
      sq.eval ((Expr.call "STRFTIME" [.string "%m", day]).cast "INT") = .int d.month := by
  have hmonth := hd.valid.month_pos
  have hmonth' := hd.valid.month_le
  have hpos := hd.valid.day_pos
  have hle := hd.valid.day_le
  have hlen := Date.daysInMonth_bounds d.year d.month
  have hday' : ((SqliteValue.text d.isoformat).text?.bind sq.read) = some d := hsq.read d hd
  have hcast : ∀ (format : String) (n : Int), 0 ≤ n ∧ n < 100 →
      sq.strftime format (.text d.isoformat) = some (.text (Date.padded 2 n)) →
      sq.eval ((Expr.call "STRFTIME" [.string format, day]).cast "INT") = .int n := by
    intro format n hn hformat
    have htext : sq.eval (Expr.call "STRFTIME" [.string format, day]) =
        .text (Date.padded 2 n) := by
      apply sq.eval_node
      rw [Sqlite.evalList_cons, Sqlite.evalList_cons, hday]
      exact (sq.operator_strftime _ _).trans hformat
    apply sq.eval_node
    rw [Sqlite.evalList_cons, htext, Sqlite.evalList_nil, sq.operator_cast_int, castInt_padded hn]
  constructor
  · apply hcast "%d" d.day (by omega)
    rw [Sqlite.strftime, if_pos rfl, hday']
    rfl
  · apply hcast "%m" d.month (by omega)
    rw [Sqlite.strftime, if_neg (by decide), if_pos rfl, hday']
    rfl

end

/-! ## Days by their ordinal -/

theorem Date.InRange.inSqlite {d : Date} (hd : d.Valid) (h : d.InRange) : d.InSqlite :=
  ⟨hd, by have := h.1; omega, h.2⟩

/-- The first of a day's month. -/
theorem Date.InSqlite.first {d : Date} (hd : d.InSqlite) {m : Int} (hm : 1 ≤ m ∧ m ≤ 12) :
    Date.InSqlite ⟨d.year, m, 1⟩ := by
  have hlen := Date.daysInMonth_bounds d.year m
  exact ⟨⟨hm.1, hm.2, le_refl _, show 1 ≤ Date.daysInMonth d.year m by omega⟩, hd.year⟩

/-- The day of a month, when the month is one of the years from 1 to 9999. -/
theorem exists_dayOfMonth {i k : Int} (hi : 12 ≤ i ∧ i < 120000)
    (hk : 1 ≤ k ∧ k ≤ Date.monthLength i) :
    Date.InSqlite ⟨i / 12, i % 12 + 1, k⟩ ∧ Date.InRange ⟨i / 12, i % 12 + 1, k⟩ ∧
      Date.toOrdinal ⟨i / 12, i % 12 + 1, k⟩ = Date.monthStart i + k := by
  obtain ⟨hvalid, hindex⟩ := Date.valid_of_index i k hk.1 hk.2
  have hrange : Date.InRange ⟨i / 12, i % 12 + 1, k⟩ := by
    show 1 ≤ i / 12 ∧ i / 12 ≤ 9999
    omega
  refine ⟨hrange.inSqlite hvalid, hrange, ?_⟩
  rw [hvalid.toOrdinal_eq, hindex]

/-- The day of an ordinal of the years from 1 to 9999. -/
theorem exists_dayOfOrdinal {n : Int} (hn : 1 ≤ n ∧ n ≤ 3652059) :
    ∃ e : Date, e.InSqlite ∧ e.InRange ∧ e.toOrdinal = n := by
  obtain ⟨hvalid, hordinal⟩ := Date.ofOrdinal_spec n
  have hrange : (Date.ofOrdinal n).InRange :=
    Date.inRange_of_ordinal hvalid (by omega) (by omega)
  exact ⟨Date.ofOrdinal n, hrange.inSqlite hvalid, hrange, hordinal⟩

/-- The texts of days are ordered as their ordinals are. -/
theorem isoformat_lt_iff {d e : Date} (hd : d.InSqlite) (hd' : d.InRange) (he : e.InSqlite)
    (he' : e.InRange) : d.isoformat < e.isoformat ↔ d.toOrdinal < e.toOrdinal := by
  have hlt : ∀ {a b : Date}, a.InSqlite → a.InRange → b.InSqlite → b.InRange →
      a.toOrdinal < b.toOrdinal → a.isoformat < b.isoformat := by
    intro a b ha ha' hb hb' hab
    have hday : a < b := (Date.lt_iff_toOrdinal ha.valid hb.valid).mpr hab
    have := Date.isoformat_append_lt ha.valid hb.valid ha' hb' hday "" ""
    rwa [String.append_empty, String.append_empty] at this
  refine ⟨fun h => ?_, hlt hd hd' he he'⟩
  by_contra hle
  rcases lt_or_eq_of_le (not_lt.mp hle) with hgt | heq
  · exact lt_asymm h (hlt he he' hd hd' hgt)
  · rw [eq_of_toOrdinal he.valid hd.valid heq] at h
    exact lt_irrefl _ h

/-! ## Steps -/

section

variable {sq : Sqlite} {day : Expr} {d : Date}

/-- The first of the month `n` months from a day's. -/
theorem modify_months_first (hsq : sq.Documented) (hd : d.InSqlite) {n : Int} {t : String}
    (ht : t = toString n ∨ t = signed n) (hi : 12 ≤ d.index + n ∧ d.index + n < 120000) :
    (sq.modify "start of month" d).bind (sq.modify (t ++ " months")) =
      some ⟨(d.index + n) / 12, (d.index + n) % 12 + 1, 1⟩ := by
  have hlen := Date.monthLength_bounds (d.index + n)
  obtain ⟨hin, -, hordinal⟩ := exists_dayOfMonth hi ⟨le_refl 1, by omega⟩
  have hfirst := hd.first ⟨hd.valid.month_pos, hd.valid.month_le⟩
  rw [hsq.startOfMonth d hd, Option.bind_some]
  exact hsq.months ⟨d.year, d.month, 1⟩ _ n t hfirst hin ht hordinal

/-- **A month step is clamped to the end of its month.** -/
theorem eval_sqliteMonths (hsq : sq.Documented) (hd : d.InSqlite)
    (hday : sq.eval day = .text d.isoformat) {n : Int}
    (hi : 12 ≤ d.index + n ∧ d.index + n < 119999) :
    sq.eval (Dialect.sqliteMonths day n) =
      .text (Date.isoformat ⟨(d.index + n) / 12, (d.index + n) % 12 + 1,
        min d.day (Date.monthLength (d.index + n))⟩) := by
  generalize hindex : d.index + n = i at hi
  have hpos := hd.valid.day_pos
  have hday31 : d.day ≤ 31 := le_trans hd.valid.day_le (Date.daysInMonth_bounds _ _).2
  have hlen := Date.monthLength_bounds i
  have hlow : Date.monthStart 12 + 28 * (i - 12) ≤ Date.monthStart i :=
    Date.monthStart_add_le hi.1
  have hhigh : Date.monthStart (i + 1) + 28 * (119999 - (i + 1)) ≤ Date.monthStart 119999 :=
    Date.monthStart_add_le (by omega)
  have hzero : Date.monthStart 12 = 0 := rfl
  have hlast : Date.monthStart 119999 = 3652028 := by decide
  have hnext := Date.monthStart_succ i
  -- the day of the month, counted from the first of the target month
  obtain ⟨e, he, he', hordinal⟩ := @exists_dayOfOrdinal (Date.monthStart i + d.day) (by omega)
  obtain ⟨hfirst, -, hfirstOrdinal⟩ := @exists_dayOfMonth i 1 (by omega) (by omega)
  obtain ⟨hover, -, hoverOrdinal⟩ := @exists_dayOfMonth (i + 1) 1 (by omega)
    ⟨le_refl 1, by have := Date.monthLength_bounds (i + 1); omega⟩
  obtain ⟨hend, hend', hendOrdinal⟩ := @exists_dayOfMonth i (Date.monthLength i) (by omega)
    (by omega)
  obtain ⟨htarget, -, htargetOrdinal⟩ := @exists_dayOfMonth i (min d.day (Date.monthLength i))
    (by omega) (by omega)
  have hdays : sq.eval (.node .sub [(Expr.call "STRFTIME" [.string "%d", day]).cast "INT",
      .number "1"]) = .int (d.day - 1) := by
    apply sq.eval_node
    rw [Sqlite.evalList_cons, (eval_strftime hsq hd hday).1]
    rfl
  have hshifted : sq.eval (.node .date [day, .string "start of month",
      .string s!"{signed n} months", Dialect.sqliteModifier (.node .sub
        [(Expr.call "STRFTIME" [.string "%d", day]).cast "INT", .number "1"]) "days"]) =
      .text e.isoformat := by
    have hmoved := modify_months_first hsq hd (Or.inr rfl) (n := n) (by omega)
    rw [hindex] at hmoved
    rw [eval_date hsq hd hday ["start of month", signed n ++ " months",
      toString (d.day - 1) ++ " days"]]
    · show SqliteValue.ofText (((sq.modify "start of month" d).bind fun x =>
        (sq.modify (signed n ++ " months") x).bind fun y =>
          (sq.modify (toString (d.day - 1) ++ " days") y).bind some).bind sq.write) = _
      rw [← Option.bind_assoc, hmoved, Option.bind_some,
        hsq.days _ e (d.day - 1) _ hfirst he (Or.inl rfl) (by omega), Option.bind_some,
        Option.bind_some, hsq.write e he]
      rfl
    · rw [Sqlite.evalList_cons, Sqlite.evalList_cons, Sqlite.evalList_cons,
        eval_sqliteModifier hdays]
      rfl
  have hmonthEnd : sq.eval (.node .date [day, .string "start of month",
      .string s!"{signed (n + 1)} months", .string "-1 days"]) =
      .text (Date.isoformat ⟨i / 12, i % 12 + 1, Date.monthLength i⟩) := by
    have hmoved := modify_months_first hsq hd (Or.inr rfl) (n := n + 1) (by omega)
    rw [show d.index + (n + 1) = i + 1 by omega] at hmoved
    rw [eval_date hsq hd hday ["start of month", signed (n + 1) ++ " months",
      toString (-1 : Int) ++ " days"]]
    · show SqliteValue.ofText (((sq.modify "start of month" d).bind fun x =>
        (sq.modify (signed (n + 1) ++ " months") x).bind fun y =>
          (sq.modify (toString (-1 : Int) ++ " days") y).bind some).bind sq.write) = _
      rw [← Option.bind_assoc, hmoved, Option.bind_some,
        hsq.days _ _ (-1) _ hover hend (Or.inl rfl) (by omega), Option.bind_some,
        Option.bind_some, hsq.write _ hend]
      rfl
    · rfl
  have hmin : sq.eval (Dialect.sqliteMonths day n) = .text (if
      Date.isoformat ⟨i / 12, i % 12 + 1, Date.monthLength i⟩ < e.isoformat then
        Date.isoformat ⟨i / 12, i % 12 + 1, Date.monthLength i⟩ else e.isoformat) := by
    apply sq.eval_node
    rw [Sqlite.evalList_cons, hshifted, Sqlite.evalList_cons, hmonthEnd]
    exact sq.operator_min _ _
  have hlt := isoformat_lt_iff hend hend' he he'
  rw [hendOrdinal, hordinal] at hlt
  rw [hmin]
  -- the month has the day, or the day before the next month is earlier
  by_cases hclamp : Date.monthLength i < d.day
  · rw [if_pos (hlt.mpr (by omega)), min_eq_right (by omega)]
  · rw [if_neg (fun h => hclamp (by have := hlt.mp h; omega)), min_eq_left (by omega)]
    rw [min_eq_left (by omega)] at htarget htargetOrdinal
    rw [eq_of_toOrdinal he.valid htarget.valid (hordinal.trans htargetOrdinal.symm)]

/-- One modifier. -/
theorem eval_date_one (hsq : sq.Documented) (hd : d.InSqlite)
    (hday : sq.eval day = .text d.isoformat) {m : String} {e : Date} (he : e.InSqlite)
    (hm : sq.modify m d = some e) :
    sq.eval (.node .date [day, .string m]) = .text e.isoformat := by
  rw [eval_date hsq hd hday [m] rfl]
  show SqliteValue.ofText (((sq.modify m d).bind some).bind sq.write) = _
  rw [hm, Option.bind_some, Option.bind_some, hsq.write e he]
  rfl

/-- Two modifiers, one after the other. -/
theorem eval_date_two (hsq : sq.Documented) (hd : d.InSqlite)
    (hday : sq.eval day = .text d.isoformat) {args : List Expr} (m m' : String) {e : Date}
    (he : e.InSqlite) (hargs : sq.evalList args = [.text m, .text m'])
    (hm : (sq.modify m d).bind (sq.modify m') = some e) :
    sq.eval (.node .date (day :: args)) = .text e.isoformat := by
  rw [eval_date hsq hd hday [m, m'] hargs]
  show SqliteValue.ofText (((sq.modify m d).bind fun x => (sq.modify m' x).bind some).bind
    sq.write) = _
  rw [← Option.bind_assoc, hm, Option.bind_some, Option.bind_some, hsq.write e he]
  rfl

/-- A step by months is one, by its number of months. -/
theorem dateAdd_months {o : Duration} {k : Nat} (hk : o.months = some k) (sign : Int) :
    Dialect.sqlite.dateAdd day (sign * o.count) o.unit = Dialect.sqliteMonths day (sign * k) := by
  obtain ⟨count, unit, hpos⟩ := o
  cases unit with
  | minute => cases hk
  | hour => cases hk
  | day => cases hk
  | week => cases hk
  | month =>
      obtain rfl : 1 * count = k := Option.some.inj hk
      rw [Nat.one_mul]
      rfl
  | quarter =>
      obtain rfl : 3 * count = k := Option.some.inj hk
      have hstep : sign * ((3 * count : Nat) : Int) = 3 * (sign * count) := by
        push_cast
        ring
      rw [hstep]
      rfl
  | year =>
      obtain rfl : 12 * count = k := Option.some.inj hk
      have hstep : sign * ((12 * count : Nat) : Int) = 12 * (sign * count) := by
        push_cast
        ring
      rw [hstep]
      rfl

/-- A step by days is one, by its number of days. -/
theorem dateAdd_days {o : Duration} {k : Nat} (hk : o.days = some k) (sign : Int) :
    Dialect.sqlite.dateAdd day (sign * o.count) o.unit =
      .node .date [day, .string (signed (sign * k) ++ " days")] := by
  obtain ⟨count, unit, hpos⟩ := o
  cases unit with
  | day =>
      obtain rfl : count = k := Option.some.inj hk
      rfl
  | week =>
      obtain rfl : 7 * count = k := Option.some.inj hk
      have hstep : sign * ((7 * count : Nat) : Int) = 7 * (sign * count) := by
        push_cast
        ring
      rw [hstep]
      rfl
  | minute => cases hk
  | hour => cases hk
  | month => cases hk
  | quarter => cases hk
  | year => cases hk

/-- **A step of `date_add`**, unless it ends in the last month. -/
theorem eval_sqliteDateAdd (hsq : sq.Documented) (hd : d.InSqlite)
    (hday : sq.eval day = .text d.isoformat) {o : Duration} {sign : Int} {d' : Date}
    (h : addToDate d o sign = .ok d')
    (hlast : ∀ k, o.months = some k → d.index + sign * k ≠ 119999) :
    sq.eval (Dialect.sqlite.dateAdd day (sign * o.count) o.unit) = .text d'.isoformat := by
  cases hmonths : o.months with
  | some k =>
      simp only [addToDate, hmonths] at h
      obtain ⟨rfl, hlow, hhigh⟩ := Date.checked_eq_ok h
      have hne := hlast k hmonths
      have hyear : 1 ≤ (d.index + sign * k) / 12 ∧ (d.index + sign * k) / 12 ≤ 9999 :=
        ⟨hlow, hhigh⟩
      rw [dateAdd_months hmonths]
      exact eval_sqliteMonths hsq hd hday (by omega)
  | none =>
      cases hdays : o.days with
      | some k =>
          simp only [addToDate, hmonths, hdays] at h
          obtain ⟨hvalid, hordinal, hyear⟩ := Date.addDays_eq_ok h
          have hd' : d'.InSqlite := Date.InRange.inSqlite hvalid hyear
          rw [dateAdd_days hdays]
          exact eval_date_one hsq hd hday hd'
            (hsq.days d d' (sign * k) _ hd hd' (Or.inr rfl) hordinal)
      | none =>
          simp only [addToDate, hmonths, hdays] at h
          cases h

/-- The first month of a quarter is as many months back as `STRFTIME` counts. -/
theorem eval_sqliteQuarter (hsq : sq.Documented) (hd : d.InSqlite)
    (hday : sq.eval day = .text d.isoformat) :
    sq.eval (Dialect.sqliteQuarter day) =
      .text (Date.isoformat ⟨d.year, 3 * ((d.month - 1) / 3) + 1, 1⟩) := by
  have hmonth := hd.valid.month_pos
  have hmonth' := hd.valid.month_le
  -- a month is at least one, so the remainder of SQLite is the arithmetic one
  have hback : (d.month - 1).tmod 3 = (d.month - 1) % 3 :=
    Int.tmod_eq_emod_of_nonneg (by omega)
  have hmod : sq.eval (Expr.call "Mod" [.node .paren [.node .sub
      [(Expr.call "STRFTIME" [.string "%m", day]).cast "INT", .number "1"]], .number "3"]) =
      .int ((d.month - 1) % 3) := by
    have hsub : sq.eval (.node .sub [(Expr.call "STRFTIME" [.string "%m", day]).cast "INT",
        .number "1"]) = .int (d.month - 1) := by
      apply sq.eval_node
      rw [Sqlite.evalList_cons, (eval_strftime hsq hd hday).2]
      rfl
    have hparen : sq.eval (.node .paren [.node .sub
        [(Expr.call "STRFTIME" [.string "%m", day]).cast "INT", .number "1"]]) =
        .int (d.month - 1) := by
      apply sq.eval_node
      rw [Sqlite.evalList_cons, hsub]
      rfl
    apply sq.eval_node
    rw [Sqlite.evalList_cons, hparen, ← hback]
    exact sq.operator_mod _ _
  have hneg : sq.eval (.call "Neg" [.node .paren [Expr.call "Mod" [.node .paren [.node .sub
      [(Expr.call "STRFTIME" [.string "%m", day]).cast "INT", .number "1"]], .number "3"]]]) =
      .int (-((d.month - 1) % 3)) := by
    apply sq.eval_node
    have hparen : sq.eval (.node .paren [Expr.call "Mod" [.node .paren [.node .sub
        [(Expr.call "STRFTIME" [.string "%m", day]).cast "INT", .number "1"]], .number "3"]]) =
        .int ((d.month - 1) % 3) := by
      apply sq.eval_node
      rw [Sqlite.evalList_cons, hmod]
      rfl
    rw [Sqlite.evalList_cons, hparen]
    exact sq.operator_neg _
  have hfirst := hd.first ⟨hmonth, hmonth'⟩
  have hin := @Date.InSqlite.first d hd (3 * ((d.month - 1) / 3) + 1) (by omega)
  -- the first month of the quarter is as many months back as the remainder says
  have hindex : Date.index ⟨d.year, 3 * ((d.month - 1) / 3) + 1, 1⟩ =
      d.index + -((d.month - 1) % 3) := by
    simp only [Date.index]
    omega
  refine eval_date_two hsq hd hday "start of month" (toString (-((d.month - 1) % 3)) ++ " months")
    hin ?_ ?_
  · rw [Sqlite.evalList_cons, Sqlite.evalList_cons, eval_sqliteModifier hneg]
    rfl
  · rw [hsq.startOfMonth d hd, Option.bind_some]
    refine hsq.months ⟨d.year, d.month, 1⟩ _ _ _ hfirst hin (Or.inl rfl) ?_
    rw [hin.valid.toOrdinal_eq, hindex]
    rfl

/-- **A rewritten `DATE_TRUNC`**, of a week unless its Sunday is after the last day. -/
theorem eval_dateTrunc (hsq : sq.Documented) (hd : d.InSqlite)
    (hday : sq.eval day = .text d.isoformat) {u : DurationUnit} {d' : Date}
    (h : floorDate d u = .ok d')
    (hlast : u = .week → d.toOrdinal - d.weekday + 6 ≤ 3652059) :
    sq.eval (Dialect.rewriteDateTruncForSqlite (.call "DATE_TRUNC" [.string u.value, day])) =
      .text d'.isoformat := by
  cases u with
  | minute => cases h
  | hour => cases h
  | day =>
      obtain rfl : d = d' := Except.ok.inj h
      exact eval_date_one hsq hd hday hd (hsq.startOfDay d hd)
  | week =>
      obtain ⟨hvalid, hordinal, hyear⟩ := Date.addDays_eq_ok h
      have hweekday : 0 ≤ d.weekday ∧ d.weekday < 7 := by
        unfold Date.weekday
        omega
      have hpos := hvalid.year_pos_iff.mp hyear.1
      have hd' : d'.InSqlite := Date.InRange.inSqlite hvalid hyear
      -- the Sunday of the week
      obtain ⟨e, he, -, heOrdinal⟩ := @exists_dayOfOrdinal (d.toOrdinal - d.weekday + 6)
        ⟨by omega, hlast rfl⟩
      have hsunday : e.weekday = 6 := by
        unfold Date.weekday at heOrdinal ⊢
        omega
      refine eval_date_two hsq hd hday "weekday 0" (toString (-6 : Int) ++ " days") hd' rfl ?_
      rw [hsq.weekday0 d e hd he hsunday (by omega) (by omega), Option.bind_some]
      exact hsq.days e d' (-6) _ he hd' (Or.inl rfl) (by omega)
  | month =>
      obtain rfl : { d with day := 1 } = d' := Except.ok.inj h
      exact eval_date_one hsq hd hday (hd.first ⟨hd.valid.month_pos, hd.valid.month_le⟩)
        (hsq.startOfMonth d hd)
  | quarter =>
      obtain rfl : (⟨d.year, 3 * ((d.month - 1) / 3) + 1, 1⟩ : Date) = d' := Except.ok.inj h
      exact eval_sqliteQuarter hsq hd hday
  | year =>
      obtain rfl : (⟨d.year, 1, 1⟩ : Date) = d' := Except.ok.inj h
      exact eval_date_one hsq hd hday (hd.first (by decide)) (hsq.startOfYear d hd)

end

/-! ## An SQLite whose days end with the year 9999 -/

theorem Date.inSqlite_iff {d : Date} : d.InSqlite ↔ (1 ≤ d.month ∧ d.month ≤ 12) ∧
    (1 ≤ d.day ∧ d.day ≤ Date.daysInMonth d.year d.month) ∧ 0 ≤ d.year ∧ d.year ≤ 9999 := by
  constructor
  · rintro ⟨⟨h1, h2, h3, h4⟩, hyear⟩
    exact ⟨⟨h1, h2⟩, ⟨h3, h4⟩, hyear⟩
  · rintro ⟨⟨h1, h2⟩, ⟨h3, h4⟩, hyear⟩
    exact ⟨⟨h1, h2, h3, h4⟩, hyear⟩

instance (d : Date) : Decidable d.InSqlite := decidable_of_iff _ Date.inSqlite_iff.symm

/-- A day, where SQLite has it. -/
def Date.kept (d : Date) : Option Date := if d.InSqlite then some d else none

/-- A modifier of `DATE()`, without a result where the day is after the year 9999. -/
def boundedModify (m : String) (d : Date) : Option Date :=
  if " months".toList.isSuffixOf m.toList then
    (Date.ofOrdinal (Date.monthStart (d.index + castInt m) + d.day)).kept
  else if " days".toList.isSuffixOf m.toList then
    (Date.ofOrdinal (d.toOrdinal + castInt m)).kept
  else if m = "start of day" then some d
  else if m = "start of month" then some { d with day := 1 }
  else if m = "start of year" then some ⟨d.year, 1, 1⟩
  else if m = "weekday 0" then (Date.ofOrdinal (d.toOrdinal + (6 - d.weekday))).kept
  else none

/-- The number of digits. -/
def digitsNumber (cs : List Char) : Int := Nat.ofDigitChars 10 cs 0

/-- The day that a text spells. -/
def boundedRead (t : String) : Option Date :=
  Date.kept ⟨digitsNumber (t.toList.take 4), digitsNumber ((t.toList.drop 5).take 2),
    digitsNumber (t.toList.drop 8)⟩

/-- The SQLite that gives `NULL` for a day after the year 9999, also in the middle of a chain. -/
def Sqlite.bounded : Sqlite where
  read := boundedRead
  modify := boundedModify
  write d := d.kept.map Date.isoformat
  other _ _ := .null

theorem kept_ofOrdinal {e : Date} (he : e.InSqlite) {n : Int} (h : e.toOrdinal = n) :
    (Date.ofOrdinal n).kept = some e := by
  obtain ⟨hvalid, hordinal⟩ := Date.ofOrdinal_spec n
  rw [eq_of_toOrdinal hvalid he.valid (hordinal.trans h.symm)]
  exact if_pos he

/-- A day after the last is not kept. -/
theorem kept_ofOrdinal_late {n : Int} (h : 3652059 < n) : (Date.ofOrdinal n).kept = none := by
  obtain ⟨hvalid, hordinal⟩ := Date.ofOrdinal_spec n
  refine if_neg fun hin => ?_
  have hrange : (Date.ofOrdinal n).InRange :=
    ⟨hvalid.year_pos_iff.mpr (by omega), hin.year.2⟩
  have := (Date.ordinal_bounds hvalid hrange).2
  omega

theorem boundedModify_months (d : Date) {n : Int} {t : String}
    (ht : t = toString n ∨ t = signed n) : boundedModify (t ++ " months") d =
      (Date.ofOrdinal (Date.monthStart (d.index + n) + d.day)).kept := by
  have hsuffix : " months".toList.isSuffixOf (t ++ " months").toList = true := by
    rw [String.toList_append, List.isSuffixOf_iff_suffix]
    exact List.suffix_append _ _
  rw [boundedModify, if_pos hsuffix, castInt_modifier ht (by simp)]

theorem boundedModify_days (d : Date) {n : Int} {t : String} (ht : t = toString n ∨ t = signed n) :
    boundedModify (t ++ " days") d = (Date.ofOrdinal (d.toOrdinal + n)).kept := by
  have hdays : " days".toList <:+ (t ++ " days").toList := by
    rw [String.toList_append]
    exact List.suffix_append _ _
  have hmonths : ¬ " months".toList.isSuffixOf (t ++ " days").toList = true := by
    rw [List.isSuffixOf_iff_suffix]
    intro hmonths
    exact absurd (List.suffix_of_suffix_length_le hdays hmonths (by decide)) (by decide)
  rw [boundedModify, if_neg hmonths, if_pos (List.isSuffixOf_iff_suffix.mpr hdays),
    castInt_modifier ht (by simp)]

theorem boundedModify_start (d : Date) : boundedModify "start of day" d = some d ∧
    boundedModify "start of month" d = some { d with day := 1 } ∧
    boundedModify "start of year" d = some ⟨d.year, 1, 1⟩ := by
  refine ⟨?_, ?_, ?_⟩
  · rw [boundedModify, if_neg (by decide), if_neg (by decide), if_pos rfl]
  · rw [boundedModify, if_neg (by decide), if_neg (by decide), if_neg (by decide), if_pos rfl]
  · rw [boundedModify, if_neg (by decide), if_neg (by decide), if_neg (by decide),
      if_neg (by decide), if_pos rfl]

theorem boundedModify_weekday (d : Date) : boundedModify "weekday 0" d =
    (Date.ofOrdinal (d.toOrdinal + (6 - d.weekday))).kept := by
  rw [boundedModify, if_neg (by decide), if_neg (by decide), if_neg (by decide),
    if_neg (by decide), if_neg (by decide), if_pos rfl]

theorem boundedRead_isoformat {d : Date} (hd : d.InSqlite) :
    boundedRead d.isoformat = some d := by
  have hmonth := hd.valid.month_le
  have hday := hd.valid.day_le
  have hlen := Date.daysInMonth_bounds d.year d.month
  have hyear := hd.year
  have hmonth' := hd.valid.month_pos
  have hday' := hd.valid.day_pos
  have htext : d.isoformat.toList = fixedDigits 4 d.year.toNat ++
      ('-' :: (fixedDigits 2 d.month.toNat ++ '-' :: fixedDigits 2 d.day.toNat)) := by
    rw [Date.isoformat]
    simp only [String.toList_append]
    rw [toList_padded (by decide) (by omega), toList_padded (by decide) (by omega),
      toList_padded (by decide) (by omega)]
    simp
  have hnumber : ∀ (width : Nat) (n : Int), 0 ≤ n → n.toNat < 10 ^ width →
      digitsNumber (fixedDigits width n.toNat) = n := by
    intro width n hn hlt
    rw [digitsNumber, ofDigitChars_fixedDigits hlt]
    omega
  have hparts : d.isoformat.toList.take 4 = fixedDigits 4 d.year.toNat ∧
      (d.isoformat.toList.drop 5).take 2 = fixedDigits 2 d.month.toNat ∧
      d.isoformat.toList.drop 8 = fixedDigits 2 d.day.toNat := by
    rw [htext]
    simp [fixedDigits]
  rw [boundedRead, hparts.1, hparts.2.1, hparts.2.2, hnumber 4 d.year hyear.1 (by omega),
    hnumber 2 d.month (by omega) (by omega), hnumber 2 d.day (by omega) (by omega)]
  exact if_pos hd

theorem bounded_read : Sqlite.bounded.read = boundedRead := rfl

theorem bounded_modify : Sqlite.bounded.modify = boundedModify := rfl

theorem documented_bounded : Sqlite.bounded.Documented where
  read d hd := by
    rw [bounded_read, boundedRead_isoformat hd]
  write d hd := by
    show d.kept.map _ = _
    rw [Date.kept, if_pos hd]
    rfl
  startOfDay d _ := by
    rw [bounded_modify]
    exact (boundedModify_start d).1
  startOfMonth d _ := by
    rw [bounded_modify]
    exact (boundedModify_start d).2.1
  startOfYear d _ := by
    rw [bounded_modify]
    exact (boundedModify_start d).2.2
  months d e n t hd he ht hordinal := by
    rw [bounded_modify, boundedModify_months d ht, kept_ofOrdinal he hordinal]
  days d e n t hd he ht hordinal := by
    rw [bounded_modify, boundedModify_days d ht, kept_ofOrdinal he hordinal]
  weekday0 d e hd he hsunday hle hlt := by
    rw [bounded_modify, boundedModify_weekday]
    refine kept_ofOrdinal he ?_
    unfold Date.weekday at hsunday ⊢
    omega

/-- A step that ends in the last month has no value there: its end is looked for on the day
after. -/
theorem bounded_sqliteMonths {d : Date} (hd : d.InSqlite) {day : Expr}
    (hday : Sqlite.bounded.eval day = .text d.isoformat) {n : Int} (hlast : d.index + n = 119999) :
    Sqlite.bounded.eval (Dialect.sqliteMonths day n) = .null := by
  have hend : Sqlite.bounded.eval (.node .date [day, .string "start of month",
      .string s!"{signed (n + 1)} months", .string "-1 days"]) = .null := by
    rw [eval_date documented_bounded hd hday ["start of month", signed (n + 1) ++ " months",
      toString (-1 : Int) ++ " days"] rfl]
    show SqliteValue.ofText (((Sqlite.bounded.modify "start of month" d).bind fun x =>
      (boundedModify (signed (n + 1) ++ " months") x).bind _).bind _) = _
    have hindex : Date.index ⟨d.year, d.month, 1⟩ + (n + 1) = 120000 := by
      show d.index + (n + 1) = _
      omega
    rw [documented_bounded.startOfMonth d hd, Option.bind_some,
      boundedModify_months _ (Or.inr rfl), hindex]
    have hfirst : Date.monthStart 120000 + 1 = 3652060 := by decide
    rw [show Date.monthStart 120000 + (⟨d.year, d.month, 1⟩ : Date).day = 3652060 from hfirst,
      kept_ofOrdinal_late (by decide)]
    rfl
  apply Sqlite.bounded.eval_node
  rw [Sqlite.evalList_cons, Sqlite.evalList_cons, hend]
  exact Sqlite.bounded.operator_min_null _

/-- A week whose Sunday is after the last day has no value there. -/
theorem bounded_week {d : Date} (hd : d.InSqlite) {day : Expr}
    (hday : Sqlite.bounded.eval day = .text d.isoformat)
    (hlast : 3652059 < d.toOrdinal - d.weekday + 6) :
    Sqlite.bounded.eval (.node .date [day, .string "weekday 0", .string "-6 days"]) = .null := by
  rw [eval_date documented_bounded hd hday ["weekday 0", "-6 days"] rfl]
  show SqliteValue.ofText (((boundedModify "weekday 0" d).bind _).bind _) = _
  rw [boundedModify_weekday, kept_ofOrdinal_late (by omega)]
  rfl

/-! ## Agreement -/

/-- **SQLite's dates are Python's exactly when no modifier leads past the year 9999.** A step of
`date_add` does unless it is by months and its target is the last month; a rewritten `DATE_TRUNC`
does except to the week in the last five days. -/
theorem sqliteCalendar_iff {d : Date} (hd : d.InSqlite) :
    (∀ (o : Duration) (sign : Int) (d' : Date), addToDate d o sign = .ok d' →
      (EvaluatesTo (fun day => Dialect.sqlite.dateAdd day (sign * o.count) o.unit) d d' ↔
        ∀ k : Nat, o.months = some k → d.index + sign * k ≠ Date.index ⟨9999, 12, 1⟩)) ∧
    ∀ (u : DurationUnit) (d' : Date), floorDate d u = .ok d' →
      (EvaluatesTo (fun day =>
          Dialect.rewriteDateTruncForSqlite (.call "DATE_TRUNC" [.string u.value, day])) d d' ↔
        (u = .week → d < ⟨9999, 12, 27⟩)) := by
  have hday : Sqlite.bounded.eval (.string d.isoformat) = .text d.isoformat := rfl
  constructor
  · intro o sign d' h
    show _ ↔ ∀ k : Nat, o.months = some k → d.index + sign * k ≠ 119999
    constructor
    · intro hagree k hk hlast
      have hvalue : Sqlite.bounded.eval (Dialect.sqlite.dateAdd (.string d.isoformat)
          (sign * o.count) o.unit) = _ := hagree Sqlite.bounded documented_bounded _ hday
      rw [dateAdd_months hk, bounded_sqliteMonths hd hday hlast] at hvalue
      cases hvalue
    · intro hlast sq hsq day hday
      exact eval_sqliteDateAdd hsq hd hday h hlast
  · intro u d' h
    have hmonday : Date.Valid ⟨9999, 12, 27⟩ := ⟨by decide, by decide, by decide, by decide⟩
    have hordinal : Date.toOrdinal ⟨9999, 12, 27⟩ = 3652055 := by decide
    have hsunday : d < ⟨9999, 12, 27⟩ ↔ d.toOrdinal - d.weekday + 6 ≤ 3652059 := by
      rw [Date.lt_iff_toOrdinal hd.valid hmonday, hordinal]
      unfold Date.weekday
      omega
    constructor
    · rintro hagree rfl
      have hvalue : Sqlite.bounded.eval (.node .date [.string d.isoformat, .string "weekday 0",
          .string "-6 days"]) = _ := hagree Sqlite.bounded documented_bounded _ hday
      rw [hsunday]
      by_contra hlate
      rw [bounded_week hd hday (by omega)] at hvalue
      cases hvalue
    · intro hlast sq hsq day hday
      exact eval_dateTrunc hsq hd hday h fun hu => hsunday.mp (hlast hu)

/-- The end of January, a month later, and the first of its quarter. -/
theorem sqliteCalendar_february :
    EvaluatesTo (fun day => Dialect.sqlite.dateAdd day (1 * (1 : Nat)) .month) ⟨2024, 1, 31⟩
        ⟨2024, 2, 29⟩ ∧
      EvaluatesTo (fun day =>
        Dialect.rewriteDateTruncForSqlite (.call "DATE_TRUNC" [.string "quarter", day]))
        ⟨2024, 1, 31⟩ ⟨2024, 1, 1⟩ := by
  have hd : Date.InSqlite ⟨2024, 1, 31⟩ := by decide
  have h := sqliteCalendar_iff hd
  constructor
  · apply (h.1 ⟨1, .month, by decide⟩ 1 ⟨2024, 2, 29⟩ (by decide)).mpr
    rintro k hk
    obtain rfl : 1 = k := Option.some.inj hk
    decide
  · exact (h.2 .quarter ⟨2024, 1, 1⟩ (by decide)).mpr fun hu => by cases hu

/-- A month after 15 November 9999 is 15 December, which SQLite has and the expression does not. -/
theorem sqliteCalendar_counterexample :
    ¬ ∀ d : Date, d.InSqlite → (∀ (o : Duration) (sign : Int) (d' : Date),
        addToDate d o sign = .ok d' →
          EvaluatesTo (fun day => Dialect.sqlite.dateAdd day (sign * o.count) o.unit) d d') ∧
      ∀ (u : DurationUnit) (d' : Date), floorDate d u = .ok d' →
        EvaluatesTo (fun day =>
          Dialect.rewriteDateTruncForSqlite (.call "DATE_TRUNC" [.string u.value, day])) d d' := by
  intro h
  have hd : Date.InSqlite ⟨9999, 11, 15⟩ := by decide
  have hagree := (h ⟨9999, 11, 15⟩ hd).1 ⟨1, .month, by decide⟩ 1 ⟨9999, 12, 15⟩ (by decide)
  have hday : Sqlite.bounded.eval (.string (Date.isoformat ⟨9999, 11, 15⟩)) =
      .text (Date.isoformat ⟨9999, 11, 15⟩) := rfl
  have hvalue : Sqlite.bounded.eval (Dialect.sqliteMonths
      (.string (Date.isoformat ⟨9999, 11, 15⟩)) 1) = .text (Date.isoformat ⟨9999, 12, 15⟩) :=
    hagree Sqlite.bounded documented_bounded _ hday
  rw [bounded_sqliteMonths hd hday (by decide)] at hvalue
  cases hvalue

end Canonic
