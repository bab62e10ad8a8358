import Canonic.Compiler.Parse

set_option autoImplicit false

/-! # Filters on the command line

`parse_filter_flag` of `compiler/query.py`: `field:op:value` or `field<op>value`, turned into the
predicate a structured filter would give. The two forms are told apart by counting colons, and a
value that Python reads as a number becomes that number. -/

namespace Canonic

open Sql (Expr)

/-! ## The flag -/

/-- `_OPERATOR_MAP`. -/
def operatorMap : List (String × String) :=
  [("EQUALS", "="), ("=", "="), ("==", "="), ("NOT_EQUALS", "!="), ("!=", "!="), ("<>", "!="),
    ("GREATER_THAN", ">"), (">", ">"), ("LESS_THAN", "<"), ("<", "<"),
    ("GREATER_THAN_OR_EQUAL", ">="), (">=", ">="), ("LESS_THAN_OR_EQUAL", "<="), ("<=", "<="),
    ("LIKE", "LIKE"), ("IN", "IN")]

/-- What the flags use of Python's library: `str.upper`, and `str(float(text))`, `none` where
`float` raises a `ValueError`. -/
structure FlagLib where
  upper : String → String
  floatStr : String → Option String

/-- One coerced token; a float is kept as its text. -/
inductive FlagScalar where
  | int (n : Int)
  | float (text : String)
  | str (text : String)
  deriving DecidableEq, Repr

/-- The value of a filter. -/
inductive FlagValue where
  | one (v : FlagScalar)
  | many (vs : List FlagScalar)
  deriving DecidableEq, Repr

/-- `_coerce_scalar`. -/
def coerceScalar (lib : FlagLib) (text : String) : FlagScalar :=
  match pyInt text with
  | some n => .int n
  | none =>
      match lib.floatStr text with
      | some t => .float t
      | none => .str text

/-- `value.replace("'", "''")`. -/
def doubleQuotes : List Char → List Char
  | [] => []
  | c :: cs => if c = '\'' then '\'' :: '\'' :: doubleQuotes cs else c :: doubleQuotes cs

/-- `_quote_value` of a scalar. -/
def quoteScalar : FlagScalar → String
  | .int n => toString n
  | .float t => t
  | .str s => String.ofList ('\'' :: doubleQuotes s.toList ++ ['\''])

/-- `repr` of a scalar. -/
def FlagScalar.repr : FlagScalar → String
  | int n => toString n
  | float t => t
  | str s => pyRepr s

/-- `repr` of a value. -/
def FlagValue.repr : FlagValue → String
  | one v => v.repr
  | many vs => "[" ++ ", ".intercalate (vs.map (·.repr)) ++ "]"

/-- `_quote_value`. -/
def quoteValue : FlagValue → String
  | .one v => quoteScalar v
  | .many vs => (FlagValue.many vs).repr

/-- The type named when `IN` gets one value. -/
def FlagScalar.typeName : FlagScalar → String
  | int _ => "<class 'int'>"
  | float _ => "<class 'float'>"
  | str _ => "<class 'str'>"

/-- `_dict_to_predicate`; an error is the text of a `ValueError`. -/
def dictToPredicate (lib : FlagLib) (field operator : String) (value : FlagValue) :
    Except String String :=
  let rawOp := lib.upper operator
  if field = "" then
    .error ("filter dict missing 'field': \x7b'field': " ++ pyRepr field ++ ", 'operator': " ++
      pyRepr operator ++ ", 'value': " ++ value.repr ++ "\x7d")
  else
    match operatorMap.lookup rawOp with
    | none => .error ("unknown filter operator " ++ pyRepr rawOp ++ "; supported: " ++
        ", ".intercalate (operatorMap.map (·.1)))
    | some sqlOp =>
        if sqlOp = "IN" then
          match value with
          | .many vs => .ok (field ++ " IN (" ++ ", ".intercalate (vs.map quoteScalar) ++ ")")
          | .one v => .error ("filter operator IN requires a list value, got " ++ v.typeName)
        else .ok (field ++ " " ++ sqlOp ++ " " ++ quoteValue value)

/-- `raw.partition(":")`: what stands before the first colon, and what after it. -/
def partitionColon (cs : List Char) : List Char × Option (List Char) :=
  match cs.dropWhile (· ≠ ':') with
  | [] => (cs, none)
  | _ :: tail => (cs.takeWhile (· ≠ ':'), some tail)

/-- The parts of `field:op:value`. -/
def colonParts (raw : List Char) : Option (List Char × List Char × List Char) :=
  match partitionColon raw with
  | (_, none) => none
  | (head, some tail) =>
      match partitionColon tail with
      | (_, none) => none
      | (op, some value) => some (head, op, value)

/-- The operator a text starts with (`_BARE_OP_PATTERN`), and the rest. -/
def bareOp : List Char → Option (String × List Char)
  | '>' :: '=' :: cs => some (">=", cs)
  | '<' :: '=' :: cs => some ("<=", cs)
  | '!' :: '=' :: cs => some ("!=", cs)
  | '<' :: '>' :: cs => some ("<>", cs)
  | '=' :: '=' :: cs => some ("==", cs)
  | '>' :: cs => some (">", cs)
  | '<' :: cs => some ("<", cs)
  | '=' :: cs => some ("=", cs)
  | _ => none

/-- The leftmost operator: what stands before it, the operator, and what stands after it. -/
def searchOp : List Char → Option (List Char × String × List Char)
  | [] => none
  | c :: cs =>
      match bareOp (c :: cs) with
      | some (op, rest) => some ([], op, rest)
      | none => (searchOp cs).map fun found => (c :: found.1, found.2)

/-- The values of a list, `[_coerce_scalar(v.strip()) for v in value_raw.split(",")]`. -/
def listValue (lib : FlagLib) (value : List Char) : FlagValue :=
  .many ((value.splitOn ',').map fun v => coerceScalar lib (String.ofList (stripSpaces v)))

/-- `parse_filter_flag`. -/
def parseFilterFlag (lib : FlagLib) (raw : String) : Except String String :=
  match colonParts raw.toList with
  | some (head, op, value) =>
      let op := lib.upper (String.ofList (stripSpaces op))
      dictToPredicate lib (String.ofList (stripSpaces head)) op
        (if op = "IN" then listValue lib value
          else .one (coerceScalar lib (String.ofList value)))
  | none =>
      match searchOp raw.toList with
      | none => .error ("filter must be field=value or field:op:value, got " ++ pyRepr raw)
      | some (field, op, value) =>
          dictToPredicate lib (String.ofList (stripSpaces field)) op
            (.one (coerceScalar lib (String.ofList value)))

/-! ## Reading numbers -/

/-- The number ASCII digits stand for. -/
def digitsValue (cs : List Char) : Option ℕ :=
  if cs ≠ [] ∧ cs.all Char.isDigit then some (Nat.ofDigitChars 10 cs 0) else none

/-- `12` or `12.5`. -/
def mantissa (cs : List Char) : Option ℚ :=
  match cs.dropWhile Char.isDigit with
  | [] => (digitsValue cs).map Nat.cast
  | '.' :: fraction => do
      let whole ← digitsValue (cs.takeWhile Char.isDigit)
      let part ← digitsValue fraction
      return whole + part / 10 ^ fraction.length
  | _ => none

/-- The exponent of a numeral, with or without a sign. -/
def exponentValue : List Char → Option ℤ
  | '+' :: cs => (digitsValue cs).map fun n => (n : ℤ)
  | '-' :: cs => (digitsValue cs).map fun n => -(n : ℤ)
  | cs => (digitsValue cs).map fun n => (n : ℤ)

/-- A numeral of SQL: `12`, `12.5` or `1.25e+20`. -/
def numeral (cs : List Char) : Option ℚ :=
  match cs.dropWhile (· ≠ 'e') with
  | [] => mantissa cs
  | _ :: exponent => do
      let m ← mantissa (cs.takeWhile (· ≠ 'e'))
      let k ← exponentValue exponent
      return m * 10 ^ k

/-- The number a plain decimal numeral stands for, `-` in front included. -/
def plainDecimal : List Char → Option ℚ
  | '-' :: cs => (mantissa cs).map fun q => -q
  | cs => mantissa cs

/-- The number a printed number stands for. -/
def printedNumber : List Char → Option ℚ
  | '-' :: cs => (numeral cs).map fun q => -q
  | cs => numeral cs

/-! ## Reading a predicate -/

/-- The text between quotes, a doubled quote being one; `none` where a quote stands alone. -/
def unquote : List Char → Option (List Char)
  | [] => some []
  | '\'' :: '\'' :: cs => (unquote cs).map ('\'' :: ·)
  | '\'' :: _ => none
  | c :: cs => (unquote cs).map (c :: ·)

/-- A numeral or one of the names a float prints as. -/
def readUnsigned (cs : List Char) : Option Expr :=
  if (numeral cs).isSome then some (.number (String.ofList cs))
  else if cs = "nan".toList ∨ cs = "inf".toList then some (.bare (String.ofList cs))
  else none

/-- The tree of a literal: a text in quotes, a numeral with or without a sign, or a name. Where a
backslash escapes, a text in quotes with a backslash is left to the dialect. -/
def readOperand (escapes : Bool) : List Char → Option Expr
  | '\'' :: cs =>
      if cs.getLast? = some '\'' ∧ ¬ (escapes = true ∧ '\\' ∈ cs) then
        (unquote cs.dropLast).map fun text => .string (String.ofList text)
      else none
  | '-' :: cs => (readUnsigned cs).map fun e => .node (.func "Neg") [e]
  | cs => readUnsigned cs

/-- The comparison nodes by their operators. -/
def comparisonOps : List (String × Sql.Op) :=
  [("=", .eq), ("!=", .neq), (">", .gt), ("<", .lt), (">=", .gte), ("<=", .lte),
    ("LIKE", .func "Like")]

/-- The SQL parser reads comparisons of a field with a literal. -/
def ReadsComparisons (parse : String → Option Expr) (escapes : Bool) (field : String) : Prop :=
  ∀ sqlOp op text e, comparisonOps.lookup sqlOp = some op →
    readOperand escapes text.toList = some e →
    parse (field ++ " " ++ sqlOp ++ " " ++ text) = some (.node op [.bare field, e])

/-- The SQL parser reads lists of literals after `IN`. -/
def ReadsLists (parse : String → Option Expr) (escapes : Bool) (field : String) : Prop :=
  ∀ texts es, texts ≠ [] →
    List.Forall₂ (fun (text : String) e => readOperand escapes text.toList = some e) texts es →
    parse (field ++ " IN (" ++ ", ".intercalate texts ++ ")") =
      some (.node .isIn (.bare field :: es))

/-- What a literal is the number of. -/
def numberOf : Expr → Option ℚ
  | .literal false t => numeral t.toList
  | .node (.func "Neg") [.literal false t] => (numeral t.toList).map fun q => -q
  | _ => none

/-- A literal denotes a value: the number when the value is a plain decimal numeral, otherwise the
string. -/
def LiteralDenotes (v : List Char) (e : Expr) : Prop :=
  match plainDecimal v with
  | some q => numberOf e = some q
  | none => e = .string (String.ofList v)

/-- What the documentation of Python says of `str.upper` and of floats. -/
structure FlagLib.Documented (lib : FlagLib) : Prop where
  upper_key : ∀ key ∈ operatorMap.map (·.1), lib.upper key = key
  float_accepts : ∀ t, (plainDecimal t.toList).isSome → (lib.floatStr t).isSome
  float_printed : ∀ t p, lib.floatStr t = some p →
    (printedNumber p.toList).isSome ∨ p ∈ ["nan", "inf", "-inf"]
  float_refuses : ∀ t, '=' ∈ t.toList → lib.floatStr t = none

/-- Python reads a value as what it says: a plain decimal numeral as an integer or as a float that
prints as the same number, and nothing else as a number. -/
def ReadExactly (lib : FlagLib) (v : String) : Prop :=
  match plainDecimal v.toList with
  | some q => pyInt v ≠ none ∨ ∃ t, lib.floatStr v = some t ∧ printedNumber t.toList = some q
  | none => pyInt v = none ∧ lib.floatStr v = none

/-! ## The round trip -/

/-- A name of the grammar: no blanks around it, and no character of an operator in it. -/
structure FieldName (field : String) : Prop where
  nonempty : field ≠ ""
  stripped : stripSpaces field.toList = field.toList
  plain : ∀ c ∈ field.toList, c ∉ [':', '<', '>', '=', '!']

/-- The operators `_BARE_OP_PATTERN` finds. -/
def bareOperators : List String := [">=", "<=", "!=", "<>", "==", ">", "<", "="]

/-- The value goes on with the operator before it, which makes a longer one. -/
def Continues (op : String) (v : List Char) : Prop :=
  (op ∈ [">", "<", "="] ∧ v.head? = some '=') ∨ (op = "<" ∧ v.head? = some '>')

/-- The values of a list: what stands between the commas, without the blanks around it. -/
def commaParts (v : String) : List String :=
  (v.toList.splitOn ',').map fun part => String.ofList (stripSpaces part)

/-- A predicate parses back to the field, the operator and the literal of the value, or to the
field and the literals of the values after `IN`. -/
def ReadsBack (parse : String → Option Expr) (field sqlOp v predicate : String) : Prop :=
  if sqlOp = "IN" then
    ∃ es, parse predicate = some (.node .isIn (.bare field :: es)) ∧
      List.Forall₂ (fun part e => LiteralDenotes part.toList e) (commaParts v) es
  else
    ∃ op e, comparisonOps.lookup sqlOp = some op ∧
      parse predicate = some (.node op [.bare field, e]) ∧ LiteralDenotes v.toList e

/-- Both forms of the flag say what they are written for. -/
def FlagRoundTrips (parse : String → Option Expr) (lib : FlagLib) (field op sqlOp v : String) :
    Prop :=
  (∃ predicate, parseFilterFlag lib (field ++ ":" ++ op ++ ":" ++ v) = .ok predicate ∧
    ReadsBack parse field sqlOp v predicate) ∧
  (op ∈ bareOperators →
    parseFilterFlag lib (field ++ op ++ v) = parseFilterFlag lib (field ++ ":" ++ op ++ ":" ++ v))

/-- The value is read as what it says, and in the form without colons it neither looks like the
form with colons nor goes on with the operator. -/
def FlagCondition (lib : FlagLib) (op sqlOp v : String) : Prop :=
  (if sqlOp = "IN" then ∀ part ∈ commaParts v, ReadExactly lib part else ReadExactly lib v) ∧
    (op ∈ bareOperators → v.toList.count ':' ≤ 1 ∧ ¬ Continues op v.toList)

/-! ### Texts in quotes -/

theorem unquote_doubleQuotes (cs : List Char) : unquote (doubleQuotes cs) = some cs := by
  induction cs with
  | nil => rfl
  | cons c cs ih =>
      rw [doubleQuotes]
      by_cases hc : c = '\''
      · rw [if_pos hc, unquote, ih, hc]
        rfl
      · rw [if_neg hc, unquote, ih]
        · rfl
        · exact fun _ h _ => hc h
        · exact fun h => hc h

theorem mem_doubleQuotes {c : Char} (hc : c ≠ '\'') {cs : List Char} :
    c ∈ doubleQuotes cs ↔ c ∈ cs := by
  induction cs with
  | nil => simp [doubleQuotes]
  | cons d cs ih =>
      rw [doubleQuotes]
      by_cases hd : d = '\''
      · rw [if_pos hd, hd, List.mem_cons, List.mem_cons, List.mem_cons, ih]
        simp [hc]
      · rw [if_neg hd, List.mem_cons, List.mem_cons, ih]

theorem readOperand_quoted {escapes : Bool} {text : String}
    (h : escapes = false ∨ '\\' ∉ text.toList) :
    readOperand escapes (quoteScalar (.str text)).toList = some (.string text) := by
  have hlast : (doubleQuotes text.toList ++ ['\'']).getLast? = some '\'' := by simp
  have hescape : ¬ (escapes = true ∧ '\\' ∈ doubleQuotes text.toList ++ ['\'']) := by
    rintro ⟨htrue, hmem⟩
    rcases h with hfalse | hno
    · simp [htrue] at hfalse
    · rw [List.mem_append, mem_doubleQuotes (by decide)] at hmem
      rcases hmem with hmem | hmem
      · exact hno hmem
      · simp at hmem
  rw [quoteScalar, String.toList_ofList, List.cons_append, readOperand, if_pos ⟨hlast, hescape⟩,
    List.dropLast_concat, unquote_doubleQuotes, Option.map_some, String.ofList_toList]

/-! ### Numbers -/

theorem digitsValue_toDigits (n : ℕ) : digitsValue (Nat.toDigits 10 n) = some n := by
  have hall : (Nat.toDigits 10 n).all Char.isDigit = true := by
    rw [List.all_eq_true]
    exact fun c hc => Nat.isDigit_of_mem_toDigits (by decide) (by decide) hc
  rw [digitsValue, if_pos ⟨Nat.toDigits_ne_nil, hall⟩, Nat.ofDigitChars_ten_toDigits]

theorem mantissa_digits {cs : List Char} (h : cs.all Char.isDigit = true) :
    mantissa cs = (digitsValue cs).map Nat.cast := by
  have hnil : cs.dropWhile Char.isDigit = [] := by
    rw [List.dropWhile_eq_nil_iff]
    exact List.all_eq_true.mp h
  rw [mantissa, hnil]

theorem numeral_of_no_exponent {cs : List Char} (h : 'e' ∉ cs) : numeral cs = mantissa cs := by
  have hnil : cs.dropWhile (· ≠ 'e') = [] := by
    rw [List.dropWhile_eq_nil_iff]
    intro c hc
    simp only [ne_eq, decide_not, Bool.not_eq_true', decide_eq_false_iff_not]
    rintro rfl
    exact h hc
  rw [numeral, hnil]

theorem numeral_toDigits (n : ℕ) : numeral (Nat.toDigits 10 n) = some (n : ℚ) := by
  have hdigits : ∀ c ∈ Nat.toDigits 10 n, c.isDigit = true := fun c hc =>
    Nat.isDigit_of_mem_toDigits (by decide) (by decide) hc
  have hno : 'e' ∉ Nat.toDigits 10 n := fun hc => absurd (hdigits _ hc) (by decide)
  rw [numeral_of_no_exponent hno, mantissa_digits (List.all_eq_true.mpr hdigits),
    digitsValue_toDigits, Option.map_some]

/-- The literal of an integer. -/
theorem readOperand_int (escapes : Bool) (n : ℤ) :
    ∃ e, readOperand escapes (toString n).toList = some e ∧ numberOf e = some (n : ℚ) := by
  have hunsigned : ∀ k : ℕ, readUnsigned (Nat.toDigits 10 k) =
      some (.number (String.ofList (Nat.toDigits 10 k))) := by
    intro k
    rw [readUnsigned, numeral_toDigits, Option.isSome_some, if_pos rfl]
  cases n with
  | ofNat k =>
      refine ⟨.number (String.ofList (Nat.toDigits 10 k)), ?_, ?_⟩
      · have htext : (toString (Int.ofNat k)).toList = Nat.toDigits 10 k := Nat.toList_repr
        have hdigit : ∀ c ∈ Nat.toDigits 10 k, c.isDigit = true := fun c hc =>
          Nat.isDigit_of_mem_toDigits (by decide) (by decide) hc
        rw [htext, readOperand, hunsigned]
        · rintro cs hcs
          exact absurd (hdigit '\'' (by rw [hcs]; exact List.mem_cons_self)) (by decide)
        · rintro cs hcs
          exact absurd (hdigit '-' (by rw [hcs]; exact List.mem_cons_self)) (by decide)
      · simp [Expr.number, numberOf, numeral_toDigits]
  | negSucc k =>
      refine ⟨.node (.func "Neg") [.number (String.ofList (Nat.toDigits 10 (k + 1)))], ?_, ?_⟩
      · have htext : (toString (Int.negSucc k)).toList = '-' :: Nat.toDigits 10 (k + 1) := by
          show ("-" ++ (k + 1).repr).toList = _
          rw [String.toList_append, Nat.toList_repr]
          rfl
        rw [htext, readOperand, hunsigned, Option.map_some]
      · simp [Expr.number, numberOf, numeral_toDigits, Int.cast_negSucc]

theorem mantissa_cons {c : Char} (hc : c.isDigit = false) (cs : List Char) :
    mantissa (c :: cs) = none := by
  have hdrop : (c :: cs).dropWhile Char.isDigit = c :: cs := by
    rw [List.dropWhile_cons_of_neg (by simp [hc])]
  have htake : (c :: cs).takeWhile Char.isDigit = [] := by
    rw [List.takeWhile_cons_of_neg (by simp [hc])]
  unfold mantissa
  rw [hdrop, htake]
  by_cases hdot : c = '.'
  · rw [hdot]
    rfl
  · split
    next h => cases h
    next h => exact absurd (List.cons.inj h).1 hdot
    next => rfl

/-- A numeral starts with a digit. -/
theorem numeral_cons {c : Char} (hc : c.isDigit = false) (cs : List Char) :
    numeral (c :: cs) = none := by
  unfold numeral
  by_cases he : c = 'e'
  · rw [he, List.dropWhile_cons_of_neg (by simp), List.takeWhile_cons_of_neg (by simp)]
    rfl
  · rw [List.takeWhile_cons_of_pos (by simp [he])]
    simp only [mantissa_cons hc]
    split
    · rfl
    · rfl

theorem readUnsigned_spec {cs : List Char}
    (h : (numeral cs).isSome ∨ cs = "nan".toList ∨ cs = "inf".toList) :
    ∃ e, readUnsigned cs = some e ∧ numberOf e = numeral cs ∧
      numberOf (.node (.func "Neg") [e]) = (numeral cs).map (fun q => -q) ∧
      ∀ text, e ≠ .string text := by
  by_cases hnum : (numeral cs).isSome
  · refine ⟨.number (String.ofList cs), by rw [readUnsigned, if_pos hnum], ?_, ?_, ?_⟩
    · simp [Expr.number, numberOf]
    · simp [Expr.number, numberOf]
    · intro text heq
      cases heq
  · have hname := h.resolve_left hnum
    have hnone : numeral cs = none := by simpa using hnum
    refine ⟨.bare (String.ofList cs), by rw [readUnsigned, if_neg hnum, if_pos hname], ?_, ?_, ?_⟩
    · rw [hnone]
      rfl
    · rw [hnone]
      rfl
    · intro text heq
      cases heq

/-- A printed float is read as a literal that is the same number, if it is one. -/
theorem readOperand_float (escapes : Bool) {t : String}
    (h : (printedNumber t.toList).isSome ∨ t ∈ ["nan", "inf", "-inf"]) :
    ∃ e, readOperand escapes t.toList = some e ∧ numberOf e = printedNumber t.toList ∧
      ∀ text, e ≠ .string text := by
  have hlist : (printedNumber t.toList).isSome ∨ t.toList = "nan".toList ∨
      t.toList = "inf".toList ∨ t.toList = "-inf".toList := by
    rcases h with h | h
    · exact Or.inl h
    · simp only [List.mem_cons, List.not_mem_nil, or_false] at h
      rcases h with rfl | rfl | rfl <;> simp
  generalize t.toList = cs at hlist
  cases cs with
  | nil => exact absurd hlist (by decide)
  | cons c cs =>
      -- a sign is read as a negation of what follows it
      by_cases hminus : c = '-'
      · subst hminus
        have hrest : (numeral cs).isSome ∨ cs = "nan".toList ∨ cs = "inf".toList := by
          simp only [printedNumber, Option.isSome_map] at hlist
          rcases hlist with h | h | h | h
          · exact Or.inl h
          · exact absurd h (by simp)
          · exact absurd h (by simp)
          · exact Or.inr (Or.inr (List.cons.inj h).2)
        obtain ⟨e, hread, -, hneg, -⟩ := readUnsigned_spec hrest
        refine ⟨.node (.func "Neg") [e], by rw [readOperand, hread, Option.map_some], ?_, ?_⟩
        · rw [hneg, printedNumber]
        · intro text heq
          cases heq
      · have hprinted : printedNumber (c :: cs) = numeral (c :: cs) := by
          rw [printedNumber]
          exact fun _ h => hminus (List.cons.inj h).1
        have hrest : (numeral (c :: cs)).isSome ∨ c :: cs = "nan".toList ∨
            c :: cs = "inf".toList := by
          rw [hprinted] at hlist
          rcases hlist with h | h | h | h
          · exact Or.inl h
          · exact Or.inr (Or.inl h)
          · exact Or.inr (Or.inr h)
          · exact absurd (List.cons.inj h).1 hminus
        have hquote : c ≠ '\'' := by
          rintro rfl
          rw [numeral_cons (by decide)] at hrest
          simp at hrest
        obtain ⟨e, hread, hnumber, -, hstring⟩ := readUnsigned_spec hrest
        refine ⟨e, ?_, by rw [hnumber, hprinted], hstring⟩
        rw [readOperand, hread]
        · exact fun _ h => hquote (List.cons.inj h).1
        · exact fun _ h => hminus (List.cons.inj h).1

/-! ### Integers -/

theorem pyDigits_point {cs : List Char} (h : '.' ∈ cs) {after : Bool} {acc : ℕ} :
    pyDigits cs after acc = none := by
  induction cs generalizing after acc with
  | nil => exact absurd h List.not_mem_nil
  | cons c cs ih =>
      rw [pyDigits]
      rcases List.mem_cons.mp h with rfl | h
      · rw [if_neg (by decide)]
        have hnone : decimalDigit '.' = none := by decide
        rw [hnone, Option.bind_none]
      · split
        · split
          · exact ih h
          · rfl
        · cases decimalDigit c with
          | none => rfl
          | some d => exact ih h

theorem mantissa_cases {cs : List Char} {q : ℚ} (h : mantissa cs = some q) :
    (cs ≠ [] ∧ (∀ c ∈ cs, c.isDigit = true) ∧ q = (Nat.ofDigitChars 10 cs 0 : ℕ)) ∨
      ('.' ∈ cs ∧ ∀ c ∈ cs, c.isDigit = true ∨ c = '.') := by
  have hsplit := List.takeWhile_append_dropWhile (p := Char.isDigit) (l := cs)
  have hwhole : ∀ c ∈ cs.takeWhile Char.isDigit, c.isDigit = true := fun c hc =>
    List.mem_takeWhile_imp hc
  unfold mantissa at h
  split at h
  next hdrop =>
    left
    have hall : ∀ c ∈ cs, c.isDigit = true := List.dropWhile_eq_nil_iff.mp hdrop
    unfold digitsValue at h
    split at h
    next hd => exact ⟨hd.1, hall, (Option.some.inj h).symm⟩
    next => cases h
  next fraction hdrop =>
    right
    rw [hdrop] at hsplit
    have hfraction : ∀ c ∈ fraction, c.isDigit = true := by
      by_contra hno
      have hnone : digitsValue fraction = none := by
        rw [digitsValue, if_neg]
        rintro ⟨-, hall⟩
        exact hno (List.all_eq_true.mp hall)
      simp [hnone] at h
    rw [← hsplit]
    refine ⟨by simp, ?_⟩
    intro c hc
    rcases List.mem_append.mp hc with hc | hc
    · exact Or.inl (hwhole c hc)
    · rcases List.mem_cons.mp hc with hc | hc
      · exact Or.inr hc
      · exact Or.inl (hfraction c hc)
  next => cases h

/-- An integer of Python is the number of its numeral. -/
theorem pyInt_plainDecimal {v : String} {n : ℤ} {q : ℚ} (hn : pyInt v = some n)
    (hq : plainDecimal v.toList = some q) : (n : ℚ) = q := by
  unfold pyInt at hn
  split at hn
  · cases hn
  · generalize v.toList = cs at hn hq
    -- a mantissa with a point is no integer, and one without has one value
    have hvalue : ∀ {ds : List Char} {m : ℕ} {r : ℚ}, mantissa ds = some r →
        pyDigits ds false 0 = some m → (m : ℚ) = r := by
      intro ds m r hr hm
      rcases mantissa_cases hr with ⟨hne, hdigits, hr⟩ | ⟨hpoint, -⟩
      · rw [pyDigits_digits hdigits (Or.inl hne)] at hm
        rw [hr, Option.some.inj hm]
      · rw [pyDigits_point hpoint] at hm
        cases hm
    have hchars : ∀ {ds : List Char} {r : ℚ}, mantissa ds = some r →
        ∀ c ∈ ds, c.isDigit = true ∨ c = '.' := by
      intro ds r hr c hc
      rcases mantissa_cases hr with ⟨-, hdigits, -⟩ | ⟨-, hdigits⟩
      · exact Or.inl (hdigits c hc)
      · exact hdigits c hc
    unfold plainDecimal at hq
    split at hq
    next ds =>
      obtain ⟨r, hr, rfl⟩ := Option.map_eq_some_iff.mp hq
      rw [dropWhile_both_ends] at hn
      · simp only [Option.bind_eq_bind, Option.pure_def, Option.map_eq_some_iff,
          Option.bind_eq_some_iff, Option.some.injEq] at hn
        obtain ⟨-, ⟨m, hm, rfl⟩, rfl⟩ := hn
        rw [← hvalue hr hm]
        push_cast
        rfl
      · intro c hc
        rcases List.mem_cons.mp hc with rfl | hc
        · exact isIntSpace_ascii (Or.inr (Or.inr rfl))
        · rcases hchars hr c hc with h | h
          · exact isIntSpace_ascii (Or.inl h)
          · exact isIntSpace_ascii (Or.inr (Or.inl h))
    next hminus =>
      rw [dropWhile_both_ends] at hn
      · split at hn
        next ds => exact absurd rfl (hminus ds)
        next ds => exact absurd (hchars hq '+' List.mem_cons_self) (by decide)
        next =>
          simp only [Option.bind_eq_bind, Option.pure_def, Option.map_eq_some_iff,
            Option.bind_eq_some_iff, Option.some.injEq] at hn
          obtain ⟨-, ⟨m, hm, rfl⟩, rfl⟩ := hn
          rw [← hvalue hq hm]
          push_cast
          rfl
      · intro c hc
        rcases hchars hq c hc with h | h
        · exact isIntSpace_ascii (Or.inl h)
        · exact isIntSpace_ascii (Or.inr (Or.inl h))

/-! ### Coerced values -/

/-- What a coerced value is read back as. -/
theorem denotes_coerced {lib : FlagLib} (hlib : lib.Documented) {escapes : Bool} {v : String}
    (h : escapes = false ∨ '\\' ∉ v.toList) :
    ∃ e, readOperand escapes (quoteScalar (coerceScalar lib v)).toList = some e ∧
      (LiteralDenotes v.toList e ↔ ReadExactly lib v) ∧ ∀ text, e = .string text → text = v := by
  unfold coerceScalar LiteralDenotes ReadExactly
  cases hint : pyInt v with
  | some n =>
      obtain ⟨e, hread, hnumber⟩ := readOperand_int escapes n
      refine ⟨e, hread, ?_, by rintro text rfl; cases hnumber⟩
      cases hplain : plainDecimal v.toList with
      | some q => simp [hnumber, pyInt_plainDecimal hint hplain]
      | none =>
          have hne : e ≠ .string v := by
            rintro rfl
            cases hnumber
          simp [hne]
  | none =>
      cases hfloat : lib.floatStr v with
      | some t =>
          obtain ⟨e, hread, hnumber, hne⟩ := readOperand_float escapes
            (hlib.float_printed v t hfloat)
          refine ⟨e, hread, ?_, fun text heq => absurd heq (hne text)⟩
          cases plainDecimal v.toList with
          | some q => simp [hnumber]
          | none => simp [hne]
      | none =>
          refine ⟨.string v, readOperand_quoted h, ?_, fun text heq => by cases heq; rfl⟩
          cases hplain : plainDecimal v.toList with
          | some q =>
              have haccepts := hlib.float_accepts v (by rw [hplain]; rfl)
              rw [hfloat] at haccepts
              cases haccepts
          | none => simp

/-! ### The two forms -/

theorem partitionColon_cases (cs : List Char) :
    (':' ∉ cs ∧ partitionColon cs = (cs, none)) ∨
      ∃ a b, cs = a ++ ':' :: b ∧ ':' ∉ a ∧ partitionColon cs = (a, some b) := by
  have hsplit := List.takeWhile_append_dropWhile (p := (· ≠ ':')) (l := cs)
  have hhead : ':' ∉ cs.takeWhile (· ≠ ':') := fun h => by
    simpa using List.mem_takeWhile_imp h
  unfold partitionColon
  cases hdrop : cs.dropWhile (· ≠ ':') with
  | nil =>
      left
      rw [hdrop, List.append_nil] at hsplit
      rw [hsplit] at hhead
      exact ⟨hhead, rfl⟩
  | cons c tail =>
      right
      have hc : c = ':' := by
        have hne := List.head?_dropWhile_not (· ≠ ':') cs
        rw [hdrop] at hne
        simpa using hne
      rw [hdrop, hc] at hsplit
      exact ⟨_, tail, hsplit.symm, hhead, rfl⟩

theorem partitionColon_append {a : List Char} (h : ':' ∉ a) (b : List Char) :
    partitionColon (a ++ ':' :: b) = (a, some b) := by
  have hall : ∀ c ∈ a, (decide (c ≠ ':')) = true := by
    intro c hc
    rw [decide_eq_true_eq]
    rintro rfl
    exact h hc
  unfold partitionColon
  rw [List.dropWhile_append_of_pos hall, List.takeWhile_append_of_pos hall]
  simp

theorem colonParts_append {a b : List Char} (ha : ':' ∉ a) (hb : ':' ∉ b) (c : List Char) :
    colonParts (a ++ ':' :: (b ++ ':' :: c)) = some (a, b, c) := by
  rw [colonParts, partitionColon_append ha]
  simp only [partitionColon_append hb]

/-- Fewer than two colons are not the colon form. -/
theorem colonParts_eq_none {cs : List Char} (h : cs.count ':' ≤ 1) : colonParts cs = none := by
  unfold colonParts
  rcases partitionColon_cases cs with ⟨-, hnone⟩ | ⟨a, b, hcs, ha, hsome⟩
  · rw [hnone]
  · have hb : ':' ∉ b := by
      rw [hcs, List.count_append, List.count_cons_self] at h
      rw [← List.count_eq_zero]
      omega
    rw [hsome]
    rcases partitionColon_cases b with ⟨-, hnone⟩ | ⟨a', b', hb', -, -⟩
    · simp only [hnone]
    · exact absurd (by rw [hb']; simp) hb

theorem FieldName.not_mem {field : String} (h : FieldName field) {c : Char}
    (hc : c ∈ [':', '<', '>', '=', '!']) : c ∉ field.toList := fun hmem => h.plain c hmem hc

/-- Blanks are stripped from the end only, behind a field name. -/
theorem stripSpaces_field {field : String} (h : FieldName field) {c : Char}
    (hc : isPySpace c = false) (cs : List Char) : ∃ rest,
      stripSpaces (field.toList ++ c :: cs) = field.toList ++ c :: rest := by
  have hleft : (field.toList ++ c :: cs).dropWhile isPySpace = field.toList ++ c :: cs := by
    have hstripped := h.stripped
    cases hf : field.toList with
    | nil => rw [List.nil_append, List.dropWhile_cons_of_neg (by simp [hc])]
    | cons f fs =>
        rw [List.cons_append, List.dropWhile_cons_of_neg]
        -- a blank in front would have been stripped
        intro hblank
        have hshort : (stripSpaces (f :: fs)).length ≤ fs.length := by
          rw [stripSpaces, List.dropWhile_cons_of_pos hblank, List.length_reverse]
          have hright := (List.dropWhile_sublist isPySpace
            (l := (fs.dropWhile isPySpace).reverse)).length_le
          rw [List.length_reverse] at hright
          exact hright.trans (List.dropWhile_sublist isPySpace).length_le
        rw [hf] at hstripped
        rw [hstripped, List.length_cons] at hshort
        omega
  exact ⟨_, by rw [stripSpaces, hleft, reverse_dropWhile_append hc]⟩

/-! ### The predicate -/

/-- The predicate of a comparison or of a list. -/
def predicateText (lib : FlagLib) (field sqlOp v : String) : String :=
  if sqlOp = "IN" then
    field ++ " IN (" ++
      ", ".intercalate ((commaParts v).map fun part => quoteScalar (coerceScalar lib part)) ++ ")"
  else field ++ " " ++ sqlOp ++ " " ++ quoteScalar (coerceScalar lib v)

theorem lookup_operatorMap : ∀ entry ∈ operatorMap,
    operatorMap.lookup entry.1 = some entry.2 ∧ (entry.1 = "IN" ↔ entry.2 = "IN") := by
  decide

theorem dictToPredicate_key {lib : FlagLib} (hlib : lib.Documented) {field key sqlOp v : String}
    (hfield : field ≠ "") (hkey : (key, sqlOp) ∈ operatorMap) :
    dictToPredicate lib field key (if key = "IN" then listValue lib v.toList
      else .one (coerceScalar lib v)) = .ok (predicateText lib field sqlOp v) := by
  have hlookup := lookup_operatorMap (key, sqlOp) hkey
  have hupper : lib.upper key = key := hlib.upper_key key (List.mem_map.mpr ⟨_, hkey, rfl⟩)
  unfold dictToPredicate predicateText
  rw [if_neg hfield, hupper, hlookup.1]
  by_cases hin : sqlOp = "IN"
  · have hlist : key = "IN" := hlookup.2.mpr hin
    rw [if_pos hlist, if_pos hin, commaParts, List.map_map]
    simp only [hin, if_true, listValue, List.map_map]
    rfl
  · have hone : key ≠ "IN" := mt hlookup.2.mp hin
    rw [if_neg hone, if_neg hin]
    simp only [hin, if_false, quoteValue]

/-- A predicate starts with its field and a blank. -/
theorem dictToPredicate_field {lib : FlagLib} {field operator : String} {value : FlagValue}
    {predicate : String} (h : dictToPredicate lib field operator value = .ok predicate) :
    ∃ rest, predicate = field ++ " " ++ rest := by
  unfold dictToPredicate at h
  by_cases hfield : field = ""
  · rw [if_pos hfield] at h
    cases h
  · rw [if_neg hfield] at h
    cases hlookup : operatorMap.lookup (lib.upper operator) with
    | none =>
        rw [hlookup] at h
        cases h
    | some sqlOp =>
        rw [hlookup] at h
        by_cases hin : sqlOp = "IN"
        · cases value with
          | one v =>
              simp only [hin, if_true] at h
              cases h
          | many vs =>
              simp only [hin, if_true] at h
              refine ⟨"IN (" ++ ", ".intercalate (vs.map quoteScalar) ++ ")", ?_⟩
              rw [← Except.ok.inj h]
              apply String.toList_injective
              simp [String.toList_append]
        · simp only [hin, if_false] at h
          refine ⟨sqlOp ++ " " ++ quoteValue value, ?_⟩
          rw [← Except.ok.inj h]
          apply String.toList_injective
          simp [String.toList_append]

/-- The form with colons, whatever its value holds. -/
theorem parseFilterFlag_colon {lib : FlagLib} (hlib : lib.Documented)
    {field op key sqlOp : String} (hfield : FieldName field) (hcolon : ':' ∉ op.toList)
    (hop : lib.upper (String.ofList (stripSpaces op.toList)) = key)
    (hkey : (key, sqlOp) ∈ operatorMap) (v : String) :
    parseFilterFlag lib (field ++ ":" ++ op ++ ":" ++ v) =
      .ok (predicateText lib field sqlOp v) := by
  have htext : (field ++ ":" ++ op ++ ":" ++ v).toList =
      field.toList ++ ':' :: (op.toList ++ ':' :: v.toList) := by
    simp [String.toList_append]
  have hparts : colonParts (field ++ ":" ++ op ++ ":" ++ v).toList =
      some (field.toList, op.toList, v.toList) := by
    rw [htext]
    exact colonParts_append (hfield.not_mem (by simp)) hcolon _
  rw [parseFilterFlag, hparts]
  simp only [hfield.stripped, String.ofList_toList, hop]
  exact dictToPredicate_key hlib hfield.nonempty hkey

/-! ### The form without colons -/

theorem bareOperators_spec : ∀ op ∈ bareOperators,
    op ≠ "IN" ∧ ':' ∉ op.toList ∧ op ∈ operatorMap.map (·.1) ∧
      stripSpaces op.toList = op.toList ∧
      (op ∈ [">", "<", "="] → operatorMap.lookup op = some op) := by
  decide

theorem searchOp_append {cs : List Char} (h : ∀ c ∈ cs, c ∉ [':', '<', '>', '=', '!'])
    (rest : List Char) :
    searchOp (cs ++ rest) = (searchOp rest).map fun found => (cs ++ found.1, found.2) := by
  induction cs with
  | nil => simp
  | cons c cs ih =>
      have hc := h c List.mem_cons_self
      have hnone : bareOp (c :: (cs ++ rest)) = none := by
        unfold bareOp
        split <;> simp_all
      rw [List.cons_append, searchOp, hnone]
      show (searchOp (cs ++ rest)).map _ = _
      rw [ih fun d hd => h d (List.mem_cons_of_mem _ hd), Option.map_map]
      rfl

theorem bareOp_append {op : String} (hop : op ∈ bareOperators) {v : List Char}
    (h : ¬ Continues op v) : bareOp (op.toList ++ v) = some (op, v) := by
  simp only [bareOperators, List.mem_cons, List.not_mem_nil, or_false] at hop
  rcases hop with rfl | rfl | rfl | rfl | rfl | rfl | rfl | rfl <;>
    cases v with
    | nil => rfl
    | cons c cs => simp_all [Continues, bareOp]

/-- A value that goes on with the operator is cut behind the longer operator, another one or the
same of a shorter value. -/
theorem bareOp_continues {op : String} {v : List Char} (h : Continues op v) :
    ∃ long rest sqlOp, bareOp (op.toList ++ v) = some (long, rest) ∧ (long, sqlOp) ∈ operatorMap ∧
      sqlOp ≠ "IN" ∧ ((op = "=" ∧ sqlOp = "=" ∧ v = '=' :: rest) ∨
        (op ∈ [">", "<"] ∧ sqlOp ∈ [">=", "<=", "!="])) := by
  rcases h with ⟨hop, hv⟩ | ⟨rfl, hv⟩
  · obtain ⟨rest, rfl⟩ : ∃ rest, v = '=' :: rest := List.head?_eq_some_iff.mp hv
    simp only [List.mem_cons, List.not_mem_nil, or_false] at hop
    rcases hop with rfl | rfl | rfl
    · exact ⟨">=", rest, ">=", rfl, by decide, by decide, Or.inr ⟨by decide, by decide⟩⟩
    · exact ⟨"<=", rest, "<=", rfl, by decide, by decide, Or.inr ⟨by decide, by decide⟩⟩
    · exact ⟨"==", rest, "=", rfl, by decide, by decide, Or.inl ⟨rfl, rfl, rfl⟩⟩
  · obtain ⟨rest, rfl⟩ : ∃ rest, v = '>' :: rest := List.head?_eq_some_iff.mp hv
    exact ⟨"<>", rest, "!=", rfl, by decide, by decide, Or.inr ⟨by decide, by decide⟩⟩

/-- The form without colons, where it is not taken for the other. -/
theorem parseFilterFlag_bare {lib : FlagLib} (hlib : lib.Documented) {field sqlOp found : String}
    (hfield : FieldName field) {text rest : List Char} (hcount : text.count ':' ≤ 1)
    (hbare : bareOp text = some (found, rest)) (hkey : (found, sqlOp) ∈ operatorMap)
    (hin : sqlOp ≠ "IN") : parseFilterFlag lib (field ++ String.ofList text) =
      .ok (predicateText lib field sqlOp (String.ofList rest)) := by
  have htext : (field ++ String.ofList text).toList = field.toList ++ text := by
    rw [String.toList_append, String.toList_ofList]
  have hnone : colonParts (field ++ String.ofList text).toList = none := by
    apply colonParts_eq_none
    have hzero : field.toList.count ':' = 0 :=
      List.count_eq_zero.mpr (hfield.not_mem (by simp))
    rw [htext, List.count_append, hzero]
    omega
  have hsearch : searchOp (field ++ String.ofList text).toList =
      some (field.toList, found, rest) := by
    rw [htext, searchOp_append hfield.plain]
    cases text with
    | nil => cases hbare
    | cons c cs =>
        rw [searchOp, hbare]
        simp
  have hfound : found ≠ "IN" := mt (lookup_operatorMap (found, sqlOp) hkey).2.mp hin
  rw [parseFilterFlag, hnone, hsearch]
  have hdict := dictToPredicate_key hlib hfield.nonempty (v := String.ofList rest) hkey
  rw [if_neg hfound] at hdict
  simp only [hfield.stripped, String.ofList_toList]
  exact hdict

/-- A predicate of the bare operators tells its operator and its value. -/
theorem predicateText_ne {lib : FlagLib} {field op sqlOp v rest : String}
    (h : (op = "=" ∧ sqlOp = "=" ∧
        quoteScalar (coerceScalar lib v) ≠ quoteScalar (coerceScalar lib rest)) ∨
      (op ∈ [">", "<"] ∧ sqlOp ∈ [">=", "<=", "!="])) :
    predicateText lib field sqlOp rest ≠ predicateText lib field op v := by
  intro heq
  rcases h with ⟨rfl, rfl, hne⟩ | ⟨hop, hsql⟩
  · rw [predicateText, predicateText, if_neg (by decide), if_neg (by decide),
      String.append_right_inj] at heq
    exact hne heq.symm
  · have hchars := congrArg String.toList heq
    simp only [List.mem_cons, List.not_mem_nil, or_false] at hop hsql
    rcases hop with rfl | rfl <;> rcases hsql with rfl | rfl | rfl <;>
      simp [predicateText, String.toList_append] at hchars

theorem pyInt_equals {v : String} {rest : List Char} (hv : v.toList = '=' :: rest) :
    pyInt v = none := by
  have hstrip : (((v.toList.dropWhile isIntSpace).reverse).dropWhile isIntSpace).reverse =
      '=' :: ((rest.reverse).dropWhile isIntSpace).reverse := by
    rw [hv, List.dropWhile_cons_of_neg (by decide)]
    exact reverse_dropWhile_append (by decide) [] rest
  unfold pyInt
  rw [hstrip]
  split
  · rfl
  · rfl

/-- A value behind an equals sign is not quoted as the value itself. -/
theorem quoteScalar_equals_ne {lib : FlagLib} (hlib : lib.Documented) {v rest : String}
    (hv : v.toList = '=' :: rest.toList) :
    quoteScalar (coerceScalar lib v) ≠ quoteScalar (coerceScalar lib rest) := by
  intro heq
  have hstr : coerceScalar lib v = .str v := by
    have hfloat := hlib.float_refuses v (by rw [hv]; exact List.mem_cons_self)
    rw [coerceScalar, pyInt_equals hv, hfloat]
  have hread := @readOperand_quoted false v (Or.inl rfl)
  obtain ⟨e, hrest, -, htext⟩ := @denotes_coerced lib hlib false rest (Or.inl rfl)
  rw [← heq, hstr, hread, Option.some.injEq] at hrest
  have hsame : v = rest := htext v hrest.symm
  have hlength := congrArg List.length hv
  rw [hsame, List.length_cons] at hlength
  omega

/-- Two colons in the value make the flag the form with colons, whose field then holds the
operator. -/
theorem parseFilterFlag_colons {lib : FlagLib} {field op v : String} (hfield : FieldName field)
    (hop : op ∈ bareOperators) (hcount : 2 ≤ v.toList.count ':') (rest : String) :
    parseFilterFlag lib (field ++ op ++ v) ≠ .ok (field ++ " " ++ rest) := by
  obtain ⟨o, os, hos, hblank, ho, hcolon⟩ : ∃ o os, op.toList = o :: os ∧ isPySpace o = false ∧
      o ≠ ' ' ∧ ':' ∉ op.toList := by
    simp only [bareOperators, List.mem_cons, List.not_mem_nil, or_false] at hop
    rcases hop with rfl | rfl | rfl | rfl | rfl | rfl | rfl | rfl <;>
      exact ⟨_, _, rfl, by decide, by decide, by decide⟩
  obtain ⟨a, b, c, hv, ha, hb⟩ : ∃ a b c, v.toList = a ++ ':' :: (b ++ ':' :: c) ∧ ':' ∉ a ∧
      ':' ∉ b := by
    rcases partitionColon_cases v.toList with ⟨hno, -⟩ | ⟨a, tail, hv, ha, -⟩
    · rw [List.count_eq_zero.mpr hno] at hcount
      omega
    · rcases partitionColon_cases tail with ⟨hno, -⟩ | ⟨b, c, htail, hb, -⟩
      · rw [hv, List.count_append, List.count_cons_self, List.count_eq_zero.mpr ha,
          List.count_eq_zero.mpr hno] at hcount
        omega
      · exact ⟨a, b, c, by rw [hv, htail], ha, hb⟩
  have hparts : colonParts (field ++ op ++ v).toList =
      some (field.toList ++ o :: (os ++ a), b, c) := by
    have htext : (field ++ op ++ v).toList =
        (field.toList ++ op.toList ++ a) ++ ':' :: (b ++ ':' :: c) := by
      simp [String.toList_append, hv]
    have hhead : ':' ∉ field.toList ++ op.toList ++ a := by
      rw [List.mem_append, List.mem_append]
      rintro ((h | h) | h)
      · exact hfield.not_mem (by simp) h
      · exact hcolon h
      · exact ha h
    rw [htext, colonParts_append hhead hb, hos, List.append_assoc, List.cons_append]
  obtain ⟨stripped, hstripped⟩ := stripSpaces_field hfield hblank (os ++ a)
  intro heq
  rw [parseFilterFlag, hparts] at heq
  simp only [hstripped] at heq
  obtain ⟨rest', hrest⟩ := dictToPredicate_field heq
  have hchars := congrArg String.toList hrest
  simp only [String.toList_append, String.toList_ofList, List.append_assoc, List.cons_append,
    List.append_cancel_left_eq] at hchars
  exact ho (List.cons.inj hchars).1.symm

/-- A predicate starts with its field and a blank. -/
theorem predicateText_field (lib : FlagLib) (field sqlOp v : String) :
    ∃ rest, predicateText lib field sqlOp v = field ++ " " ++ rest := by
  rw [predicateText]
  split
  · refine ⟨"IN (" ++ ", ".intercalate
      ((commaParts v).map fun part => quoteScalar (coerceScalar lib part)) ++ ")", ?_⟩
    apply String.toList_injective
    simp [String.toList_append]
  · refine ⟨sqlOp ++ " " ++ quoteScalar (coerceScalar lib v), ?_⟩
    apply String.toList_injective
    simp [String.toList_append]

/-- The form without colons gives the predicate of the other exactly where the value holds no
second colon and does not go on with the operator. -/
theorem parseFilterFlag_bare_iff {lib : FlagLib} (hlib : lib.Documented) {field op sqlOp v : String}
    (hfield : FieldName field) (hop : op ∈ bareOperators) (hkey : (op, sqlOp) ∈ operatorMap) :
    parseFilterFlag lib (field ++ op ++ v) = .ok (predicateText lib field sqlOp v) ↔
      v.toList.count ':' ≤ 1 ∧ ¬ Continues op v.toList := by
  obtain ⟨hnotin, hcolon, -, -, hself⟩ := bareOperators_spec op hop
  obtain ⟨hlookup, hiff⟩ := lookup_operatorMap _ hkey
  have hin : sqlOp ≠ "IN" := mt hiff.mpr hnotin
  have htext : field ++ op ++ v = field ++ String.ofList (op.toList ++ v.toList) := by
    apply String.toList_injective
    simp [String.toList_append]
  have hcolons : (op.toList ++ v.toList).count ':' = v.toList.count ':' := by
    rw [List.count_append, List.count_eq_zero.mpr hcolon, Nat.zero_add]
  by_cases hcount : v.toList.count ':' ≤ 1
  · by_cases hgoes : Continues op v.toList
    · refine iff_of_false ?_ fun h => h.2 hgoes
      obtain ⟨long, rest, longOp, hbare, hlong, hlist, hcase⟩ := bareOp_continues hgoes
      rw [htext, parseFilterFlag_bare hlib hfield (by omega) hbare hlong hlist]
      intro heq
      refine predicateText_ne ?_ (Except.ok.inj heq)
      -- the operators a value can go on with are their own SQL
      have hsame : op ∈ [">", "<", "="] → sqlOp = op := fun h =>
        Option.some.inj (hlookup.symm.trans (hself h))
      rcases hcase with ⟨hop, hlong, hv⟩ | ⟨hop, hlong⟩
      · left
        refine ⟨by rw [hsame (by simp [hop]), hop], hlong, ?_⟩
        exact quoteScalar_equals_ne hlib (by rw [hv, String.toList_ofList])
      · right
        rw [hsame (List.subset_append_left [">", "<"] ["="] hop)]
        exact ⟨hop, hlong⟩
    · refine iff_of_true ?_ ⟨hcount, hgoes⟩
      rw [htext, parseFilterFlag_bare hlib hfield (by omega) (bareOp_append hop hgoes) hkey hin,
        String.ofList_toList]
  · refine iff_of_false ?_ fun h => hcount h.1
    obtain ⟨rest, hrest⟩ := predicateText_field lib field sqlOp v
    rw [hrest]
    exact parseFilterFlag_colons hfield hop (by omega) rest

/-! ### Parsing back -/

theorem mem_intercalate {α : Type} {sep part : List α} {parts : List (List α)} {c : α}
    (h : part ∈ parts) (hc : c ∈ part) : c ∈ sep.intercalate parts := by
  induction parts with
  | nil => exact absurd h List.not_mem_nil
  | cons first parts ih =>
      cases parts with
      | nil =>
          rw [List.intercalate_singleton]
          rwa [← List.mem_singleton.mp h]
      | cons second parts =>
          rw [List.intercalate_cons_cons, List.mem_append, List.mem_append]
          rcases List.mem_cons.mp h with rfl | h
          · exact Or.inl (Or.inl hc)
          · exact Or.inr (ih h)

theorem mem_commaParts {v part : String} (h : part ∈ commaParts v) {c : Char}
    (hc : c ∈ part.toList) : c ∈ v.toList := by
  obtain ⟨cs, hcs, rfl⟩ := List.mem_map.mp h
  rw [String.toList_ofList] at hc
  have hsub : (stripSpaces cs).Sublist cs := by
    unfold stripSpaces
    rw [← List.reverse_sublist, List.reverse_reverse]
    exact (List.dropWhile_sublist _).trans (List.reverse_sublist.mpr (List.dropWhile_sublist _))
  have hmem : c ∈ [','].intercalate (v.toList.splitOn ',') :=
    mem_intercalate hcs (hsub.subset hc)
  rwa [List.intercalate_splitOn] at hmem

/-- The predicate parses back where Python reads the value, or every value of the list, as what it
says. -/
theorem readsBack_predicateText {parse : String → Option Expr} {lib : FlagLib} {escapes : Bool}
    {field sqlOp v : String} (hlib : lib.Documented)
    (hcompare : sqlOp ≠ "IN" → ReadsComparisons parse escapes field)
    (hlist : sqlOp = "IN" → ReadsLists parse escapes field)
    (hescape : escapes = false ∨ '\\' ∉ v.toList)
    (hop : sqlOp ∈ operatorMap.map (·.2)) :
    ReadsBack parse field sqlOp v (predicateText lib field sqlOp v) ↔
      if sqlOp = "IN" then ∀ part ∈ commaParts v, ReadExactly lib part else ReadExactly lib v := by
  unfold ReadsBack predicateText
  by_cases hin : sqlOp = "IN"
  · rw [if_pos hin, if_pos hin, if_pos hin]
    -- each part is read back on its own, so the list is read back part by part
    have hparts : ∀ parts : List String, (∀ part ∈ parts, escapes = false ∨ '\\' ∉ part.toList) →
        ∃ es, List.Forall₂ (fun (text : String) e => readOperand escapes text.toList = some e)
            (parts.map fun part => quoteScalar (coerceScalar lib part)) es ∧
          (List.Forall₂ (fun (part : String) e => LiteralDenotes part.toList e) parts es ↔
            ∀ part ∈ parts, ReadExactly lib part) := by
      intro parts
      induction parts with
      | nil => exact fun _ => ⟨[], List.Forall₂.nil, by simp⟩
      | cons part parts ih =>
          intro hall
          obtain ⟨es, hes, hiff⟩ := ih fun p hp => hall p (List.mem_cons_of_mem _ hp)
          obtain ⟨e, he, hdenotes, -⟩ := denotes_coerced hlib (hall part List.mem_cons_self)
          refine ⟨e :: es, List.Forall₂.cons he hes, ?_⟩
          rw [List.forall₂_cons, List.forall_mem_cons, hdenotes, hiff]
    obtain ⟨es, hes, hiff⟩ := hparts (commaParts v) fun part hpart =>
      hescape.imp_right fun hno hmem => hno (mem_commaParts hpart hmem)
    have hne : (commaParts v).map (fun part => quoteScalar (coerceScalar lib part)) ≠ [] := by
      simp [commaParts, List.splitOn_ne_nil]
    rw [hlist hin _ es hne hes, ← hiff]
    constructor
    · rintro ⟨es', heq, h⟩
      cases heq
      exact h
    · exact fun h => ⟨es, rfl, h⟩
  · rw [if_neg hin, if_neg hin, if_neg hin]
    have hops : ∀ s ∈ operatorMap.map (·.2), s ≠ "IN" → (comparisonOps.lookup s).isSome := by
      decide
    obtain ⟨op, hlookup⟩ := Option.isSome_iff_exists.mp (hops sqlOp hop hin)
    obtain ⟨e, he, hiff, -⟩ := @denotes_coerced lib hlib escapes v hescape
    rw [hcompare hin sqlOp op _ e hlookup he, ← hiff]
    constructor
    · rintro ⟨op', e', -, heq, h⟩
      cases heq
      exact h
    · exact fun h => ⟨op, e, hlookup, rfl, h⟩

/-- Where the SQL parser reads the field name and the literals, a filter flag round-trips exactly
under `FlagCondition`. -/
theorem flagRoundTrips_iff {parse : String → Option Expr} {lib : FlagLib} {escapes : Bool}
    {field op key sqlOp v : String} (hlib : lib.Documented) (hfield : FieldName field)
    (hcolon : ':' ∉ op.toList) (hop : lib.upper (String.ofList (stripSpaces op.toList)) = key)
    (hkey : (key, sqlOp) ∈ operatorMap)
    (hcompare : sqlOp ≠ "IN" → ReadsComparisons parse escapes field)
    (hlist : sqlOp = "IN" → ReadsLists parse escapes field)
    (hescape : escapes = false ∨ '\\' ∉ v.toList) :
    FlagRoundTrips parse lib field op sqlOp v ↔ FlagCondition lib op sqlOp v := by
  have hform := parseFilterFlag_colon hlib hfield hcolon hop hkey v
  have hreads := readsBack_predicateText (v := v) hlib hcompare hlist hescape
    (List.mem_map.mpr ⟨_, hkey, rfl⟩)
  rw [FlagRoundTrips, FlagCondition, hform, ← hreads]
  apply and_congr
  · constructor
    · rintro ⟨predicate, heq, h⟩
      rw [Except.ok.inj heq]
      exact h
    · exact fun h => ⟨_, rfl, h⟩
  · apply forall_congr'
    intro hbare
    obtain ⟨-, -, hmem, hstrip, -⟩ := bareOperators_spec op hbare
    have hself : op = key := by
      rw [← hop, hstrip, String.ofList_toList, hlib.upper_key op hmem]
    subst hself
    exact parseFilterFlag_bare_iff hlib hfield hbare hkey

/-- Upper case of ASCII, and numbers printed with a point. -/
private def asciiFlags : FlagLib where
  upper text := String.ofList (text.toList.map Char.toUpper)
  floatStr text :=
    if (plainDecimal text.toList).isSome then
      some (if '.' ∈ text.toList then text else text ++ ".0")
    else none

/-- Comparisons of the column `at`. -/
private def parseAt (text : String) : Option Expr :=
  match text.toList with
  | 'a' :: 't' :: ' ' :: cs => do
      let (op, literal) ← match cs with
        | '=' :: ' ' :: v => some (Sql.Op.eq, v)
        | '!' :: '=' :: ' ' :: v => some (.neq, v)
        | '>' :: ' ' :: v => some (.gt, v)
        | '<' :: ' ' :: v => some (.lt, v)
        | '>' :: '=' :: ' ' :: v => some (.gte, v)
        | '<' :: '=' :: ' ' :: v => some (.lte, v)
        | 'L' :: 'I' :: 'K' :: 'E' :: ' ' :: v => some (.func "Like", v)
        | _ => none
      let e ← readOperand false literal
      return .node op [.bare "at", e]
  | _ => none

theorem plainDecimal_chars {cs : List Char} (h : (plainDecimal cs).isSome) :
    ∀ c ∈ cs, c.isDigit = true ∨ c = '.' ∨ c = '-' := by
  have hmantissa : ∀ ds, (mantissa ds).isSome → ∀ c ∈ ds, c.isDigit = true ∨ c = '.' ∨ c = '-' := by
    intro ds hds c hc
    obtain ⟨q, hq⟩ := Option.isSome_iff_exists.mp hds
    rcases mantissa_cases hq with ⟨-, hdigits, -⟩ | ⟨-, hdigits⟩
    · exact Or.inl (hdigits c hc)
    · exact (hdigits c hc).imp_right Or.inl
  unfold plainDecimal at h
  split at h
  next ds =>
    rw [Option.isSome_map] at h
    intro c hc
    rcases List.mem_cons.mp hc with rfl | hc
    · exact Or.inr (Or.inr rfl)
    · exact hmantissa ds h c hc
  next => exact hmantissa cs h

/-- A plain numeral is a printed number. -/
theorem printedNumber_plain {cs : List Char} (h : (plainDecimal cs).isSome) :
    printedNumber cs = plainDecimal cs := by
  have hno : 'e' ∉ cs := fun he => by
    rcases plainDecimal_chars h 'e' he with h | h | h <;> exact absurd h (by decide)
  unfold printedNumber plainDecimal
  split
  next ds => rw [numeral_of_no_exponent fun he => hno (List.mem_cons_of_mem _ he)]
  next => exact numeral_of_no_exponent hno

theorem mantissa_point {cs : List Char} (h : (mantissa cs).isSome) (hpoint : '.' ∉ cs) :
    (mantissa (cs ++ ['.', '0'])).isSome := by
  obtain ⟨q, hq⟩ := Option.isSome_iff_exists.mp h
  rcases mantissa_cases hq with ⟨hne, hdigits, -⟩ | ⟨hmem, -⟩
  · have hdrop : (cs ++ ['.', '0']).dropWhile Char.isDigit = '.' :: ['0'] := by
      rw [List.dropWhile_append_of_pos hdigits]
      decide
    have htake : (cs ++ ['.', '0']).takeWhile Char.isDigit = cs := by
      rw [List.takeWhile_append_of_pos hdigits]
      exact List.append_nil cs
    have hvalue : digitsValue cs = some (Nat.ofDigitChars 10 cs 0) := by
      rw [digitsValue, if_pos ⟨hne, List.all_eq_true.mpr hdigits⟩]
    have hzero : digitsValue ['0'] = some 0 := by decide
    rw [mantissa, hdrop]
    simp [htake, hvalue, hzero]
  · exact absurd hmem hpoint

private theorem asciiFlags_float (t : String) : asciiFlags.floatStr t =
    if (plainDecimal t.toList).isSome then some (if '.' ∈ t.toList then t else t ++ ".0")
    else none := rfl

private theorem asciiFlags_documented : asciiFlags.Documented where
  upper_key := by decide
  float_accepts t h := by
    rw [asciiFlags_float, if_pos h]
    rfl
  float_printed t p h := by
    left
    rw [asciiFlags_float] at h
    by_cases hplain : (plainDecimal t.toList).isSome
    · rw [if_pos hplain, Option.some.injEq] at h
      by_cases hpoint : '.' ∈ t.toList
      · rw [if_pos hpoint] at h
        rw [← h, printedNumber_plain hplain]
        exact hplain
      · have hlonger : (plainDecimal (t ++ ".0").toList).isSome := by
          have htext : (t ++ ".0").toList = t.toList ++ ['.', '0'] := String.toList_append
          rw [htext]
          generalize t.toList = cs at hplain hpoint
          unfold plainDecimal at hplain
          split at hplain
          next ds =>
            rw [Option.isSome_map] at hplain
            rw [List.cons_append, plainDecimal, Option.isSome_map]
            exact mantissa_point hplain fun hmem => hpoint (List.mem_cons_of_mem _ hmem)
          next hminus =>
            have hfront : plainDecimal (cs ++ ['.', '0']) = mantissa (cs ++ ['.', '0']) := by
              cases cs with
              | nil => rfl
              | cons c cs =>
                  rw [List.cons_append, plainDecimal]
                  rintro ds ⟨⟩
                  exact hminus cs rfl
            rw [hfront]
            exact mantissa_point hplain hpoint
        rw [if_neg hpoint] at h
        rw [← h, printedNumber_plain hlonger]
        exact hlonger
    · rw [if_neg hplain] at h
      cases h
  float_refuses t h := by
    rw [asciiFlags_float, if_neg]
    intro hsome
    rcases plainDecimal_chars hsome '=' h with h | h | h <;> exact absurd h (by decide)

private theorem parseAt_reads : ReadsComparisons parseAt false "at" := by
  intro sqlOp op text e hop he
  have htext : ∀ s : String, ("at" ++ " " ++ s ++ " " ++ text).toList =
      'a' :: 't' :: ' ' :: (s.toList ++ ' ' :: text.toList) := by
    intro s
    simp [String.toList_append]
  have hmem : (sqlOp, op) ∈ comparisonOps := mem_of_lookup hop
  simp only [comparisonOps, List.mem_cons, List.not_mem_nil, or_false, Prod.mk.injEq] at hmem
  unfold parseAt
  rw [htext]
  rcases hmem with ⟨rfl, rfl⟩ | ⟨rfl, rfl⟩ | ⟨rfl, rfl⟩ | ⟨rfl, rfl⟩ | ⟨rfl, rfl⟩ | ⟨rfl, rfl⟩ |
    ⟨rfl, rfl⟩ <;> simp [he]

private theorem fieldName_at : FieldName "at" where
  nonempty := by decide
  stripped := by decide
  plain := by simp

/-- A day compared without colons. -/
theorem flagRoundTrips_date :
    FlagRoundTrips parseAt asciiFlags "at" ">=" ">=" "2024-01-01" := by
  refine (@flagRoundTrips_iff parseAt asciiFlags false "at" ">=" ">=" ">=" "2024-01-01"
    asciiFlags_documented fieldName_at ?_ ?_ ?_ (fun _ => parseAt_reads) (fun h => absurd h ?_)
    (Or.inl rfl)).mpr ⟨?_, ?_⟩
  · decide
  · decide
  · decide
  · decide
  · have hplain : plainDecimal "2024-01-01".toList = none := by decide +kernel
    rw [if_neg (by decide), ReadExactly, hplain]
    exact ⟨by decide +kernel, by decide +kernel⟩
  · intro _
    refine ⟨by decide, ?_⟩
    rintro (⟨h, -⟩ | ⟨h, -⟩)
    · exact absurd h (by decide)
    · exact absurd h (by decide)

/-- A time of day has two colons: the flag is taken for the other form, whose operator it does not
know. -/
theorem flagRoundTrips_counterexample :
    asciiFlags.Documented ∧ FieldName "at" ∧ ReadsComparisons parseAt false "at" ∧
      ¬ FlagRoundTrips parseAt asciiFlags "at" ">=" ">=" "2024-01-01T00:00:00" := by
  refine ⟨asciiFlags_documented, fieldName_at, parseAt_reads, ?_⟩
  rintro ⟨-, hsame⟩
  have hinline := hsame (by decide)
  rw [@parseFilterFlag_colon asciiFlags asciiFlags_documented "at" ">=" ">=" ">=" fieldName_at
    (by decide) (by decide) (by decide)] at hinline
  have hcount := ((parseFilterFlag_bare_iff asciiFlags_documented fieldName_at (by decide)
    (by decide)).mp hinline).1
  exact absurd hcount (by decide)

end Canonic
