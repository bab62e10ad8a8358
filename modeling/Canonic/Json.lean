import Canonic.Dict

set_option autoImplicit false

/-! # JSON values

The values that a parsed YAML or JSON file is made of, with Python's view of them. An object is
a dictionary in insertion order, and Python compares two of them regardless of that order: `pyEq`
is Python's `==`, which is coarser than equality of the values as written. -/

namespace Canonic

/-- A JSON value. A number is an integer or a float; Python compares the two by value. -/
inductive Json where
  | null
  | bool (b : Bool)
  | num (q : ℚ)
  | str (s : String)
  | arr (items : List Json)
  | obj (fields : List (String × Json))

/-- The fields of a file, or of a record that becomes one. -/
abbrev Content := Dict Json

/-! ## Decidable equality -/

mutual
def Json.decEq : (a b : Json) → Decidable (a = b)
  | .null, .null => isTrue rfl
  | .bool x, .bool y => if h : x = y then isTrue (by rw [h]) else isFalse (by simpa using h)
  | .num x, .num y => if h : x = y then isTrue (by rw [h]) else isFalse (by simpa using h)
  | .str x, .str y => if h : x = y then isTrue (by rw [h]) else isFalse (by simpa using h)
  | .arr xs, .arr ys =>
      match Json.decEqs xs ys with
      | isTrue h => isTrue (by rw [h])
      | isFalse h => isFalse (by simpa using h)
  | .obj xs, .obj ys =>
      match Json.decEqFields xs ys with
      | isTrue h => isTrue (by rw [h])
      | isFalse h => isFalse (by simpa using h)
  | .null, .bool _ | .null, .num _ | .null, .str _ | .null, .arr _ | .null, .obj _ =>
      isFalse (by simp)
  | .bool _, .null | .bool _, .num _ | .bool _, .str _ | .bool _, .arr _ | .bool _, .obj _ =>
      isFalse (by simp)
  | .num _, .null | .num _, .bool _ | .num _, .str _ | .num _, .arr _ | .num _, .obj _ =>
      isFalse (by simp)
  | .str _, .null | .str _, .bool _ | .str _, .num _ | .str _, .arr _ | .str _, .obj _ =>
      isFalse (by simp)
  | .arr _, .null | .arr _, .bool _ | .arr _, .num _ | .arr _, .str _ | .arr _, .obj _ =>
      isFalse (by simp)
  | .obj _, .null | .obj _, .bool _ | .obj _, .num _ | .obj _, .str _ | .obj _, .arr _ =>
      isFalse (by simp)

def Json.decEqs : (as bs : List Json) → Decidable (as = bs)
  | [], [] => isTrue rfl
  | [], _ :: _ => isFalse (by simp)
  | _ :: _, [] => isFalse (by simp)
  | a :: as, b :: bs =>
      match Json.decEq a b with
      | isFalse h => isFalse (by simp [h])
      | isTrue h =>
        match Json.decEqs as bs with
        | isTrue h' => isTrue (by rw [h, h'])
        | isFalse h' => isFalse (by simp [h'])

def Json.decEqFields : (as bs : List (String × Json)) → Decidable (as = bs)
  | [], [] => isTrue rfl
  | [], _ :: _ => isFalse (by simp)
  | _ :: _, [] => isFalse (by simp)
  | (k, a) :: as, (l, b) :: bs =>
      if hk : k = l then
        match Json.decEq a b with
        | isFalse h => isFalse (by simp [h])
        | isTrue h =>
          match Json.decEqFields as bs with
          | isTrue h' => isTrue (by rw [hk, h, h'])
          | isFalse h' => isFalse (by simp [h'])
      else isFalse (by simp [hk])
end

instance instDecidableEqJson : DecidableEq Json := Json.decEq

namespace Json

/-! ## Python's view of a value -/

/-- `bool(value)`. -/
def truthy : Json → Bool
  | null => false
  | bool b => b
  | num q => q ≠ 0
  | str s => s ≠ ""
  | arr xs => !xs.isEmpty
  | obj xs => !xs.isEmpty

mutual
/-- `a == b`: numbers and booleans by value, objects regardless of the order of their keys. -/
def pyEq : Json → Json → Bool
  | null, null => true
  | bool x, bool y => x == y
  | bool x, num q => q == if x then 1 else 0
  | num q, num r => q == r
  | num q, bool y => q == if y then 1 else 0
  | str s, str t => s == t
  | arr xs, arr ys => pyEqs xs ys
  | obj xs, obj ys => xs.length == ys.length && pyEqFields xs ys
  | _, _ => false

/-- Lists are compared element by element. -/
def pyEqs : List Json → List Json → Bool
  | [], [] => true
  | a :: as, b :: bs => pyEq a b && pyEqs as bs
  | _, _ => false

/-- Every field of the first dictionary is in the second. -/
def pyEqFields : List (String × Json) → List (String × Json) → Bool
  | [], _ => true
  | (k, a) :: as, ys => ((ys.lookup k).elim false fun b => pyEq a b) && pyEqFields as ys
end

/-- `a == b` where an absent key reads as `None`. -/
def pyEqOpt (a b : Option Json) : Bool := pyEq (a.getD null) (b.getD null)

/-- The elements a `for` loop runs through; a value that is not iterable raises. -/
def iter : Json → Option (List Json)
  | arr xs => some xs
  | obj xs => some (xs.map fun p => str p.1)
  | str s => some (s.toList.map fun c => str (String.singleton c))
  | _ => none

mutual
/-- The compact text of a value whose numbers are whole, keys in the order they stand. -/
def render : Json → String
  | null => "null"
  | bool b => if b then "true" else "false"
  | num q => toString q.num
  | str s => "\"" ++ s ++ "\""
  | arr xs => "[" ++ renderItems xs ++ "]"
  | obj xs => "\x7b" ++ renderFields xs ++ "\x7d"

def renderItems : List Json → String
  | [] => ""
  | x :: xs => render x ++ ", " ++ renderItems xs

def renderFields : List (String × Json) → String
  | [] => ""
  | (k, x) :: xs => "\"" ++ k ++ "\": " ++ render x ++ ", " ++ renderFields xs
end

end Json

/-! ## Library functions on values of any shape -/

/-- The library functions that are called on values of any shape. -/
structure PyLib where
  /-- `str(value)`. -/
  str : Json → String
  /-- A text is its own `str`. -/
  str_text : ∀ s, str (.str s) = s
  /-- `json.dumps(content, sort_keys=True, default=str)`. -/
  dumps : Content → String
  /-- `str.lower`. -/
  lower : String → String
  /-- The value an `int` field accepts, if it does. -/
  asInt : Json → Option Int

/-- The library on plain values: texts of ASCII letters, whole numbers, keys in sorted order. -/
def PyLib.plain : PyLib where
  str
    | .str s => s
    | value => value.render
  str_text _ := rfl
  dumps content := (Json.obj content).render
  lower s := s.map Char.toLower
  asInt
    | .num q => if q.den = 1 then some q.num else none
    | _ => none

end Canonic
