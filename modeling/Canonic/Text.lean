import Mathlib

set_option autoImplicit false

/-! # Text

The string operations of Python the compiler relies on: the text `repr` gives a string (messages
quote names with it), and the components of a dotted name. They work on lists of characters, so
that they can be evaluated. -/

namespace Canonic

/-! ## Dotted names -/

/-- The characters before and after the first `.`. -/
def splitAtDot : List Char → Option (List Char × List Char)
  | [] => none
  | c :: cs =>
      if c = '.' then some ([], cs)
      else (splitAtDot cs).map fun p => (c :: p.1, p.2)

/-- The characters after the last `.`, all of them when there is none. -/
def afterLastDot : List Char → List Char
  | [] => []
  | c :: cs => if '.' ∈ c :: cs then afterLastDot cs else c :: cs

/-- `role, rest = name.split(".", 1)`, when there is a dot. -/
def splitRole (name : String) : Option (String × String) :=
  (splitAtDot name.toList).map fun p => (String.ofList p.1, String.ofList p.2)

/-- `name.split(".")[-1]`, the same as `name.rsplit(".", 1)[-1]`. -/
def lastComponent (name : String) : String := String.ofList (afterLastDot name.toList)

theorem dot_notMem_afterLastDot (cs : List Char) : '.' ∉ afterLastDot cs := by
  induction cs with
  | nil => simp [afterLastDot]
  | cons c cs ih =>
      rw [afterLastDot]
      split
      · exact ih
      next h => exact h

theorem afterLastDot_of_notMem {cs : List Char} (h : '.' ∉ cs) : afterLastDot cs = cs := by
  cases cs with
  | nil => rfl
  | cons c cs => rw [afterLastDot, if_neg h]

/-- The last component of a name has no components of its own. -/
@[simp] theorem lastComponent_lastComponent (name : String) :
    lastComponent (lastComponent name) = lastComponent name := by
  simp [lastComponent, afterLastDot_of_notMem (dot_notMem_afterLastDot _)]

theorem splitAtDot_eq {cs : List Char} {p : List Char × List Char} (h : splitAtDot cs = some p) :
    cs = p.1 ++ '.' :: p.2 := by
  induction cs generalizing p with
  | nil => simp [splitAtDot] at h
  | cons c cs ih =>
      rw [splitAtDot] at h
      split at h
      next hc =>
        subst hc
        simp only [Option.some.injEq] at h
        simp [← h]
      next hc =>
        obtain ⟨q, hq, rfl⟩ := Option.map_eq_some_iff.mp h
        simp [ih hq]

/-- A name is decided by what stands before and after its first dot. -/
theorem splitRole_inj {a b : String} {p : String × String} (ha : splitRole a = some p)
    (hb : splitRole b = some p) : a = b := by
  obtain ⟨q, hq, rfl⟩ := Option.map_eq_some_iff.mp ha
  obtain ⟨q', hq', heq⟩ := Option.map_eq_some_iff.mp hb
  simp only [Prod.mk.injEq, String.ofList_inj] at heq
  apply String.ext
  rw [splitAtDot_eq hq, splitAtDot_eq hq', heq.1, heq.2]

/-! ## Order of texts -/

/-- Texts of one length that differ compare as their continuations do. -/
theorem append_lt_append {s t : List Char} (h : s < t) (hlen : s.length = t.length)
    (a b : List Char) : s ++ a < t ++ b := by
  induction s generalizing t with
  | nil =>
      cases t with
      | nil => simp at h
      | cons y t => simp at hlen
  | cons x s ih =>
      cases t with
      | nil => simp at hlen
      | cons y t =>
          rw [List.cons_lt_cons_iff] at h
          rw [List.cons_append, List.cons_append, List.cons_lt_cons_iff]
          rcases h with h | ⟨rfl, h⟩
          · exact Or.inl h
          · exact Or.inr ⟨rfl, ih h (by simpa using hlen)⟩

/-! ## Texts with separators -/

/-- A text up to a separator, and what the separator starts, can be told apart. -/
theorem append_inj_of_sep {α : Type} {sep : α} {a a' f f' : List α} (ha : sep ∉ a)
    (ha' : sep ∉ a') (hf : f = [] ∨ ∃ t, f = sep :: t) (hf' : f' = [] ∨ ∃ t, f' = sep :: t)
    (h : a ++ f = a' ++ f') : a = a' ∧ f = f' := by
  induction a generalizing a' with
  | nil =>
      cases a' with
      | nil => exact ⟨rfl, h⟩
      | cons c cs =>
          rcases hf with rfl | ⟨t, rfl⟩
          · simp at h
          · simp only [List.nil_append, List.cons_append, List.cons.injEq] at h
            exact absurd (by simp [h.1]) ha'
  | cons c cs ih =>
      cases a' with
      | nil =>
          rcases hf' with rfl | ⟨t, rfl⟩
          · simp at h
          · simp only [List.nil_append, List.cons_append, List.cons.injEq] at h
            exact absurd (by simp [h.1]) ha
      | cons c' cs' =>
          simp only [List.cons_append, List.cons.injEq] at h
          obtain ⟨rfl, h⟩ := h
          simp only [List.mem_cons, not_or] at ha ha'
          obtain ⟨rfl, hff⟩ := ih ha.2 ha'.2 h
          exact ⟨rfl, hff⟩

/-- Two texts around a separator that the first does not have. -/
theorem join_inj {sep : Char} {a a' b b' : String} (ha : sep ∉ a.toList) (ha' : sep ∉ a'.toList)
    (h : a.toList ++ sep :: b.toList = a'.toList ++ sep :: b'.toList) : a = a' ∧ b = b' := by
  obtain ⟨h1, h2⟩ := append_inj_of_sep ha ha' (.inr ⟨_, rfl⟩) (.inr ⟨_, rfl⟩) h
  exact ⟨String.toList_inj.mp h1, String.toList_inj.mp (List.cons.inj h2).2⟩

/-- The same around a separator that the second does not have. -/
theorem join_inj_right {sep : Char} {a a' b b' : String} (hb : sep ∉ b.toList)
    (hb' : sep ∉ b'.toList)
    (h : a.toList ++ sep :: b.toList = a'.toList ++ sep :: b'.toList) : a = a' ∧ b = b' := by
  have hr := congrArg List.reverse h
  simp only [List.reverse_append, List.reverse_cons, List.append_assoc, List.singleton_append] at hr
  obtain ⟨h1, h2⟩ := append_inj_of_sep (by simpa using hb) (by simpa using hb') (.inr ⟨_, rfl⟩)
    (.inr ⟨_, rfl⟩) hr
  exact ⟨String.toList_inj.mp (List.reverse_injective (List.cons.inj h2).2),
    String.toList_inj.mp (List.reverse_injective h1)⟩

/-! ## Quoted names -/

/-- Two lower-case hexadecimal digits. -/
def hexByte (n : Nat) : List Char :=
  let digit (d : Nat) : Char := (Nat.digitChar d)
  [digit (n / 16), digit (n % 16)]

/-- One character inside a `repr` quoted with `quote`. -/
def pyReprChar (quote c : Char) : List Char :=
  if c = '\\' then ['\\', '\\']
  else if c = quote then ['\\', quote]
  else if c = '\n' then ['\\', 'n']
  else if c = '\r' then ['\\', 'r']
  else if c = '\t' then ['\\', 't']
  else if c.toNat < 32 ∨ c.toNat = 127 then '\\' :: 'x' :: hexByte c.toNat
  else [c]

/-- Python's `repr` of a string: single quotes unless the text has one and no double quote. -/
def pyRepr (s : String) : String :=
  let cs := s.toList
  let quote := if '\'' ∈ cs ∧ '"' ∉ cs then '"' else '\''
  String.ofList (quote :: cs.flatMap (pyReprChar quote) ++ [quote])

/-- Python's `repr` of a list of strings. -/
def pyReprList (xs : List String) : String :=
  "[" ++ ", ".intercalate (xs.map pyRepr) ++ "]"

/-- `", ".join(repr(n) for n in names)`. -/
def reprNames (names : List String) : String :=
  ", ".intercalate (names.map pyRepr)

/-- The `; did you mean: …` suffix of an unknown name, empty without suggestions. -/
def suggestionHint (suggestions : List String) : String :=
  if suggestions.isEmpty then "" else "; did you mean: " ++ ", ".intercalate suggestions

end Canonic
