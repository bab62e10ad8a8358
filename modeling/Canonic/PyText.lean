import Mathlib
import Canonic.Contracts.Principal

set_option autoImplicit false

/-! # Numbers and blanks

Python's `int` and `str.strip`: what they do to the digits of a numeral and to the ends of a
text. -/

namespace Canonic

/-- `text.strip()`. -/
def stripSpaces (cs : List Char) : List Char :=
  ((cs.dropWhile isPySpace).reverse.dropWhile isPySpace).reverse

theorem toNat_of_isDigit {c : Char} (h : c.isDigit = true) : 48 ≤ c.toNat ∧ c.toNat ≤ 57 := by
  simp only [Char.isDigit, Bool.and_eq_true, decide_eq_true_eq] at h
  exact ⟨UInt32.le_iff_toNat_le.mp h.1, UInt32.le_iff_toNat_le.mp h.2⟩

theorem decimalDigit_ascii {c : Char} (h : c.isDigit = true) :
    decimalDigit c = some (c.toNat - 48) := by
  have hrange := toNat_of_isDigit h
  simp [decimalDigit, decimalZeros, hrange]

theorem isPySpace_of_isDigit {c : Char} (h : c.isDigit = true) : isPySpace c = false := by
  have hrange := toNat_of_isDigit h
  rw [isPySpace, decide_eq_false_iff_not]
  simp only [List.mem_cons, List.not_mem_nil, or_false]
  omega

theorem isIntSpace_ascii {c : Char} (h : c.isDigit = true ∨ c = '.' ∨ c = '-') :
    isIntSpace c = false := by
  rcases h with h | rfl | rfl
  · rw [isIntSpace, isPySpace_of_isDigit h]
    rfl
  · decide
  · decide

theorem pyDigits_digits {cs : List Char} (h : ∀ c ∈ cs, c.isDigit = true) {after : Bool} {acc : ℕ}
    (hne : cs ≠ [] ∨ after = true) : pyDigits cs after acc = some (Nat.ofDigitChars 10 cs acc) := by
  induction cs generalizing after acc with
  | nil =>
      have hafter := hne.resolve_left (by simp)
      rw [pyDigits, if_pos hafter, Nat.ofDigitChars_nil]
  | cons c cs ih =>
      have hc := h c List.mem_cons_self
      have hunder : c ≠ '_' := by
        rintro rfl
        exact absurd hc (by decide)
      rw [pyDigits, if_neg hunder, decimalDigit_ascii hc, Option.bind_some,
        ih (fun d hd => h d (List.mem_cons_of_mem _ hd)) (Or.inr rfl), Nat.ofDigitChars_cons]
      rfl

/-- The end of a text without blanks is where it was. -/
theorem dropWhile_both_ends {p : Char → Bool} {cs : List Char} (h : ∀ c ∈ cs, p c = false) :
    (((cs.dropWhile p).reverse).dropWhile p).reverse = cs := by
  have hdrop : ∀ ds : List Char, (∀ c ∈ ds, p c = false) → ds.dropWhile p = ds := by
    intro ds hds
    cases ds with
    | nil => rfl
    | cons d ds => exact List.dropWhile_cons_of_neg (by simp [hds d List.mem_cons_self])
  rw [hdrop cs h, hdrop _ fun c hc => h c (List.mem_reverse.mp hc), List.reverse_reverse]

/-- Stripping from the left stops at a character that is no blank. -/
theorem dropWhile_append_cons {p : Char → Bool} {c : Char} (hc : p c = false)
    (xs ys : List Char) : (xs ++ c :: ys).dropWhile p = xs.dropWhile p ++ c :: ys := by
  induction xs with
  | nil =>
      rw [List.nil_append, List.dropWhile_cons_of_neg (by simp [hc])]
      rfl
  | cons x xs ih =>
      rw [List.cons_append]
      cases hx : p x with
      | true => rw [List.dropWhile_cons_of_pos hx, List.dropWhile_cons_of_pos hx, ih]
      | false =>
          rw [List.dropWhile_cons_of_neg (by simp [hx]), List.dropWhile_cons_of_neg (by simp [hx]),
            List.cons_append]

/-- What stands up to a character that is no blank is not stripped from the end. -/
theorem reverse_dropWhile_append {p : Char → Bool} {c : Char} (hc : p c = false)
    (front cs : List Char) : (((front ++ c :: cs).reverse).dropWhile p).reverse =
      front ++ c :: ((cs.reverse).dropWhile p).reverse := by
  have hsplit : (front ++ c :: cs).reverse = cs.reverse ++ c :: front.reverse := by simp
  rw [hsplit, dropWhile_append_cons hc]
  simp

/-- `int` of a short text of ASCII digits. -/
theorem pyInt_digits {cs : List Char} (h : ∀ c ∈ cs, c.isDigit = true) (hne : cs ≠ [])
    (hlen : cs.length ≤ maxStrDigits) :
    pyInt (String.ofList cs) = some (Nat.ofDigitChars 10 cs 0 : ℕ) := by
  have hcount : ¬ maxStrDigits < cs.countP fun c => (decimalDigit c).isSome := by
    have := List.countP_le_length (l := cs) (p := fun c => (decimalDigit c).isSome)
    omega
  unfold pyInt
  rw [String.toList_ofList, if_neg hcount,
    dropWhile_both_ends fun c hc => isIntSpace_ascii (Or.inl (h c hc))]
  split
  next ds => exact absurd (h '-' List.mem_cons_self) (by decide)
  next ds => exact absurd (h '+' List.mem_cons_self) (by decide)
  next =>
    rw [pyDigits_digits h (Or.inl hne)]
    rfl

end Canonic
