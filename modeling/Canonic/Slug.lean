import Mathlib

set_option autoImplicit false

/-! # Slugs

The part of a text that is kept in a file name: its lower-case ASCII letters and digits, with one
separator in the place of every run of other characters. The texts are lists of characters. -/

namespace Canonic.Slug

/-- `[a-z0-9]`. -/
def isWord (c : Char) : Bool := ('a' ≤ c && c ≤ 'z') || ('0' ≤ c && c ≤ '9')

/-- `re.sub("[^a-z0-9]+", sep, text)`, with the run that is open. -/
def collapse (sep : Char) : Bool → List Char → List Char
  | _, [] => []
  | inRun, c :: cs =>
      if isWord c then c :: collapse sep false cs
      else if inRun then collapse sep true cs
      else sep :: collapse sep true cs

/-- `text.strip(sep)`. -/
def strip (sep : Char) (cs : List Char) : List Char :=
  (cs.dropWhile (· == sep)).rdropWhile (· == sep)

/-- Both together. -/
def slug (sep : Char) (cs : List Char) : List Char := strip sep (collapse sep false cs)

/-- Words of letters and digits, joined by single separators. -/
structure Valid (sep : Char) (cs : List Char) : Prop where
  nonempty : cs ≠ []
  chars : ∀ c ∈ cs, isWord c = true ∨ c = sep
  single : cs.IsChain fun a b => ¬ (a = sep ∧ b = sep)
  first : cs.head? ≠ some sep
  last : cs.getLast? ≠ some sep

variable {sep : Char}

/-! ## Lengths -/

theorem length_collapse_le (inRun : Bool) (cs : List Char) :
    (collapse sep inRun cs).length ≤ cs.length := by
  induction cs generalizing inRun with
  | nil => simp [collapse]
  | cons c cs ih =>
      have hfalse := ih false
      have htrue := ih true
      rw [collapse]
      split
      · simpa using hfalse
      · split
        · rw [List.length_cons]
          omega
        · simpa using htrue

theorem strip_sublist (cs : List Char) : (strip sep cs).Sublist cs :=
  (List.rdropWhile_prefix _ _).sublist.trans (List.dropWhile_sublist _)

theorem length_slug_le (cs : List Char) : (slug sep cs).length ≤ cs.length :=
  calc (slug sep cs).length
      ≤ (collapse sep false cs).length := (strip_sublist _).length_le
    _ ≤ cs.length := length_collapse_le false cs

/-! ## The texts that are slugs -/

/-- Collapsing leaves a text as it is where nothing but separators stands between its words, and
no two of them in a row. -/
theorem collapse_eq_self_iff (hsep : isWord sep = false) (inRun : Bool) (cs : List Char) :
    collapse sep inRun cs = cs ↔ (∀ c ∈ cs, isWord c = true ∨ c = sep) ∧
      (cs.IsChain fun a b => ¬ (a = sep ∧ b = sep)) ∧ (inRun = true → cs.head? ≠ some sep) := by
  induction cs generalizing inRun with
  | nil => simp [collapse]
  | cons c cs ih =>
      have hchain : ((c :: cs).IsChain fun a b => ¬ (a = sep ∧ b = sep)) ↔
          (c = sep → cs.head? ≠ some sep) ∧ cs.IsChain fun a b => ¬ (a = sep ∧ b = sep) := by
        cases cs with
        | nil => simp
        | cons d ds => simp [List.isChain_cons_cons]
      rw [collapse, hchain]
      by_cases hc : isWord c = true
      · have hne : c ≠ sep := by
          rintro rfl
          simp [hsep] at hc
        simp [hc, hne, ih]
      · rw [if_neg hc]
        cases inRun with
        | true =>
            -- a run that goes on is shortened
            have hlen : (collapse sep true cs).length ≤ cs.length := length_collapse_le true cs
            have hleft : collapse sep true cs ≠ c :: cs := by
              intro heq
              rw [heq, List.length_cons] at hlen
              omega
            simp [hc, hleft]
            grind
        | false =>
            simp [hc, ih]
            grind

theorem strip_eq_self_iff (cs : List Char) :
    strip sep cs = cs ↔ cs.head? ≠ some sep ∧ cs.getLast? ≠ some sep := by
  have hfirst : cs.dropWhile (· == sep) = cs ↔ cs.head? ≠ some sep := by
    rw [List.dropWhile_eq_self_iff]
    cases cs with
    | nil => simp
    | cons c cs => simp
  have hlast : cs.rdropWhile (· == sep) = cs ↔ cs.getLast? ≠ some sep := by
    rw [List.rdropWhile_eq_self_iff]
    by_cases hnil : cs = []
    · simp [hnil]
    · simp [hnil, List.getLast?_eq_some_getLast hnil]
  rw [← hfirst, ← hlast]
  constructor
  · intro hstrip
    -- dropping at one end and then at the other shortens the text unless neither does
    have hdrop : cs.dropWhile (· == sep) = cs := by
      refine (List.dropWhile_sublist _).eq_of_length_le ?_
      calc cs.length
          = (strip sep cs).length := by rw [hstrip]
        _ ≤ (cs.dropWhile (· == sep)).length := (List.rdropWhile_prefix _ _).length_le
    refine ⟨hdrop, ?_⟩
    rwa [strip, hdrop] at hstrip
  · rintro ⟨hdrop, hrdrop⟩
    rw [strip, hdrop, hrdrop]

/-- A text is its own slug exactly when it is words joined by single separators. -/
theorem slug_eq_self_iff (hsep : isWord sep = false) {cs : List Char} (hne : cs ≠ []) :
    slug sep cs = cs ↔ Valid sep cs := by
  constructor
  · intro hslug
    have hcollapse : collapse sep false cs = cs := by
      have hsub : cs.Sublist (collapse sep false cs) := by
        rw [← hslug]
        nth_rewrite 2 [hslug]
        exact strip_sublist _
      exact (hsub.eq_of_length_le (length_collapse_le false cs)).symm
    have hstrip : strip sep cs = cs := by
      rwa [slug, hcollapse] at hslug
    obtain ⟨hchars, hsingle, -⟩ := (collapse_eq_self_iff hsep false cs).mp hcollapse
    obtain ⟨hfirst, hlast⟩ := (strip_eq_self_iff cs).mp hstrip
    exact ⟨hne, hchars, hsingle, hfirst, hlast⟩
  · intro h
    have hcollapse : collapse sep false cs = cs :=
      (collapse_eq_self_iff hsep false cs).mpr ⟨h.chars, h.single, by simp⟩
    rw [slug, hcollapse]
    exact (strip_eq_self_iff cs).mpr ⟨h.first, h.last⟩

/-- A slug does not tell characters apart that are no part of a word. -/
theorem slug_map (f : Char → Char) (hf : ∀ c, isWord c = true → f c = c)
    (hf' : ∀ c, isWord c = false → isWord (f c) = false) (cs : List Char) :
    slug sep (cs.map f) = slug sep cs := by
  have hcollapse : ∀ inRun, collapse sep inRun (cs.map f) = collapse sep inRun cs := by
    induction cs with
    | nil => simp [collapse]
    | cons c cs ih =>
        intro inRun
        rw [List.map_cons, collapse, collapse]
        by_cases hc : isWord c = true
        · rw [hf c hc, if_pos hc, if_pos hc, ih]
        · have hc' : isWord (f c) ≠ true := by
            rw [hf' c (by simpa using hc)]
            simp
          rw [if_neg hc, if_neg hc', ih]
  rw [slug, slug, hcollapse]

end Canonic.Slug
