import Mathlib

set_option autoImplicit false

/-! # Simple words of a labelled graph

A deterministic labelled graph is a partial function `step : S → A → Option S`. A **word** is a
list of labels; it *runs* from a start state when every step is defined. A word is **simple**
when its labels are pairwise distinct and none of them is the label of the start.

The labels are meant as *names of the states they enter*. Nothing forces that: one label may
enter different states along different words. `Consistent` says it does not. Under
consistency two simple words through a common label can be spliced there, and from this
follows the main fact, `Chosen.prefix_unique`: if each of two goals has a word singled out by
one and the same required prefix, then the two words agree up to any label they share. -/

namespace Canonic.Graph

variable {S A : Type}

/-- The state a word leads to. -/
def run (step : S → A → Option S) : S → List A → Option S
  | s, [] => some s
  | s, a :: w => (step s a).bind fun t => run step t w

theorem getLast?_cons_concat (a : A) (w : List A) (b : A) :
    (a :: (w ++ [b])).getLast? = some b := by
  rw [← List.cons_append, List.getLast?_append]
  rfl

section Run

variable {step : S → A → Option S}

@[simp] theorem run_nil (s : S) : run step s [] = some s := rfl

theorem run_cons (s : S) (a : A) (w : List A) :
    run step s (a :: w) = (step s a).bind fun t => run step t w := rfl

theorem run_append (s : S) (u w : List A) :
    run step s (u ++ w) = (run step s u).bind fun t => run step t w := by
  induction u generalizing s with
  | nil => rfl
  | cons a u ih =>
      simp only [List.cons_append, run_cons]
      cases step s a with
      | none => rfl
      | some t => exact ih t

theorem run_concat {s t : S} {u : List A} {a : A} :
    run step s (u ++ [a]) = some t ↔ ∃ m, run step s u = some m ∧ step m a = some t := by
  rw [run_append]
  cases run step s u with
  | none => simp
  | some m =>
      simp only [Option.bind_some, run_cons, run_nil, Option.some.injEq, exists_eq_left']
      cases step m a <;> simp

end Run

/-- `w` runs from `s` to `t`, and its labels are distinct and different from `a`. -/
structure Simple (step : S → A → Option S) (s : S) (a : A) (w : List A) (t : S) : Prop where
  run_eq : run step s w = some t
  nodup : (a :: w).Nodup

/-- Along simple words, a label always enters the same state. -/
def Consistent (step : S → A → Option S) (s : S) (a : A) : Prop :=
  ∀ (u v : List A) (x : A) (t t' : S),
    Simple step s a (u ++ [x]) t → Simple step s a (v ++ [x]) t' → t = t'

/-- `w` is the one simple word to the label `x` that `via` leaves: any other such word is
excluded by a prefix that `w` has and the other has not. -/
structure Chosen (step : S → A → Option S) (s : S) (a : A) (via : Option (List A)) (x : A)
    (w : List A) : Prop where
  simple : ∃ t, Simple step s a w t
  last : w.getLast? = some x
  unique : ∀ w' t, Simple step s a w' t → w'.getLast? = some x → w' ≠ w →
    ∃ v, via = some v ∧ v <+: w ∧ ¬ v <+: w'

section Splice

variable {step : S → A → Option S} {s : S} {a : A}

theorem Simple.left {u w : List A} {t : S} (h : Simple step s a (u ++ w) t) :
    ∃ m, Simple step s a u m := by
  obtain ⟨m, hm⟩ : ∃ m, run step s u = some m := by
    have hrun := h.run_eq
    rw [run_append] at hrun
    cases hu : run step s u with
    | none => simp [hu] at hrun
    | some m => exact ⟨m, rfl⟩
  exact ⟨m, hm, h.nodup.sublist (by simp)⟩

/-- Splicing: the front of one simple word up to `y`, the rest of another from `y` on. -/
theorem Consistent.splice (hc : Consistent step s a) {u u' v v' : List A} {y : A} {t t' : S}
    (hu : Simple step s a (u ++ y :: u') t) (hv : Simple step s a (v ++ y :: v') t')
    (hdisj : ∀ z ∈ v', z ∉ u ++ [y]) : Simple step s a (u ++ y :: v') t' := by
  have hu' : Simple step s a ((u ++ [y]) ++ u') t := by simpa using hu
  have hv' : Simple step s a ((v ++ [y]) ++ v') t' := by simpa using hv
  obtain ⟨m, hm⟩ := hu'.left
  obtain ⟨m', hm'⟩ := hv'.left
  obtain rfl : m = m' := hc u v y m m' hm hm'
  have hrest : run step m v' = some t' := by
    have hrun := hv'.run_eq
    rw [run_append, hm'.run_eq] at hrun
    exact hrun
  have hav : a ∉ v' := by
    have := (List.nodup_cons.mp hv.nodup).1
    simp only [List.mem_append, List.mem_cons, not_or] at this
    exact this.2.2
  have hv'nd : v'.Nodup := by
    have := (List.nodup_cons.mp hv'.nodup).2
    exact (List.nodup_append.mp this).2.1
  refine ⟨?_, ?_⟩
  · have : u ++ y :: v' = (u ++ [y]) ++ v' := by simp
    rw [this, run_append, hm.run_eq]
    exact hrest
  · have : a :: (u ++ y :: v') = (a :: (u ++ [y])) ++ v' := by simp
    rw [this, List.nodup_append]
    refine ⟨hm.nodup, hv'nd, ?_⟩
    intro z hz z' hz' hzz
    subst hzz
    rcases List.mem_cons.mp hz with rfl | hz
    · exact hav hz'
    · exact hdisj z hz' hz

/-- The last element of a list with a property, with what follows it. -/
theorem exists_last_with {P : A → Prop} (w : List A) (h : ∃ z ∈ w, P z) :
    ∃ u y v, w = u ++ y :: v ∧ P y ∧ ∀ z ∈ v, ¬ P z := by
  induction w with
  | nil => simp at h
  | cons b w ih =>
      by_cases hw : ∃ z ∈ w, P z
      · obtain ⟨u, y, v, rfl, hy, hv⟩ := ih hw
        exact ⟨b :: u, y, v, rfl, hy, hv⟩
      · obtain ⟨z, hz, hPz⟩ := h
        rcases List.mem_cons.mp hz with rfl | hz
        · exact ⟨[], z, w, rfl, hPz, fun z' hz' hP => hw ⟨z', hz', hP⟩⟩
        · exact absurd ⟨z, hz, hPz⟩ hw

/-- Where a split of a list without repetition stands to the list's last element. -/
theorem concat_eq_append_cons {p₀ p₁ p₂ : List A} {x y : A} (h : p₀ ++ [x] = p₁ ++ y :: p₂)
    (hnd : (p₀ ++ [x]).Nodup) : (y = x ∧ p₁ = p₀ ∧ p₂ = []) ∨ (y ≠ x ∧ x ∉ p₁) := by
  rcases List.eq_nil_or_concat p₂ with rfl | ⟨p₃, z, rfl⟩
  · have := List.append_inj' h rfl
    exact Or.inl ⟨by simpa using this.2.symm, this.1.symm, rfl⟩
  · have h' : p₀ ++ [x] = (p₁ ++ y :: p₃) ++ [z] := by simpa using h
    obtain rfl : x = z := by simpa using (List.append_inj' h' rfl).2
    rw [h'] at hnd
    simp only [List.nodup_append, List.mem_append, List.mem_cons] at hnd
    refine Or.inr ⟨?_, ?_⟩
    · exact fun hyx => hnd.2.2 y (Or.inr (Or.inl rfl)) x (Or.inl rfl) hyx
    · exact fun hx => hnd.2.2 x (Or.inl hx) x (Or.inl rfl) rfl

/-- Where the last element of `q₀ ++ x :: r` on a list through `x` can stand. -/
theorem split_after {q₀ r w₁ w₂ : List A} {x y : A} (hsplit : q₀ ++ x :: r = w₁ ++ y :: w₂)
    (hnd : (q₀ ++ x :: r).Nodup) (hx : x ∉ w₂) :
    (y = x ∧ w₁ = q₀ ∧ w₂ = r) ∨ (y ≠ x ∧ y ∈ r ∧ x ∈ w₁) := by
  rcases List.append_eq_append_iff.mp hsplit with ⟨c, hw₁, hc⟩ | ⟨c, hq, hc⟩
  · cases c with
    | nil =>
        simp only [List.nil_append, List.cons.injEq] at hc
        exact Or.inl ⟨hc.1.symm, by simpa using hw₁, hc.2.symm⟩
    | cons d c =>
        simp only [List.cons_append, List.cons.injEq] at hc
        obtain ⟨rfl, rfl⟩ := hc
        refine Or.inr ⟨?_, by simp, by simp [hw₁]⟩
        rintro rfl
        simp [List.nodup_append] at hnd
  · cases c with
    | nil =>
        simp only [List.nil_append, List.cons.injEq] at hc
        exact Or.inl ⟨hc.1, by simpa using hq.symm, hc.2⟩
    | cons d c =>
        simp only [List.cons_append, List.cons.injEq] at hc
        exact absurd (by simp [hc.2]) hx

/-- **Detour.** If a simple word enters `x` along `q₀` and another one enters `x` along a different
`p₀`, then the first word has a second way to its end, starting like `p₀`. It keeps every common
prefix of the two ways to `x`. -/
theorem Consistent.exists_detour (hc : Consistent step s a) {p₀ q₀ r : List A} {x : A} {t m : S}
    (hp : Simple step s a (p₀ ++ [x]) m) (hw : Simple step s a (q₀ ++ x :: r) t) (hne : p₀ ≠ q₀) :
    ∃ w, Simple step s a w t ∧ w.getLast? = (q₀ ++ x :: r).getLast? ∧ w ≠ q₀ ++ x :: r ∧
      ∀ v, v <+: p₀ ++ [x] → v <+: q₀ ++ [x] → v <+: w := by
  -- leave the word at its last label on `p₀ ++ [x]`
  obtain ⟨w₁, y, w₂, hsplit, hyp, hdisj⟩ :=
    exists_last_with (P := (· ∈ p₀ ++ [x])) (q₀ ++ x :: r) ⟨x, by simp, by simp⟩
  obtain ⟨p₁, p₂, hpsplit⟩ := List.append_of_mem hyp
  have hnd : (q₀ ++ x :: r).Nodup := (List.nodup_cons.mp hw.nodup).2
  have hpnd : (p₀ ++ [x]).Nodup := (List.nodup_cons.mp hp.nodup).2
  have hw' : Simple step s a (w₁ ++ y :: w₂) t := by rw [← hsplit]; exact hw
  have hp' : Simple step s a (p₁ ++ y :: p₂) m := by rw [← hpsplit]; exact hp
  have hsub : ∀ z ∈ w₂, z ∉ p₁ ++ [y] := by
    intro z hz hzp
    refine hdisj z hz ?_
    rw [hpsplit]
    simp only [List.mem_append, List.mem_cons, List.not_mem_nil, or_false] at hzp ⊢
    exact hzp.imp_right Or.inl
  have hconcat : p₁ ++ y :: w₂ = (p₁ ++ [y]) ++ w₂ := by simp
  refine ⟨p₁ ++ y :: w₂, hc.splice hp' hw' hsub, ?_, ?_, ?_⟩
  · rw [hsplit, List.getLast?_append, List.getLast?_append, List.getLast?_cons]
    rfl
  · rw [hsplit]
    intro heq
    have hp₁ : p₁ = w₁ := by simpa using heq
    rcases split_after hsplit hnd (fun h => hdisj x h (by simp)) with ⟨rfl, rfl, -⟩ | ⟨hyx, -, hxw⟩
    · rcases concat_eq_append_cons hpsplit hpnd with ⟨-, rfl, -⟩ | ⟨h, -⟩
      · exact hne hp₁
      · exact h rfl
    · rcases concat_eq_append_cons hpsplit hpnd with ⟨h, -, -⟩ | ⟨-, hx⟩
      · exact hyx h
      · exact hx (by rw [hp₁]; exact hxw)
  · intro v hvp hvq
    rw [hpsplit] at hvp
    have hvp' : v <+: (p₁ ++ [y]) ++ p₂ := by simpa using hvp
    rcases List.prefix_or_prefix_of_prefix hvp' (List.prefix_append (p₁ ++ [y]) p₂) with h | h
    · rw [hconcat]
      exact h.trans (List.prefix_append _ _)
    · -- the whole front up to `y` is shared, so `y` is `x`
      have hyq : y ∈ q₀ ++ [x] := (h.trans hvq).subset (by simp)
      rcases split_after hsplit hnd (fun h => hdisj x h (by simp)) with
        ⟨rfl, rfl, -⟩ | ⟨hyx, hyr, -⟩
      · rcases concat_eq_append_cons hpsplit hpnd with ⟨-, rfl, rfl⟩ | ⟨h', -⟩
        · rw [hconcat]
          exact hvp.trans (List.prefix_append _ _)
        · exact absurd rfl h'
      · exfalso
        simp only [List.nodup_append, List.mem_append, List.mem_singleton] at hnd hyq
        rcases hyq with h' | h'
        · exact hnd.2.2 y h' y (by simp [hyr]) rfl
        · exact hyx h'

/-- The labels of a simple word decide where a prefix through its last label ends. -/
theorem prefix_concat_eq {p₀ q₀ r : List A} {x : A} (hnd : (q₀ ++ x :: r).Nodup)
    (h : p₀ ++ [x] <+: q₀ ++ x :: r) : p₀ = q₀ := by
  obtain ⟨c, hc⟩ := h
  have hc' : q₀ ++ x :: r = p₀ ++ x :: c := by simpa using hc.symm
  have hx : x ∉ c := by
    rw [hc'] at hnd
    exact (List.nodup_cons.mp (List.nodup_append.mp hnd).2.1).1
  rcases split_after hc' hnd hx with ⟨-, h, -⟩ | ⟨h, -, -⟩
  · exact h
  · exact absurd rfl h

/-- **Two chosen words agree up to a common label.** Both goals' words are singled out by the same
`via`; if they entered `x` differently, each goal would have a second word by a detour through
the other's front, and no single prefix excludes both. -/
theorem Chosen.prefix_unique (hc : Consistent step s a) {via : Option (List A)} {g g' x : A}
    {p₀ q₀ r r' : List A} (hq : Chosen step s a via g (q₀ ++ x :: r))
    (hp : Chosen step s a via g' (p₀ ++ x :: r')) : p₀ = q₀ := by
  by_contra hne
  obtain ⟨t, ht⟩ := hq.simple
  obtain ⟨t', ht'⟩ := hp.simple
  have hqx : ∃ m, Simple step s a (q₀ ++ [x]) m :=
    Simple.left (w := r) (t := t) (by simpa using ht)
  have hpx : ∃ m, Simple step s a (p₀ ++ [x]) m :=
    Simple.left (w := r') (t := t') (by simpa using ht')
  obtain ⟨mq, hmq⟩ := hqx
  obtain ⟨mp, hmp⟩ := hpx
  obtain ⟨w, hw, hwl, hwne, hwpre⟩ := hc.exists_detour hmp ht hne
  obtain ⟨w', hw', hwl', hwne', -⟩ := hc.exists_detour hmq ht' (Ne.symm hne)
  obtain ⟨v, hv, hvq, hvw⟩ := hq.unique w t hw (hwl.trans hq.last) hwne
  obtain ⟨v', hv', hvp, -⟩ := hp.unique w' t' hw' (hwl'.trans hp.last) hwne'
  obtain rfl : v = v' := by
    rw [hv] at hv'
    exact Option.some.inj hv'
  have hqr : v <+: (q₀ ++ [x]) ++ r := by simpa using hvq
  have hpr : v <+: (p₀ ++ [x]) ++ r' := by simpa using hvp
  have hqnd := (List.nodup_cons.mp ht.nodup).2
  have hpnd := (List.nodup_cons.mp ht'.nodup).2
  rcases List.prefix_or_prefix_of_prefix hqr (List.prefix_append _ _) with h | h
  · rcases List.prefix_or_prefix_of_prefix hpr (List.prefix_append _ _) with h' | h'
    · exact hvw (hwpre v h' h)
    · exact hne (prefix_concat_eq hqnd (h'.trans hvq))
  · exact hne (prefix_concat_eq hpnd (h.trans hvp)).symm

end Splice

end Canonic.Graph
