import Mathlib

set_option autoImplicit false

/-! # Computations that may fail

Inversion rules for `Except`: from a computation that succeeded, read off that each of its steps
did. They take a monadic definition apart without unfolding it. -/

namespace Canonic

variable {ε α β : Type}

theorem bind_eq_ok {x : Except ε α} {f : α → Except ε β} {b : β} :
    (x >>= f) = .ok b ↔ ∃ a, x = .ok a ∧ f a = .ok b := by
  cases x with
  | error e => simp [bind, Except.bind]
  | ok a => simp [bind, Except.bind]

@[simp] theorem pure_eq_ok {a b : α} : (pure a : Except ε α) = .ok b ↔ a = b := by
  simp [pure, Except.pure]

@[simp] theorem ok_bind (a : α) (f : α → Except ε β) : ((.ok a : Except ε α) >>= f) = f a := rfl

@[simp] theorem error_bind (e : ε) (f : α → Except ε β) :
    ((.error e : Except ε α) >>= f) = .error e := rfl

/-- A failure of two steps is a failure of the first, or of the second on the first's result. -/
theorem bind_eq_error {x : Except ε α} {f : α → Except ε β} {e : ε} :
    (x >>= f) = .error e ↔ x = .error e ∨ ∃ a, x = .ok a ∧ f a = .error e := by
  cases x with
  | error e' => simp [bind, Except.bind]
  | ok a => simp [bind, Except.bind]

theorem bind_congr_of_ok {x : Except ε α} {f g : α → Except ε β}
    (h : ∀ a, x = .ok a → f a = g a) : (x >>= f) = x >>= g := by
  cases x with
  | error e => rfl
  | ok a => exact h a rfl

theorem map_eq_ok {x : Except ε α} {f : α → β} {b : β} :
    (f <$> x) = .ok b ↔ ∃ a, x = .ok a ∧ f a = b := by
  cases x with
  | error e => simp [Functor.map, Except.map]
  | ok a => simp [Functor.map, Except.map]

/-- Renaming an error does not touch a success. -/
@[simp] theorem mapError_eq_ok {ε' : Type} {x : Except ε α} {f : ε → ε'} {a : α} :
    x.mapError f = .ok a ↔ x = .ok a := by
  cases x with
  | error e => simp [Except.mapError]
  | ok b => simp [Except.mapError]

/-- A computation that is evaluated to a success has a result. -/
theorem exists_ok_of_isOk {x : Except ε α} (h : x.isOk = true) : ∃ a, x = .ok a := by
  cases x with
  | error e => simp [Except.isOk, Except.toBool] at h
  | ok a => exact ⟨a, rfl⟩

/-- A computation whose result passes a test has a result that passes it. -/
theorem exists_ok_of_any {x : Except ε α} {P : α → Bool} (h : x.toOption.any P = true) :
    ∃ a, x = .ok a ∧ P a = true := by
  cases x with
  | error e => simp [Except.toOption] at h
  | ok a => exact ⟨a, rfl, by simpa [Except.toOption] using h⟩

/-- A mapped computation succeeds exactly when it does at every element. -/
theorem mapM_eq_ok {f : α → Except ε β} {l : List α} {r : List β} :
    l.mapM f = .ok r ↔ List.Forall₂ (fun a b => f a = .ok b) l r := by
  induction l generalizing r with
  | nil =>
      simp only [List.mapM_nil, pure_eq_ok, List.forall₂_nil_left_iff]
      exact eq_comm
  | cons a l ih =>
      simp only [List.mapM_cons, bind_eq_ok, pure_eq_ok, ih, List.forall₂_cons_left_iff]
      constructor
      · rintro ⟨b, hb, bs, hbs, rfl⟩
        exact ⟨b, bs, hb, hbs, rfl⟩
      · rintro ⟨b, bs, hb, hbs, rfl⟩
        exact ⟨b, hb, bs, hbs, rfl⟩

theorem mapM_eq_map_mapM {γ : Type} {f : α → Except ε γ} {g : α → Except ε β} {k : β → γ}
    {l : List α} (h : ∀ a ∈ l, f a = k <$> g a) : l.mapM f = List.map k <$> l.mapM g := by
  induction l with
  | nil => rfl
  | cons a l ih =>
      rw [List.mapM_cons, List.mapM_cons, h a List.mem_cons_self,
        ih fun b hb => h b (List.mem_cons_of_mem a hb)]
      simp only [map_bind, map_pure, bind_map_left]
      rfl

theorem mapM_congr_of_mem {f g : α → Except ε β} {l : List α} (h : ∀ a ∈ l, f a = g a) :
    l.mapM f = l.mapM g := by
  have hid : l.mapM f = List.map id <$> l.mapM g :=
    mapM_eq_map_mapM fun a ha => by rw [h a ha, id_map]
  rw [hid, List.map_id_fun, id_map]

theorem exists_mapM_eq_ok {f : α → Except ε β} {l : List α} (h : ∀ a ∈ l, ∃ b, f a = .ok b) :
    ∃ r, l.mapM f = .ok r := by
  induction l with
  | nil => exact ⟨[], rfl⟩
  | cons a l ih =>
      obtain ⟨b, hb⟩ := h a (by simp)
      obtain ⟨bs, hbs⟩ := ih fun a' ha' => h a' (by simp [ha'])
      exact ⟨b :: bs, by simp [List.mapM_cons, hb, hbs, pure, Except.pure]⟩

/-- A check made at every element succeeds at each of them. -/
theorem forM_eq_ok {f : α → Except ε Unit} {l : List α} (h : l.forM f = .ok ()) :
    ∀ a ∈ l, f a = .ok () := by
  induction l with
  | nil => simp
  | cons a l ih =>
      rw [List.forM, bind_eq_ok] at h
      obtain ⟨⟨⟩, ha, hl⟩ := h
      intro b hb
      rcases List.mem_cons.mp hb with rfl | hb
      · exact ha
      · exact ih hl b hb

theorem forM_ok_of_forall {f : α → Except ε Unit} {l : List α} (h : ∀ a ∈ l, f a = .ok ()) :
    l.forM f = .ok () := by
  induction l with
  | nil => rfl
  | cons a l ih =>
      rw [List.forM, h a List.mem_cons_self, ok_bind]
      exact ih fun b hb => h b (List.mem_cons_of_mem a hb)

theorem foldlM_cons_eq_ok {f : β → α → Except ε β} {b c : β} {a : α} {l : List α} :
    (a :: l).foldlM f b = .ok c ↔ ∃ b', f b a = .ok b' ∧ l.foldlM f b' = .ok c := by
  rw [List.foldlM_cons, bind_eq_ok]

/-- A failure of a mapped computation is the failure at one of the elements. -/
theorem exists_mem_of_mapM_error {f : α → Except ε β} {l : List α} {e : ε}
    (h : l.mapM f = .error e) : ∃ a ∈ l, f a = .error e := by
  induction l with
  | nil => simp [pure, Except.pure] at h
  | cons a l ih =>
      rw [List.mapM_cons] at h
      rcases bind_eq_error.mp h with ha | ⟨b, -, h⟩
      · exact ⟨a, List.mem_cons_self, ha⟩
      · rcases bind_eq_error.mp h with hl | ⟨bs, -, h⟩
        · obtain ⟨a', ha', he⟩ := ih hl
          exact ⟨a', List.mem_cons_of_mem a ha', he⟩
        · simp [pure, Except.pure] at h

/-- A failure of a fold is the failure of one of its steps. -/
theorem exists_mem_of_foldlM_error {f : β → α → Except ε β} {b : β} {l : List α} {e : ε}
    (h : l.foldlM f b = .error e) : ∃ b', ∃ a ∈ l, f b' a = .error e := by
  induction l generalizing b with
  | nil => simp [pure, Except.pure] at h
  | cons a l ih =>
      rw [List.foldlM_cons] at h
      rcases bind_eq_error.mp h with ha | ⟨b', -, h⟩
      · exact ⟨b, a, List.mem_cons_self, ha⟩
      · obtain ⟨b'', a', ha', he⟩ := ih h
        exact ⟨b'', a', List.mem_cons_of_mem a ha', he⟩

/-- What every step of a fold preserves, the fold preserves. -/
theorem foldlM_induction {f : β → α → Except ε β} {P : β → Prop} {b c : β} {l : List α}
    (h : l.foldlM f b = .ok c) (hb : P b)
    (hstep : ∀ b b' a, a ∈ l → P b → f b a = .ok b' → P b') : P c := by
  induction l generalizing b with
  | nil =>
      simp only [List.foldlM_nil, pure_eq_ok] at h
      exact h ▸ hb
  | cons a l ih =>
      obtain ⟨b', hb', h'⟩ := foldlM_cons_eq_ok.mp h
      refine ih h' (hstep b b' a (by simp) hb hb') ?_
      intro d d' a' ha'
      exact hstep d d' a' (by simp [ha'])

/-- A lookup in a `Forall₂`: what a result element came from. -/
theorem forall₂_mem_right {R : α → β → Prop} {l : List α} {r : List β} (h : List.Forall₂ R l r)
    {b : β} (hb : b ∈ r) : ∃ a ∈ l, R a b := by
  induction h with
  | nil => simp at hb
  | cons hab _ ih =>
      rcases List.mem_cons.mp hb with rfl | hb
      · exact ⟨_, by simp, hab⟩
      · obtain ⟨a, ha, hR⟩ := ih hb
        exact ⟨a, by simp [ha], hR⟩

theorem forall₂_mem_left {R : α → β → Prop} {l : List α} {r : List β} (h : List.Forall₂ R l r)
    {a : α} (ha : a ∈ l) : ∃ b ∈ r, R a b := by
  induction h with
  | nil => simp at ha
  | cons hab _ ih =>
      rcases List.mem_cons.mp ha with rfl | ha
      · exact ⟨_, by simp, hab⟩
      · obtain ⟨b, hb, hR⟩ := ih ha
        exact ⟨b, by simp [hb], hR⟩

/-- A lookup that succeeds finds an entry. -/
theorem mem_of_lookup {κ : Type} [BEq κ] [LawfulBEq κ] {l : List (κ × α)} {k : κ} {v : α}
    (h : l.lookup k = some v) :
    (k, v) ∈ l := by
  induction l with
  | nil => simp at h
  | cons p l ih =>
      obtain ⟨k', v'⟩ := p
      rw [List.lookup_cons] at h
      split at h
      next heq =>
        obtain rfl := Option.some.inj h
        rw [eq_of_beq heq]
        simp
      · exact List.mem_cons_of_mem _ (ih h)

theorem except_map_bind {ε α β γ : Type} (x : Except ε α) (g : α → Except ε β) (f : β → γ) :
    (x >>= g).map f = x >>= fun a => (g a).map f := by
  cases x with
  | error e => rfl
  | ok a => rfl

/-- A list without repetition whose members are all one value. -/
theorem eq_singleton_of_nodup {α : Type} {l : List α} {p : α} (hnd : l.Nodup) (hp : p ∈ l)
    (h : ∀ q ∈ l, q = p) : l = [p] := by
  rcases l with _ | ⟨a, _ | ⟨b, l⟩⟩
  · simp at hp
  · simpa using h a (by simp)
  · have hab : a = b := (h a (by simp)).trans (h b (by simp)).symm
    simp [hab] at hnd

end Canonic
