import Mathlib

set_option autoImplicit false

/-! # Breadth-first order

The vertices that a list of seeds leads to, in layers: the seeds, then what the first layer leads
to and is not there yet, and so on. Vertices are told apart by a key, and of several with one key
the first that is met stands for it. -/

namespace Canonic.Graph

variable {α κ : Type} [DecidableEq κ]

/-- The vertices of a list whose keys are not known yet, each key once. -/
def fresh (key : α → κ) : List α → List α → List α
  | _, [] => []
  | known, x :: xs =>
      if key x ∈ known.map key then fresh key known xs
      else x :: fresh key (known ++ [x]) xs

/-- What stands before layer `n`, and layer `n`. -/
def layers (key : α → κ) (next : α → List α) (seeds : List α) : ℕ → List α × List α
  | 0 => ([], fresh key [] seeds)
  | n + 1 =>
      let (before, last) := layers key next seeds n
      (before ++ last, fresh key (before ++ last) (last.flatMap next))

/-- The breadth-first order up to depth `n`. -/
def order (key : α → κ) (next : α → List α) (seeds : List α) (n : ℕ) : List α :=
  (layers key next seeds n).1 ++ (layers key next seeds n).2

/-- A vertex that a seed leads to by a number of links. -/
inductive Linked (next : α → List α) (seeds : List α) : ℕ → α → Prop
  | seed {x : α} (h : x ∈ seeds) : Linked next seeds 0 x
  | link {n : ℕ} {x y : α} (hx : Linked next seeds n x) (hy : y ∈ next x) :
      Linked next seeds (n + 1) y

section

variable {key : α → κ}

theorem fresh_append (known xs ys : List α) : fresh key known (xs ++ ys) =
    fresh key known xs ++ fresh key (known ++ fresh key known xs) ys := by
  induction xs generalizing known with
  | nil => simp [fresh]
  | cons x xs ih =>
      rw [List.cons_append, fresh, fresh]
      split
      · exact ih known
      · rw [ih, List.cons_append, List.append_assoc, List.singleton_append]

theorem mem_of_mem_fresh {known xs : List α} {x : α} (h : x ∈ fresh key known xs) : x ∈ xs := by
  induction xs generalizing known with
  | nil => simp [fresh] at h
  | cons y xs ih =>
      rw [fresh] at h
      split at h
      · exact List.mem_cons_of_mem y (ih h)
      · rcases List.mem_cons.mp h with rfl | h
        · exact List.mem_cons_self
        · exact List.mem_cons_of_mem y (ih h)

/-- Every key of a list is known once its fresh vertices are. -/
theorem key_mem_append_fresh {known xs : List α} {x : α} (h : x ∈ xs) :
    key x ∈ (known ++ fresh key known xs).map key := by
  induction xs generalizing known with
  | nil => simp at h
  | cons y xs ih =>
      rw [fresh]
      split
      next hknown =>
        rcases List.mem_cons.mp h with rfl | h
        · rw [List.map_append]
          exact List.mem_append_left _ hknown
        · exact ih h
      next hnew =>
        rw [← List.singleton_append, ← List.append_assoc]
        rcases List.mem_cons.mp h with rfl | h
        · simp
        · exact ih h

theorem nodup_append_fresh {known xs : List α} (h : (known.map key).Nodup) :
    ((known ++ fresh key known xs).map key).Nodup := by
  induction xs generalizing known with
  | nil => simpa [fresh] using h
  | cons x xs ih =>
      rw [fresh]
      split
      · exact ih h
      next hnew =>
        rw [← List.singleton_append, ← List.append_assoc]
        apply ih
        rw [List.map_append, List.map_singleton, ← List.concat_eq_append]
        exact h.concat hnew

end

section

variable (key : α → κ) (next : α → List α) (seeds : List α)

theorem order_isPrefix {m n : ℕ} (h : m ≤ n) :
    order key next seeds m <+: order key next seeds n := by
  induction n, h using Nat.le_induction with
  | base => exact List.prefix_rfl
  | succ n hmn ih => exact ih.trans (List.prefix_append _ _)

theorem nodup_order (n : ℕ) : ((order key next seeds n).map key).Nodup := by
  induction n with
  | zero => exact nodup_append_fresh List.nodup_nil
  | succ n ih => exact nodup_append_fresh ih

variable {key next seeds}

/-- What a layer holds is that many links away. -/
theorem linked_of_mem_layer {n : ℕ} {x : α} (h : x ∈ (layers key next seeds n).2) :
    Linked next seeds n x := by
  induction n generalizing x with
  | zero => exact .seed (mem_of_mem_fresh h)
  | succ n ih =>
      obtain ⟨y, hy, hx⟩ := List.mem_flatMap.mp (mem_of_mem_fresh h)
      exact .link (ih hy) hx

theorem linked_of_mem_order {n : ℕ} {x : α} (h : x ∈ order key next seeds n) :
    ∃ m ≤ n, Linked next seeds m x := by
  induction n with
  | zero => exact ⟨0, le_rfl, linked_of_mem_layer (by simpa [order, layers] using h)⟩
  | succ n ih =>
      rcases List.mem_append.mp h with h | h
      · obtain ⟨m, hm, hx⟩ := ih h
        exact ⟨m, by omega, hx⟩
      · exact ⟨n + 1, le_rfl, linked_of_mem_layer h⟩

/-- The next layer knows every key that the order leads to. -/
theorem key_mem_order_succ {n : ℕ} {x y : α} (hx : x ∈ order key next seeds n) (hy : y ∈ next x) :
    key y ∈ (order key next seeds (n + 1)).map key := by
  induction n with
  | zero =>
      apply key_mem_append_fresh
      exact List.mem_flatMap.mpr ⟨x, by simpa [order, layers] using hx, hy⟩
  | succ n ih =>
      rcases List.mem_append.mp hx with hx | hx
      · exact (List.map_subset key (order_isPrefix key next seeds (Nat.le_succ _)).subset) (ih hx)
      · exact key_mem_append_fresh (List.mem_flatMap.mpr ⟨x, hx, hy⟩)

/-- Where a key stands for one vertex, the order holds every vertex that is not too many links
away. -/
theorem mem_order_of_linked
    (hkey : ∀ {i j : ℕ} {x y : α}, Linked next seeds i x → Linked next seeds j y →
      key x = key y → x = y)
    {m : ℕ} {x : α} (h : Linked next seeds m x) {n : ℕ} (hmn : m ≤ n) :
    x ∈ order key next seeds n := by
  have hsame : ∀ {i j : ℕ} {y : α}, Linked next seeds i y →
      key y ∈ (order key next seeds j).map key → y ∈ order key next seeds j := by
    intro i j y hy hmem
    obtain ⟨z, hz, heq⟩ := List.mem_map.mp hmem
    obtain ⟨k, -, hlinked⟩ := linked_of_mem_order hz
    exact hkey hlinked hy heq ▸ hz
  apply (order_isPrefix key next seeds hmn).subset
  clear hmn
  induction h with
  | seed hseed => exact hsame (.seed hseed) (key_mem_append_fresh hseed)
  | link hx hy ih => exact hsame (.link hx hy) (key_mem_order_succ ih hy)

end

end Canonic.Graph
