import Canonic.Except

set_option autoImplicit false

/-! # Dictionaries

A Python dictionary with text keys, as the list of its entries in insertion order, and the
sorted list of a set of texts. -/

namespace Canonic

/-- Pairs of texts, as a source and its column are listed. -/
instance instLawfulBEqSourceColumn : LawfulBEq (String × String) := inferInstance

/-- A dictionary in insertion order. -/
abbrev Dict (α : Type) := List (String × α)

/-- `d.get(key)`. -/
def Dict.get {α : Type} (d : Dict α) (key : String) : Option α := d.lookup key

/-- `d.get(key, default)`. -/
def Dict.getD {α : Type} (d : Dict α) (key : String) (default : α) : α := (d.get key).getD default

/-- `key in d`. -/
def Dict.has {α : Type} (d : Dict α) (key : String) : Bool := d.any fun p => p.1 == key

/-- `d[key] = value`: an existing key keeps its place. -/
def Dict.set {α : Type} (d : Dict α) (key : String) (value : α) : Dict α :=
  if d.has key then d.map fun p => if p.1 == key then (key, value) else p else d ++ [(key, value)]

theorem Dict.has_iff {α : Type} {d : Dict α} {k : String} : d.has k = true ↔ k ∈ d.map (·.1) := by
  simp [Dict.has]

theorem Dict.get_eq_some_mem {α : Type} {d : Dict α} {k : String} {v : α} (h : d.get k = some v) :
    (k, v) ∈ d :=
  mem_of_lookup h

theorem Dict.has_of_get {α : Type} {d : Dict α} {k : String} {v : α} (h : d.get k = some v) :
    d.has k = true :=
  Dict.has_iff.mpr (List.mem_map_of_mem (Dict.get_eq_some_mem h))

/-- A dictionary with one key has no other. -/
theorem Dict.eq_of_keys {α : Type} {d : Dict α} {s k : String} (hs : d.map (·.1) = [s])
    (h : d.has k = true) : k = s := by
  rw [Dict.has_iff, hs] at h
  exact List.mem_singleton.mp h

theorem Dict.get_isSome_of_mem {α : Type} {d : Dict α} {k : String} (h : k ∈ d.map (·.1)) :
    ∃ v, d.get k = some v := by
  induction d with
  | nil => simp at h
  | cons p d ih =>
      obtain ⟨k', v'⟩ := p
      by_cases hk : k = k'
      · exact ⟨v', by simp [Dict.get, hk]⟩
      · have hb : (k == k') = false := by simpa using hk
        obtain ⟨v, hv⟩ := ih (by simpa [hk] using h)
        exact ⟨v, by simpa [Dict.get, List.lookup_cons, hb] using hv⟩

/-- An entry of a dictionary whose keys are distinct is found under its key. -/
theorem Dict.get_of_mem {α : Type} {d : Dict α} {k : String} {v : α} (hd : (d.map (·.1)).Nodup)
    (h : (k, v) ∈ d) : d.get k = some v := by
  induction d with
  | nil => simp at h
  | cons p d ih =>
      obtain ⟨k', v'⟩ := p
      simp only [List.map_cons, List.nodup_cons] at hd
      rcases List.mem_cons.mp h with heq | h
      · obtain ⟨rfl, rfl⟩ := Prod.mk.inj heq
        simp [Dict.get]
      · have hne : k ≠ k' := fun hk => hd.1 (hk ▸ List.mem_map.mpr ⟨_, h, rfl⟩)
        have hb : (k == k') = false := by simpa using hne
        simpa [Dict.get, List.lookup_cons, hb] using ih hd.2 h

/-- What a dictionary holds after an assignment. -/
theorem Dict.mem_set {α : Type} {d : Dict α} {k k' : String} {v v' : α} :
    (k', v') ∈ d.set k v ↔ (k' = k ∧ v' = v) ∨ (k' ≠ k ∧ (k', v') ∈ d) := by
  by_cases hk : k ∈ d.map (·.1)
  · rw [Dict.set, if_pos (Dict.has_iff.mpr hk), List.mem_map]
    constructor
    · rintro ⟨p, hp, heq⟩
      split at heq
      · exact .inl ⟨(Prod.mk.inj heq).1.symm, (Prod.mk.inj heq).2.symm⟩
      next hne => exact .inr ⟨by simpa [heq] using hne, heq ▸ hp⟩
    · rintro (⟨rfl, rfl⟩ | ⟨hne, hmem⟩)
      · obtain ⟨p, hp, rfl⟩ := List.mem_map.mp hk
        exact ⟨p, hp, by simp⟩
      · exact ⟨_, hmem, by simp [hne]⟩
  · have hnot : ¬ d.has k = true := fun h => hk (Dict.has_iff.mp h)
    rw [Dict.set, if_neg hnot, List.mem_append, List.mem_singleton, Prod.mk.injEq, or_comm]
    refine or_congr_right ⟨fun hmem => ⟨?_, hmem⟩, fun h => h.2⟩
    rintro rfl
    exact hk (List.mem_map.mpr ⟨_, hmem, rfl⟩)

theorem Dict.nodup_set {α : Type} {d : Dict α} {k : String} {v : α}
    (hd : (d.map (·.1)).Nodup) : ((d.set k v).map (·.1)).Nodup := by
  by_cases hk : d.has k = true
  · have hkeys : (d.set k v).map (·.1) = d.map (·.1) := by
      rw [Dict.set, if_pos hk, List.map_map]
      refine List.map_congr_left fun p _ => ?_
      by_cases hp : p.1 = k <;> simp [hp]
    rwa [hkeys]
  · rw [Dict.set, if_neg hk]
    simp only [List.map_append, List.map_cons, List.map_nil]
    rw [← List.concat_eq_append]
    exact List.Nodup.concat (fun h => hk (Dict.has_iff.mpr h)) hd

theorem Dict.get_cons {α : Type} (p : String × α) (d : Dict α) (k : String) :
    Dict.get (p :: d) k = if p.1 = k then some p.2 else d.get k := by
  obtain ⟨k', v⟩ := p
  by_cases h : k' = k
  · simp [Dict.get, h]
  · have hb : (k == k') = false := by simpa using Ne.symm h
    simp [Dict.get, List.lookup_cons, hb, h]

theorem Dict.get_append {α : Type} (d e : Dict α) (k : String) :
    Dict.get (d ++ e) k = (d.get k).or (e.get k) := by
  induction d with
  | nil => simp [Dict.get]
  | cons p d ih =>
      rw [List.cons_append, Dict.get_cons, Dict.get_cons, ih]
      split <;> rfl

/-- Reading a dictionary after an assignment. -/
theorem Dict.get_set {α : Type} (d : Dict α) (k k' : String) (v : α) :
    (d.set k v).get k' = if k' = k then some v else d.get k' := by
  by_cases hk : d.has k = true
  · -- the entry of `k` is replaced in place
    have hmap : ∀ e : Dict α, Dict.get (e.map fun p => if p.1 == k then (k, v) else p) k' =
        if k' = k then (if e.has k = true then some v else none) else e.get k' := by
      intro e
      induction e with
      | nil => simp [Dict.get, Dict.has]
      | cons p e ih =>
          have hhas : Dict.has (p :: e) k = (p.1 == k || Dict.has e k) := rfl
          rw [List.map_cons, Dict.get_cons, ih, Dict.get_cons, hhas]
          by_cases hp : p.1 = k
          · by_cases hkk : k' = k
            · simp [hp, hkk]
            · simp [hp, hkk, Ne.symm hkk]
          · by_cases hkk : k' = k
            · simp [hp, hkk]
            · simp [hp, hkk]
    rw [Dict.set, if_pos hk, hmap d, if_pos hk]
  · have hnone : d.get k = none := by
      cases hg : d.get k with
      | none => rfl
      | some w =>
          exact absurd (Dict.has_of_get hg) hk
    rw [Dict.set, if_neg hk, Dict.get_append, Dict.get_cons]
    by_cases h : k' = k
    · simp [h, hnone]
    · have hne : k ≠ k' := Ne.symm h
      simp [h, hne, Dict.get]

/-- Assigning a key does not touch the others. -/
theorem Dict.filter_set {α : Type} (d : Dict α) (k : String) (v : α) :
    (d.set k v).filter (fun p => p.1 ≠ k) = d.filter fun p => p.1 ≠ k := by
  by_cases hk : d.has k = true
  · rw [Dict.set, if_pos hk]
    clear hk
    induction d with
    | nil => rfl
    | cons p d ih =>
        rw [List.map_cons]
        by_cases hp : p.1 = k
        · simpa [hp] using ih
        · simpa [hp] using ih
  · rw [Dict.set, if_neg hk, List.filter_append]
    simp

theorem Dict.set_map {α β : Type} (f : α → β) (d : Dict α) (key : String) (value : α) :
    Dict.set (d.map fun p => (p.1, f p.2)) key (f value) =
      (Dict.set d key value).map fun p => (p.1, f p.2) := by
  have hhas : Dict.has (d.map fun p => (p.1, f p.2)) key = d.has key := by
    simp [Dict.has, Function.comp_def]
  unfold Dict.set
  rw [hhas]
  by_cases h : d.has key = true
  · rw [if_pos h, if_pos h, List.map_map, List.map_map]
    refine List.map_congr_left fun p _ => ?_
    by_cases hp : p.1 = key
    · simp [hp]
    · simp [hp]
  · rw [if_neg h, if_neg h, List.map_append, List.map_singleton]

/-- The entries of one key. -/
theorem Dict.filter_key {α : Type} {d : Dict α} (hd : (d.map (·.1)).Nodup) (k : String) :
    d.filter (fun p => p.1 = k) = (d.get k).toList.map fun v => (k, v) := by
  induction d with
  | nil => rfl
  | cons p d ih =>
      simp only [List.map_cons, List.nodup_cons] at hd
      rw [List.filter_cons, Dict.get_cons, ih hd.2]
      obtain ⟨k', v⟩ := p
      by_cases hp : k' = k
      · subst hp
        have hnone : Dict.get d k' = none := by
          cases hg : Dict.get d k' with
          | none => rfl
          | some w => exact absurd (List.mem_map_of_mem (Dict.get_eq_some_mem hg)) hd.1
        simp [hnone]
      · simp [hp]

/-! ## Grouping -/

/-- The part of a concatenation that has one key, when each piece has a key of its own. -/
theorem filter_flatMap_of_key {α β : Type} {xs : List α} {f : α → List β} (k : α → String)
    (key : β → String) (hkey : ∀ x ∈ xs, ∀ y ∈ f x, key y = k x) (h : String) :
    (xs.flatMap f).filter (fun y => key y = h) = (xs.filter fun x => k x = h).flatMap f := by
  induction xs with
  | nil => rfl
  | cons x xs ih =>
      rw [List.flatMap_cons, List.filter_append, List.filter_cons,
        ih fun x' hx' => hkey x' (List.mem_cons_of_mem x hx')]
      by_cases hx : k x = h
      · have hall : (f x).filter (fun y => key y = h) = f x := by
          rw [List.filter_eq_self]
          intro y hy
          simpa [hkey x List.mem_cons_self y hy] using hx
        simp [hx, hall]
      · have hnone : (f x).filter (fun y => key y = h) = [] := by
          rw [List.filter_eq_nil_iff]
          intro y hy
          simpa [hkey x List.mem_cons_self y hy] using hx
        simp [hx, hnone]

/-- Two lists agree up to order when their parts of each key do. -/
theorem perm_iff_forall_key {β : Type} [DecidableEq β] (key : β → String) {l l' : List β} :
    l.Perm l' ↔ ∀ h, (l.filter fun y => key y = h).Perm (l'.filter fun y => key y = h) := by
  constructor
  · intro hp h
    exact hp.filter _
  · intro hall
    rw [List.perm_iff_count]
    intro y
    have hy := (hall (key y)).count_eq y
    rwa [List.count_filter (by simp), List.count_filter (by simp)] at hy

section GroupBy

variable {α : Type} (key : α → String)

/-- `groups.setdefault(key(x), []).append(x)` for every element, groups in first-seen order. -/
def Dict.groupBy (xs : List α) : Dict (List α) :=
  xs.foldl (fun d x => d.set (key x) (d.getD (key x) [] ++ [x])) []

theorem Dict.groupBy_concat (xs : List α) (x : α) : Dict.groupBy key (xs ++ [x]) =
    (Dict.groupBy key xs).set (key x) ((Dict.groupBy key xs).getD (key x) [] ++ [x]) := by
  simp [Dict.groupBy]

theorem Dict.nodup_groupBy (xs : List α) : ((Dict.groupBy key xs).map (·.1)).Nodup := by
  induction xs using List.reverseRecOn with
  | nil => simp [Dict.groupBy]
  | append_singleton xs x ih =>
      rw [Dict.groupBy_concat]
      exact Dict.nodup_set ih

/-- The group of a key: the elements that have it, in their order. -/
theorem Dict.getD_groupBy (xs : List α) (k : String) :
    (Dict.groupBy key xs).getD k [] = xs.filter fun x => key x = k := by
  induction xs using List.reverseRecOn with
  | nil => simp [Dict.groupBy, Dict.getD, Dict.get]
  | append_singleton xs x ih =>
      rw [Dict.groupBy_concat, Dict.getD, Dict.get_set, List.filter_append]
      by_cases hk : k = key x
      · subst hk
        simp [ih]
      · rw [if_neg hk, ← Dict.getD, ih]
        simp [Ne.symm hk]

/-- The groups are those of the keys that occur. -/
theorem Dict.mem_groupBy {xs : List α} {k : String} {g : List α} :
    (k, g) ∈ Dict.groupBy key xs ↔ g = xs.filter (fun x => key x = k) ∧ g ≠ [] := by
  induction xs using List.reverseRecOn generalizing k g with
  | nil => simp [Dict.groupBy]
  | append_singleton xs x ih =>
      rw [Dict.groupBy_concat, Dict.mem_set, Dict.getD_groupBy, ih, List.filter_append]
      by_cases hk : k = key x
      · subst hk
        simp only [true_and, ne_eq, not_true_eq_false, false_and, or_false]
        constructor
        · rintro rfl
          simp
        · rintro ⟨rfl, -⟩
          simp
      · simp [hk, Ne.symm hk]

end GroupBy

/-! ## Indexing -/

section IndexBy

variable {α : Type} (key : α → String)

/-- `{key(x): x for x in xs}`: of the elements of one key the last stays. -/
def Dict.indexBy (xs : List α) : Dict α := xs.foldl (fun d x => d.set (key x) x) []

theorem Dict.indexBy_concat (xs : List α) (x : α) :
    Dict.indexBy key (xs ++ [x]) = (Dict.indexBy key xs).set (key x) x := by
  simp [Dict.indexBy]

theorem Dict.nodup_indexBy (xs : List α) : ((Dict.indexBy key xs).map (·.1)).Nodup := by
  induction xs using List.reverseRecOn with
  | nil => simp [Dict.indexBy]
  | append_singleton xs x ih =>
      rw [Dict.indexBy_concat]
      exact Dict.nodup_set ih

/-- The element of a key is the last one that has it. -/
theorem Dict.get_indexBy (xs : List α) (k : String) :
    (Dict.indexBy key xs).get k = (xs.filter fun x => key x = k).getLast? := by
  induction xs using List.reverseRecOn with
  | nil => simp [Dict.indexBy, Dict.get]
  | append_singleton xs x ih =>
      rw [Dict.indexBy_concat, Dict.get_set, List.filter_append]
      by_cases hk : k = key x
      · simp [hk]
      · have hne : ¬ key x = k := Ne.symm hk
        simp [hk, hne, ih]

theorem Dict.key_of_mem_indexBy {xs : List α} {p : String × α} (h : p ∈ Dict.indexBy key xs) :
    key p.2 = p.1 := by
  have hget := Dict.get_of_mem (Dict.nodup_indexBy key xs) h
  rw [Dict.get_indexBy] at hget
  simpa using (List.mem_filter.mp (List.mem_of_getLast? hget)).2

theorem Dict.indexBy_map {β : Type} (f : α → β) (key' : β → String)
    (h : ∀ x, key' (f x) = key x) (xs : List α) :
    Dict.indexBy key' (xs.map f) = (Dict.indexBy key xs).map fun p => (p.1, f p.2) := by
  induction xs using List.reverseRecOn with
  | nil => simp [Dict.indexBy]
  | append_singleton xs x ih =>
      rw [List.map_append, List.map_singleton, Dict.indexBy_concat, Dict.indexBy_concat, ih, h,
        Dict.set_map]

end IndexBy

/-! ## Sets of texts -/

/-- Python's `sorted` of a set of strings. -/
def sortedSet (xs : List String) : List String := xs.dedup.insertionSort (· ≤ ·)

theorem mem_sortedSet {xs : List String} {x : String} : x ∈ sortedSet xs ↔ x ∈ xs := by
  simp [sortedSet, List.mem_insertionSort]

theorem pairwise_lt_sortedSet (xs : List String) : (sortedSet xs).Pairwise (· < ·) := by
  have hle : (sortedSet xs).Pairwise (· ≤ ·) := List.pairwise_insertionSort (· ≤ ·) xs.dedup
  have hne : (sortedSet xs).Nodup :=
    (List.perm_insertionSort (· ≤ ·) xs.dedup).nodup_iff.mpr (List.nodup_dedup xs)
  exact (hle.and hne).imp fun h => lt_of_le_of_ne h.1 h.2

/-- A set is sorted in one way. -/
theorem sortedSet_eq {xs ys : List String} (hys : ys.Pairwise (· < ·))
    (h : ∀ x, x ∈ ys ↔ x ∈ xs) : sortedSet xs = ys := by
  have hxs := pairwise_lt_sortedSet xs
  have hperm : (sortedSet xs).Perm ys := by
    rw [List.perm_ext_iff_of_nodup (hxs.imp ne_of_lt) (hys.imp ne_of_lt)]
    intro x
    rw [mem_sortedSet, h]
  exact hperm.eq_of_pairwise' (hxs.imp le_of_lt) (hys.imp le_of_lt)

theorem sortedSet_congr {xs ys : List String} (h : ∀ x, x ∈ xs ↔ x ∈ ys) :
    sortedSet xs = sortedSet ys :=
  sortedSet_eq (pairwise_lt_sortedSet ys) fun x => by rw [mem_sortedSet, h]

/-- A set with one more element, cut at it. -/
theorem sortedSet_cons (r : String) (xs : List String) :
    sortedSet (r :: xs) =
      sortedSet (xs.filter (· < r)) ++ r :: sortedSet (xs.filter (r < ·)) := by
  refine sortedSet_eq ?_ ?_
  · rw [List.pairwise_append, List.pairwise_cons]
    refine ⟨pairwise_lt_sortedSet _, ⟨?_, pairwise_lt_sortedSet _⟩, ?_⟩
    · intro b hb
      simp only [mem_sortedSet, List.mem_filter, decide_eq_true_eq] at hb
      exact hb.2
    · intro a ha b hb
      simp only [mem_sortedSet, List.mem_filter, decide_eq_true_eq, List.mem_cons] at ha hb
      rcases hb with rfl | hb
      · exact ha.2
      · exact ha.2.trans hb.2
  · intro x
    simp only [List.mem_append, List.mem_cons, mem_sortedSet, List.mem_filter, decide_eq_true_eq]
    constructor
    · rintro (h | h | h)
      · exact Or.inr h.1
      · exact Or.inl h
      · exact Or.inr h.1
    · rintro (rfl | h)
      · exact Or.inr (Or.inl rfl)
      · rcases lt_trichotomy x r with hlt | rfl | hgt
        · exact Or.inl ⟨h, hlt⟩
        · exact Or.inr (Or.inl rfl)
        · exact Or.inr (Or.inr ⟨h, hgt⟩)

end Canonic
