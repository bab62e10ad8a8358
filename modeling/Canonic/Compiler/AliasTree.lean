import Mathlib
import Canonic.Except
import Canonic.Graph.Words
import Canonic.Compiler.Joins

set_option autoImplicit false

/-! # The alias tree

The join graph as a labelled graph: the states are source names, the labels are join aliases, and
a source has at most one join of an alias. `buildAliasTree` is sound (an entry of the tree is
reached along a simple alias word) and closed (every join of an entered source is entered), so
that under consistency it holds every reachable alias with the one source it stands for. -/

namespace Canonic

open Canonic.Graph

/-- The join graph: the source an alias leads to from a source. -/
def joinStep (ss : Sources) (src a : String) : Option String :=
  (ss.get src).bind fun s => (s.joins.find? fun j => j.alias_ == a).map (·.to_)

theorem find?_join {s : SemanticSource} {j : Join} (hj : j ∈ s.joins) :
    (s.joins.find? fun k => k.alias_ == j.alias_) = some j := by
  have hnd := s.joins_nodup
  revert hj hnd
  induction s.joins with
  | nil => simp
  | cons k ks ih =>
      intro hj hnd
      simp only [List.map_cons, List.nodup_cons, List.mem_map, not_exists, not_and] at hnd
      rcases List.mem_cons.mp hj with rfl | hj
      · simp
      · have hne : ¬ k.alias_ = j.alias_ := fun h => hnd.1 j hj h.symm
        simp [hne, ih hj hnd.2]

theorem joinStep_of_mem {ss : Sources} {src : String} {s : SemanticSource} {j : Join}
    (hs : ss.get src = some s) (hj : j ∈ s.joins) :
    joinStep ss src j.alias_ = some j.to_ := by
  simp [joinStep, hs, find?_join hj]

theorem joinStep_eq_some {ss : Sources} {src a t : String} :
    joinStep ss src a = some t ↔
      ∃ s j, ss.get src = some s ∧ j ∈ s.joins ∧ j.alias_ = a ∧ j.to_ = t := by
  constructor
  · intro h
    simp only [joinStep, Option.bind_eq_some_iff, Option.map_eq_some_iff] at h
    obtain ⟨s, hs, j, hj, rfl⟩ := h
    exact ⟨s, j, hs, List.mem_of_find?_eq_some hj, by simpa using List.find?_some hj, rfl⟩
  · rintro ⟨s, j, hs, hj, rfl, rfl⟩
    exact joinStep_of_mem hs hj

/-! ## Bounds: an alias word is no longer than the project has joins -/

/-- Every alias a join declares. -/
def Sources.joinAliases (ss : Sources) : List String :=
  ss.list.flatMap fun s => s.joins.map Join.alias_

theorem joinAliases_length (ss : Sources) : ss.joinAliases.length = ss.joinCount := by
  simp [Sources.joinAliases, Sources.joinCount, List.length_flatMap]

theorem alias_mem_joinAliases {ss : Sources} {src : String} {s : SemanticSource} {j : Join}
    (hs : ss.get src = some s) (hj : j ∈ s.joins) : j.alias_ ∈ ss.joinAliases :=
  List.mem_flatMap.mpr ⟨s, Sources.get_mem hs, List.mem_map_of_mem hj⟩

theorem mem_joinAliases_of_run {ss : Sources} {src t : String} {w : List String}
    (h : run (joinStep ss) src w = some t) : ∀ a ∈ w, a ∈ ss.joinAliases := by
  induction w generalizing src with
  | nil => simp
  | cons b w ih =>
      rw [run_cons, Option.bind_eq_some_iff] at h
      obtain ⟨m, hm, h⟩ := h
      obtain ⟨s, j, hs, hj, rfl, -⟩ := joinStep_eq_some.mp hm
      intro a ha
      rcases List.mem_cons.mp ha with rfl | ha
      · exact alias_mem_joinAliases hs hj
      · exact ih h a ha

theorem Graph.Simple.length_le {ss : Sources} {owner t : String} {w : List String}
    (h : Simple (joinStep ss) owner owner w t) : w.length ≤ ss.joinCount := by
  rw [← joinAliases_length]
  exact (List.subperm_of_subset (List.nodup_cons.mp h.nodup).2
    (mem_joinAliases_of_run h.run_eq)).length_le

/-! ## One expansion of the breadth-first loop -/

/-- The joins of a source that lead to a new alias. -/
def newJoins (tree : Dict String) (joins : List Join) : List Join :=
  joins.filter fun j => !tree.has j.alias_

/-- Expanding a source appends its new aliases to the tree and their sources to the queue. -/
theorem foldl_visitJoins (joins : List Join) (tree : Dict String) (queue : List String)
    (hnd : (joins.map Join.alias_).Nodup) :
    joins.foldl visitJoins (tree, queue) =
      (tree ++ (newJoins tree joins).map (fun j => (j.alias_, j.to_)),
        queue ++ (newJoins tree joins).map (·.to_)) := by
  induction joins generalizing tree queue with
  | nil => simp [newJoins]
  | cons j joins ih =>
      simp only [List.map_cons, List.nodup_cons, List.mem_map, not_exists, not_and] at hnd
      by_cases hj : tree.has j.alias_
      · simp only [List.foldl_cons, visitJoins, hj, if_true]
        rw [ih tree queue hnd.2]
        simp [newJoins, hj]
      · have hnew : newJoins (tree ++ [(j.alias_, j.to_)]) joins = newJoins tree joins := by
          refine List.filter_congr ?_
          intro k hk
          have : ¬ j.alias_ = k.alias_ := fun h => hnd.1 k hk h.symm
          simp [Dict.has, this]
        simp only [List.foldl_cons, visitJoins, hj, Bool.false_eq_true, if_false]
        rw [ih _ _ hnd.2, hnew]
        simp [newJoins, hj]

/-- What the breadth-first loop keeps: each entry is reached along a simple word whose labels are
entries themselves, keys are distinct, and an entry's source is queued or expanded. -/
structure TreeInv (ss : Sources) (owner : String) (queue : List String) (tree : Dict String) :
    Prop where
  nodup : (tree.map (·.1)).Nodup
  owner_mem : (owner, owner) ∈ tree
  reached : ∀ x t, (x, t) ∈ tree → ∃ w, Simple (joinStep ss) owner owner w t ∧
    (∀ a ∈ w, a ∈ tree.map (·.1)) ∧ (owner :: w).getLast? = some x
  queued : ∀ t ∈ queue, ∃ x, (x, t) ∈ tree
  expanded : ∀ x t, (x, t) ∈ tree → t ∈ queue ∨
    ∀ s, ss.get t = some s → ∀ j ∈ s.joins, j.alias_ ∈ tree.map (·.1)

theorem treeInv_init (ss : Sources) (owner : String) :
    TreeInv ss owner [owner] [(owner, owner)] where
  nodup := by simp
  owner_mem := by simp
  reached := by
    intro x t h
    simp only [List.mem_singleton, Prod.mk.injEq] at h
    obtain ⟨rfl, rfl⟩ := h
    exact ⟨[], ⟨rfl, by simp⟩, by simp, by simp⟩
  queued := by simp
  expanded := by
    intro x t h
    simp only [List.mem_singleton, Prod.mk.injEq] at h
    exact Or.inl (by simp [h.2])

theorem TreeInv.skip {ss : Sources} {owner src : String} {queue : List String} {tree : Dict String}
    (h : TreeInv ss owner (src :: queue) tree) (hs : ss.get src = none) :
    TreeInv ss owner queue tree where
  nodup := h.nodup
  owner_mem := h.owner_mem
  reached := h.reached
  queued := fun t ht => h.queued t (by simp [ht])
  expanded := by
    intro x t hx
    rcases h.expanded x t hx with hq | he
    · rcases List.mem_cons.mp hq with rfl | hq
      · exact Or.inr fun s hs' => by simp [hs] at hs'
      · exact Or.inl hq
    · exact Or.inr he

theorem TreeInv.expand {ss : Sources} {owner src : String} {queue : List String}
    {tree : Dict String} {s : SemanticSource}
    (h : TreeInv ss owner (src :: queue) tree) (hs : ss.get src = some s) :
    TreeInv ss owner (queue ++ (newJoins tree s.joins).map (·.to_))
      (tree ++ (newJoins tree s.joins).map fun j => (j.alias_, j.to_)) := by
  have hmem : ∀ j ∈ newJoins tree s.joins, j ∈ s.joins ∧ j.alias_ ∉ tree.map (·.1) := by
    intro j hj
    simp only [newJoins, List.mem_filter, Bool.not_eq_true', ← Bool.not_eq_true,
      Dict.has_iff] at hj
    exact hj
  have hkeys : ∀ a, a ∈ (tree ++ (newJoins tree s.joins).map fun j => (j.alias_, j.to_)).map (·.1)
      ↔ a ∈ tree.map (·.1) ∨ ∃ j ∈ newJoins tree s.joins, j.alias_ = a := by
    intro a
    simp [List.map_append]
  have hall : ∀ j ∈ s.joins, j.alias_ ∈
      (tree ++ (newJoins tree s.joins).map fun j => (j.alias_, j.to_)).map (·.1) := by
    intro j hj
    rw [hkeys]
    by_cases ht : j.alias_ ∈ tree.map (·.1)
    · exact Or.inl ht
    · refine Or.inr ⟨j, ?_, rfl⟩
      simp only [newJoins, List.mem_filter, hj, true_and, Bool.not_eq_true', ← Bool.not_eq_true,
        Dict.has_iff]
      exact ht
  refine ⟨?_, ?_, ?_, ?_, ?_⟩
  -- a new alias is not in the tree, and a source declares each alias once
  · rw [List.map_append, List.nodup_append]
    refine ⟨h.nodup, ?_, ?_⟩
    · rw [List.map_map]
      exact s.joins_nodup.sublist ((List.filter_sublist).map _)
    · intro a ha b hb hab
      simp only [List.map_map, List.mem_map, Function.comp_apply] at hb
      obtain ⟨j, hj, rfl⟩ := hb
      exact (hmem j hj).2 (hab ▸ ha)
  · exact List.mem_append_left _ h.owner_mem
  · intro x t hx
    rcases List.mem_append.mp hx with hx | hx
    · obtain ⟨w, hw, hwt, hl⟩ := h.reached x t hx
      exact ⟨w, hw, fun a ha => (hkeys a).mpr (Or.inl (hwt a ha)), hl⟩
    · -- a new alias extends the word of the source it is declared on
      obtain ⟨j, hj, hjx⟩ := List.mem_map.mp hx
      simp only [Prod.mk.injEq] at hjx
      obtain ⟨rfl, rfl⟩ := hjx
      obtain ⟨y, hy⟩ := h.queued src (by simp)
      obtain ⟨w, hw, hwt, -⟩ := h.reached y src hy
      obtain ⟨hjs, hjt⟩ := hmem j hj
      refine ⟨w ++ [j.alias_], ⟨run_concat.mpr ⟨src, hw.run_eq, joinStep_of_mem hs hjs⟩, ?_⟩,
        ?_, ?_⟩
      · rw [← List.cons_append, List.nodup_append]
        refine ⟨hw.nodup, by simp, ?_⟩
        intro a ha b hb hab
        obtain rfl : b = j.alias_ := by simpa using hb
        subst hab
        rcases List.mem_cons.mp ha with ha | ha
        · exact hjt (ha ▸ List.mem_map_of_mem (f := (·.1)) h.owner_mem)
        · exact hjt (hwt _ ha)
      · intro a ha
        rcases List.mem_append.mp ha with ha | ha
        · exact (hkeys a).mpr (Or.inl (hwt a ha))
        · exact (hkeys a).mpr (Or.inr ⟨j, hj, (List.mem_singleton.mp ha).symm⟩)
      · exact getLast?_cons_concat _ _ _
  -- what is queued now was queued before, or was just joined
  · intro t ht
    rcases List.mem_append.mp ht with ht | ht
    · obtain ⟨x, hx⟩ := h.queued t (by simp [ht])
      exact ⟨x, List.mem_append_left _ hx⟩
    · obtain ⟨j, hj, rfl⟩ := List.mem_map.mp ht
      exact ⟨j.alias_, List.mem_append_right _ (List.mem_map.mpr ⟨j, hj, rfl⟩)⟩
  · intro x t hx
    rcases List.mem_append.mp hx with hx | hx
    · rcases h.expanded x t hx with hq | he
      · rcases List.mem_cons.mp hq with rfl | hq
        -- all joins of the source taken from the queue are in the tree now
        · refine Or.inr fun s' hs' j hj => ?_
          rw [hs] at hs'
          obtain rfl := Option.some.inj hs'
          exact hall j hj
        · exact Or.inl (List.mem_append_left _ hq)
      · exact Or.inr fun s' hs' j hj => (hkeys _).mpr (Or.inl (he s' hs' j hj))
    · obtain ⟨j, hj, hjx⟩ := List.mem_map.mp hx
      simp only [Prod.mk.injEq] at hjx
      exact Or.inl (List.mem_append_right _ (List.mem_map.mpr ⟨j, hj, hjx.2⟩))

/-! ## The whole loop -/

theorem TreeInv.length_le {ss : Sources} {owner : String} {queue : List String}
    {tree : Dict String} (h : TreeInv ss owner queue tree) : tree.length ≤ ss.joinCount + 1 := by
  have hsub : tree.map (·.1) ⊆ owner :: ss.joinAliases := by
    intro x hx
    obtain ⟨⟨x', t⟩, hp, rfl⟩ := List.mem_map.mp hx
    obtain ⟨w, hw, -, hl⟩ := h.reached x' t hp
    have : x' ∈ owner :: w := List.mem_of_getLast? hl
    rcases List.mem_cons.mp this with rfl | hxw
    · simp
    · exact List.mem_cons_of_mem _ (mem_joinAliases_of_run hw.run_eq _ hxw)
  have := (List.subperm_of_subset h.nodup hsub).length_le
  simpa [joinAliases_length] using this

/-- **The loop ends with an empty queue**: the fuel counts the aliases still to be entered. -/
theorem aliasTreeLoop_inv {ss : Sources} {owner : String} (n : Nat) (queue : List String)
    (tree : Dict String) (h : TreeInv ss owner queue tree)
    (hfuel : queue.length + (ss.joinCount + 1) ≤ n + tree.length) :
    TreeInv ss owner [] (aliasTreeLoop ss n queue tree) := by
  induction n generalizing queue tree with
  | zero =>
      have := h.length_le
      have hq : queue = [] := List.eq_nil_of_length_eq_zero (by omega)
      subst hq
      exact h
  | succ n ih =>
      cases queue with
      | nil => exact h
      | cons src queue =>
          cases hs : ss.get src with
          | none =>
              simp only [aliasTreeLoop, hs]
              refine ih queue tree (h.skip hs) ?_
              simp only [List.length_cons] at hfuel
              omega
          | some s =>
              simp only [aliasTreeLoop, hs]
              rw [foldl_visitJoins _ _ _ s.joins_nodup]
              refine ih _ _ (h.expand hs) ?_
              simp only [List.length_cons] at hfuel
              simp only [List.length_append, List.length_map]
              omega

theorem buildAliasTree_inv (ss : Sources) (owner : String) :
    TreeInv ss owner [] (buildAliasTree ss owner) :=
  aliasTreeLoop_inv _ _ _ (treeInv_init ss owner) (by simp; omega)

/-- The owner stands for itself. -/
theorem buildAliasTree_owner (ss : Sources) (owner : String) :
    (buildAliasTree ss owner).get owner = some owner := by
  have hinv := buildAliasTree_inv ss owner
  exact Dict.get_of_mem hinv.nodup hinv.owner_mem

/-- An alias of the tree is the owner, or entered by a simple word from it. -/
theorem buildAliasTree_sound {ss : Sources} {owner x t : String}
    (h : (buildAliasTree ss owner).get x = some t) :
    ∃ w, Simple (joinStep ss) owner owner w t ∧ (owner :: w).getLast? = some x := by
  obtain ⟨w, hw, -, hl⟩ := (buildAliasTree_inv ss owner).reached x t (Dict.get_eq_some_mem h)
  exact ⟨w, hw, hl⟩

/-- **Under consistency the tree is the alias map of the graph**: it knows every alias a simple
word enters, with the source the word leads to. -/
theorem buildAliasTree_complete {ss : Sources} {owner t : String} {w : List String}
    (hc : Consistent (joinStep ss) owner owner) (h : Simple (joinStep ss) owner owner w t) :
    ∀ x, (owner :: w).getLast? = some x → (buildAliasTree ss owner).get x = some t := by
  have hinv := buildAliasTree_inv ss owner
  -- on the word from its end: an alias is entered when the source before it is expanded
  induction w using List.reverseRecOn generalizing t with
  | nil =>
      intro x hx
      obtain rfl : owner = x := by simpa using hx
      obtain rfl : owner = t := by simpa using h.run_eq
      obtain ⟨v, hv⟩ := Dict.get_isSome_of_mem (List.mem_map_of_mem (f := (·.1)) hinv.owner_mem)
      obtain ⟨w, hw, hl⟩ := buildAliasTree_sound hv
      have hw0 : w = [] := by
        rcases List.eq_nil_or_concat' w with rfl | ⟨w', z, rfl⟩
        · rfl
        · exfalso
          have hz : owner = z := by
            rw [getLast?_cons_concat] at hl
            exact (Option.some.inj hl).symm
          have := (List.nodup_cons.mp hw.nodup).1
          simp [hz] at this
      subst hw0
      obtain rfl : owner = v := by simpa using hw.run_eq
      exact hv
  | append_singleton w y ih =>
      intro x hx
      obtain rfl : y = x := by
        rw [getLast?_cons_concat] at hx
        exact Option.some.inj hx
      obtain ⟨m, hm⟩ := h.left
      obtain ⟨m', hm', hstep⟩ := run_concat.mp h.run_eq
      obtain rfl : m' = m := by
        have := hm.run_eq
        rw [hm'] at this
        exact Option.some.inj this
      obtain ⟨s, j, hs, hj, rfl, -⟩ := joinStep_eq_some.mp hstep
      obtain ⟨z, hz⟩ : ∃ z, (owner :: w).getLast? = some z := by
        cases hl : (owner :: w).getLast? with
        | none => simp at hl
        | some z => exact ⟨z, rfl⟩
      have hzm := ih hm z hz
      have hmem : j.alias_ ∈ (buildAliasTree ss owner).map (·.1) := by
        rcases hinv.expanded z m' (Dict.get_eq_some_mem hzm) with hq | he
        · simp at hq
        · exact he s hs j hj
      obtain ⟨v, hv⟩ := Dict.get_isSome_of_mem hmem
      obtain ⟨u, hu, hul⟩ := buildAliasTree_sound hv
      rcases List.eq_nil_or_concat' u with rfl | ⟨u', z', rfl⟩
      · exfalso
        obtain hjo : owner = j.alias_ := by simpa using hul
        have := (List.nodup_cons.mp h.nodup).1
        simp [hjo] at this
      · obtain rfl : z' = j.alias_ := by
          rw [getLast?_cons_concat] at hul
          exact Option.some.inj hul
        -- the word found and the given one end in one alias, so they lead to one source
        rw [hv, hc u' w _ v t hu h]

end Canonic
