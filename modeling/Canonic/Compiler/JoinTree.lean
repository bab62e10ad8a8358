import Canonic.Compiler.AliasTree

set_option autoImplicit false

/-! # Soundness of join planning

`allSimplePaths` lists exactly the simple alias words to its target, each once and each as the
edges it traverses. `planJoins` therefore always returns a tree: every alias is introduced once,
by an edge that starts at the owner or at an alias introduced before.

Two further properties depend on the graph. The source an edge joins is the one
`buildAliasTree` records for the edge's alias, and each target's chosen path is kept whole by the
merge, **when no alias stands for two sources**; in a graph where one does, a query exists for
which the edge and the alias tree disagree. -/

namespace Canonic

open Canonic.Graph

variable {lib : Lib} {ss : Sources}

/-! ## Edges and words -/

theorem traverse_eq_ok {source : SemanticSource} {src a : String} {j : Join} {e : JoinEdge}
    (h : traverse lib ss source src a j = .ok e) :
    e.fromSource = src ∧ e.fromAlias = a ∧ e.join = j ∧ e.alias_ = j.alias_ := by
  simp only [traverse, bind_eq_ok, pure_eq_ok] at h
  obtain ⟨onSql, -, rfl⟩ := h
  exact ⟨rfl, rfl, rfl, rfl⟩

/-- A list of edges that traverses declared joins, one after the other. -/
def IsTrail (lib : Lib) (ss : Sources) : String → String → List JoinEdge → Prop
  | _, _, [] => True
  | a, src, e :: es =>
      (∃ s, ss.get src = some s ∧ e.join ∈ s.joins ∧ traverse lib ss s src a e.join = .ok e) ∧
        IsTrail lib ss e.alias_ e.join.to_ es

/-- The source a trail from `src` ends in. -/
def endSource (src : String) (p : List JoinEdge) : String :=
  (p.getLast?.map fun e => e.join.to_).getD src

theorem endSource_cons (src : String) (e : JoinEdge) (p : List JoinEdge) :
    endSource src (e :: p) = endSource e.join.to_ p := by
  simp only [endSource, List.getLast?_cons]
  cases p.getLast? <;> rfl

theorem IsTrail.edge {a src : String} {e : JoinEdge} {es : List JoinEdge}
    (h : IsTrail lib ss a src (e :: es)) :
    e.fromAlias = a ∧ e.alias_ = e.join.alias_ ∧ joinStep ss src e.alias_ = some e.join.to_ := by
  obtain ⟨⟨s, hs, hj, ht⟩, -⟩ := h
  obtain ⟨-, hfrom, -, halias⟩ := traverse_eq_ok ht
  exact ⟨hfrom, halias, by rw [halias]; exact joinStep_of_mem hs hj⟩

/-- Every edge of a trail traverses a declared join. -/
theorem IsTrail.mem {a src : String} {p : List JoinEdge} (h : IsTrail lib ss a src p)
    {e : JoinEdge} (he : e ∈ p) :
    ∃ src' s, ss.get src' = some s ∧ e.join ∈ s.joins ∧
      traverse lib ss s src' e.fromAlias e.join = .ok e := by
  induction p generalizing a src with
  | nil => simp at he
  | cons f p ih =>
      rcases List.mem_cons.mp he with rfl | he
      · obtain ⟨⟨s, hs, hj, ht⟩, -⟩ := h
        exact ⟨src, s, hs, hj, (traverse_eq_ok ht).2.1 ▸ ht⟩
      · exact ih h.2 he

theorem IsTrail.append {a src : String} {p q : List JoinEdge}
    (h : IsTrail lib ss a src (p ++ q)) : IsTrail lib ss a src p := by
  induction p generalizing a src with
  | nil => trivial
  | cons e p ih => exact ⟨h.1, ih h.2⟩

/-- A trail runs along its aliases to its end. -/
theorem IsTrail.run_eq {a src : String} {p : List JoinEdge} (h : IsTrail lib ss a src p) :
    run (joinStep ss) src (aliasesOf p) = some (endSource src p) := by
  induction p generalizing a src with
  | nil => simp [aliasesOf, endSource]
  | cons e p ih =>
      have := ih h.2
      rw [endSource_cons]
      simp only [aliasesOf, List.map_cons, run_cons, h.edge.2.2, Option.bind_some]
      exact this

/-- The aliases of a trail determine its edges. -/
theorem IsTrail.eq_of_aliases {a src : String} {p q : List JoinEdge}
    (hp : IsTrail lib ss a src p) (hq : IsTrail lib ss a src q)
    (h : aliasesOf p = aliasesOf q) : p = q := by
  induction p generalizing a src q with
  | nil => cases q <;> simp_all [aliasesOf]
  | cons e p ih =>
      cases q with
      | nil => simp [aliasesOf] at h
      | cons f q =>
          simp only [aliasesOf, List.map_cons, List.cons.injEq] at h
          obtain ⟨⟨s, hs, hj, ht⟩, hp'⟩ := hp
          obtain ⟨⟨s', hs', hj', ht'⟩, hq'⟩ := hq
          obtain rfl : s = s' := Option.some.inj (hs.symm.trans hs')
          have hje : e.join = f.join := by
            have hfe : e.join.alias_ = f.join.alias_ := by
              rw [← (traverse_eq_ok ht).2.2.2, ← (traverse_eq_ok ht').2.2.2, h.1]
            have h1 := find?_join hj
            rw [hfe, find?_join hj'] at h1
            exact (Option.some.inj h1).symm
          have hef : e = f := by
            rw [hje] at ht
            rw [ht] at ht'
            exact Except.ok.inj ht'
          subst hef
          rw [ih hp' hq' h.2]

/-! ## Path enumeration -/

/-- What the recursion hands on to one join of a node. -/
theorem walkPaths_succ {target a src : String} {n : Nat} {visited : List String}
    {paths : List (List JoinEdge)} {source : SemanticSource} (hne : a ≠ target)
    (hs : ss.get src = some source)
    (h : walkPaths lib ss target (n + 1) a src visited = .ok paths) :
    ∃ found, paths = found.flatten ∧ List.Forall₂ (fun join ps =>
      (join.alias_ ∈ visited ∧ ps = []) ∨ (join.alias_ ∉ visited ∧ ∃ edge tails,
        traverse lib ss source src a join = .ok edge ∧
        walkPaths lib ss target n join.alias_ join.to_ (join.alias_ :: visited) = .ok tails ∧
        ps = tails.map (edge :: ·))) source.joins found := by
  simp only [walkPaths, hne, if_false, hs, bind_eq_ok, pure_eq_ok, mapM_eq_ok] at h
  obtain ⟨found, hf, rfl⟩ := h
  refine ⟨found, rfl, hf.imp ?_⟩
  intro join ps hps
  by_cases hv : join.alias_ ∈ visited
  · simp only [hv, if_true, Except.ok.injEq] at hps
    exact Or.inl ⟨hv, hps.symm⟩
  · simp only [hv, if_false, bind_eq_ok, pure_eq_ok] at hps
    obtain ⟨edge, he, tails, ht, rfl⟩ := hps
    exact Or.inr ⟨hv, edge, tails, he, ht, rfl⟩

/-- **Every listed path is a simple trail to the target.** -/
theorem walkPaths_sound {target : String} (n : Nat) {a src : String} {visited : List String}
    {paths : List (List JoinEdge)} (h : walkPaths lib ss target n a src visited = .ok paths)
    {p : List JoinEdge} (hp : p ∈ paths) :
    IsTrail lib ss a src p ∧ (aliasesOf p).Nodup ∧ (∀ x ∈ aliasesOf p, x ∉ visited) ∧
      (a :: aliasesOf p).getLast? = some target := by
  -- on the fuel: a path is an edge and the path of a walk that has the edge visited
  induction n generalizing a src visited paths p with
  | zero =>
      simp only [walkPaths, Except.ok.injEq] at h
      subst h
      simp at hp
  | succ n ih =>
      by_cases hat : a = target
      · simp only [walkPaths, hat, if_true, Except.ok.injEq] at h
        subst h
        obtain rfl : p = [] := by simpa using hp
        exact ⟨trivial, by simp [aliasesOf], by simp [aliasesOf], by simp [aliasesOf, hat]⟩
      · cases hs : ss.get src with
        | none =>
            simp only [walkPaths, hat, if_false, hs, Except.ok.injEq] at h
            subst h
            simp at hp
        | some source =>
            obtain ⟨found, rfl, hf⟩ := walkPaths_succ hat hs h
            obtain ⟨ps, hps, hp⟩ := List.mem_flatten.mp hp
            obtain ⟨join, hj, hcase⟩ := forall₂_mem_right hf hps
            rcases hcase with ⟨-, rfl⟩ | ⟨hv, edge, tails, he, ht, rfl⟩
            · simp at hp
            · obtain ⟨tail, htail, rfl⟩ := List.mem_map.mp hp
              obtain ⟨h1, h2, h3, h4⟩ := ih ht htail
              obtain ⟨-, -, hjoin, halias⟩ := traverse_eq_ok he
              have hdis : edge.alias_ ∉ aliasesOf tail := by
                rw [halias]
                exact fun hm => h3 _ hm (by simp)
              refine ⟨⟨⟨source, hs, by rw [hjoin]; exact hj, by rw [hjoin]; exact he⟩, ?_⟩,
                ?_, ?_, ?_⟩
              · rw [halias, hjoin]
                exact h1
              · simp only [aliasesOf, List.map_cons, List.nodup_cons]
                exact ⟨hdis, h2⟩
              · intro x hx
                simp only [aliasesOf, List.map_cons, List.mem_cons] at hx
                rcases hx with rfl | hx
                · rw [halias]
                  exact hv
                · exact fun hxv => h3 x hx (by simp [hxv])
              · simp only [aliasesOf, List.map_cons, List.getLast?_cons_cons]
                rw [halias]
                exact h4

/-- **Every simple word to the target is listed.** -/
theorem walkPaths_complete {target : String} (n : Nat) {a src t : String} {visited w : List String}
    {paths : List (List JoinEdge)} (h : walkPaths lib ss target n a src visited = .ok paths)
    (hrun : run (joinStep ss) src w = some t) (hnd : w.Nodup) (hdis : ∀ x ∈ w, x ∉ visited)
    (ha : a ∈ visited) (hlast : (a :: w).getLast? = some target) (hlen : w.length < n) :
    ∃ p ∈ paths, aliasesOf p = w := by
  -- on the fuel: the first alias of the word is not visited, so the walk takes its edge
  induction n generalizing a src visited paths w with
  | zero => omega
  | succ n ih =>
      by_cases hat : a = target
      · -- the walk stops here, and a longer word would enter the target a second time
        cases w with
        | nil =>
            simp only [walkPaths, hat, if_true, Except.ok.injEq] at h
            subst h
            exact ⟨[], by simp, rfl⟩
        | cons b w =>
            exfalso
            have : target ∈ b :: w := by
              rw [List.getLast?_cons_cons] at hlast
              exact List.mem_of_getLast? hlast
            exact hdis target this (hat ▸ ha)
      · cases w with
        | nil =>
            exfalso
            exact hat (by simpa using hlast)
        | cons b w =>
            rw [run_cons, Option.bind_eq_some_iff] at hrun
            obtain ⟨m, hm, hrun⟩ := hrun
            obtain ⟨source, join, hs, hj, rfl, rfl⟩ := joinStep_eq_some.mp hm
            obtain ⟨found, rfl, hf⟩ := walkPaths_succ hat hs h
            obtain ⟨ps, hps, hcase⟩ := forall₂_mem_left hf hj
            rcases hcase with ⟨hv, -⟩ | ⟨hv, edge, tails, he, ht, rfl⟩
            · exact absurd hv (hdis _ (by simp))
            · obtain ⟨hbw, hw⟩ := List.nodup_cons.mp hnd
              obtain ⟨p, hp, hpw⟩ := ih ht hrun hw
                (by
                  intro x hx hxv
                  rcases List.mem_cons.mp hxv with rfl | hxv
                  · exact hbw hx
                  · exact hdis x (by simp [hx]) hxv)
                (by simp) (by rwa [List.getLast?_cons_cons] at hlast)
                (by simp only [List.length_cons] at hlen; omega)
              refine ⟨edge :: p, List.mem_flatten.mpr ⟨_, hps, List.mem_map_of_mem hp⟩, ?_⟩
              simp only [aliasesOf, List.map_cons, List.cons.injEq]
              exact ⟨(traverse_eq_ok he).2.2.2, hpw⟩

/-- **No path is listed twice.** -/
theorem walkPaths_nodup {target : String} (n : Nat) {a src : String} {visited : List String}
    {paths : List (List JoinEdge)} (h : walkPaths lib ss target n a src visited = .ok paths) :
    (paths.map aliasesOf).Nodup := by
  induction n generalizing a src visited paths with
  | zero =>
      simp only [walkPaths, Except.ok.injEq] at h
      simp [← h]
  | succ n ih =>
      by_cases hat : a = target
      · simp only [walkPaths, hat, if_true, Except.ok.injEq] at h
        simp [← h]
      · cases hs : ss.get src with
        | none =>
            simp only [walkPaths, hat, if_false, hs, Except.ok.injEq] at h
            simp [← h]
        | some source =>
            obtain ⟨found, rfl, hf⟩ := walkPaths_succ hat hs h
            have hnd := source.joins_nodup
            generalize source.joins = joins at hf hnd
            clear h
            -- the paths through one join start with its alias, and these are distinct
            induction hf with
            | nil => simp
            | @cons join ps joins found hcase hrest ih' =>
                simp only [List.map_cons, List.nodup_cons] at hnd
                simp only [List.flatten_cons, List.map_append, List.nodup_append]
                refine ⟨?_, ih' hnd.2, ?_⟩
                · rcases hcase with ⟨-, rfl⟩ | ⟨-, edge, tails, -, ht, rfl⟩
                  · simp
                  · rw [List.map_map]
                    have : (aliasesOf ∘ fun x => edge :: x) =
                        (fun x => edge.alias_ :: x) ∘ aliasesOf := rfl
                    rw [this, ← List.map_map]
                    exact (ih ht).map (fun _ _ h => (List.cons.inj h).2)
                · intro x hx y hy hxy
                  subst hxy
                  rcases hcase with ⟨-, rfl⟩ | ⟨-, edge, tails, he, -, rfl⟩
                  · simp at hx
                  · obtain ⟨p, hp, rfl⟩ := List.mem_map.mp hx
                    obtain ⟨tail, -, rfl⟩ := List.mem_map.mp hp
                    obtain ⟨q, hq, hqp⟩ := List.mem_map.mp hy
                    obtain ⟨qs, hqs, hq⟩ := List.mem_flatten.mp hq
                    obtain ⟨join', hj', hcase'⟩ := forall₂_mem_right hrest hqs
                    rcases hcase' with ⟨-, rfl⟩ | ⟨-, edge', tails', he', -, rfl⟩
                    · simp at hq
                    · obtain ⟨tail', -, rfl⟩ := List.mem_map.mp hq
                      simp only [aliasesOf, List.map_cons, List.cons.injEq] at hqp
                      refine hnd.1 (List.mem_map.mpr ⟨join', hj', ?_⟩)
                      rw [← (traverse_eq_ok he').2.2.2, hqp.1, (traverse_eq_ok he).2.2.2]

/-! ## Choosing one path -/

/-- The paths to a target other than the owner are its simple words. -/
theorem mem_allSimplePaths {owner target : String} {paths : List (List JoinEdge)}
    (h : allSimplePaths lib ss owner target = .ok paths) {p : List JoinEdge} (hp : p ∈ paths) :
    IsTrail lib ss owner owner p ∧
      Simple (joinStep ss) owner owner (aliasesOf p) (endSource owner p) ∧
      (owner :: aliasesOf p).getLast? = some target := by
  obtain ⟨h1, h2, h3, h4⟩ := walkPaths_sound _ h hp
  exact ⟨h1, ⟨h1.run_eq, List.nodup_cons.mpr ⟨fun hm => h3 owner hm (by simp), h2⟩⟩, h4⟩

theorem exists_mem_allSimplePaths {owner target t : String} {w : List String}
    {paths : List (List JoinEdge)} (h : allSimplePaths lib ss owner target = .ok paths)
    (hw : Simple (joinStep ss) owner owner w t)
    (hlast : (owner :: w).getLast? = some target) : ∃ p ∈ paths, aliasesOf p = w := by
  obtain ⟨hown, hnd⟩ := List.nodup_cons.mp hw.nodup
  refine walkPaths_complete _ h hw.run_eq hnd ?_ (by simp) hlast ?_
  · rintro x hx hxo
    obtain rfl : x = owner := by simpa using hxo
    exact hown hx
  · have := hw.length_le
    omega

theorem getLast?_of_cons {α : Type} {a x : α} {w : List α} (hne : x ≠ a) :
    (a :: w).getLast? = some x ↔ w.getLast? = some x := by
  rw [List.getLast?_cons]
  cases w.getLast? with
  | none => simp [Ne.symm hne]
  | some y => simp

/-- The path that is picked is the only one, or the only one `via` leaves. -/
theorem choosePath_eq_ok {owner target : String} {via : Option (List String)} {p : List JoinEdge}
    (h : choosePath lib ss owner via target = .ok p) :
    ∃ paths, allSimplePaths lib ss owner target = .ok paths ∧ p ∈ paths ∧
      ∀ q ∈ paths, q ≠ p →
        ∃ v, via = some v ∧ v <+: aliasesOf p ∧ ¬ v <+: aliasesOf q := by
  simp only [choosePath, bind_eq_ok] at h
  obtain ⟨paths, hpaths, h⟩ := h
  refine ⟨paths, hpaths, ?_⟩
  split at h
  · simp at h
  · obtain ⟨left, hleft, h⟩ := bind_eq_ok.mp h
    obtain rfl : left = [p] := by
      rcases left with _ | ⟨q, _ | ⟨q', left⟩⟩
      · simp at h
      · simpa using h
      · simp at h
    cases via with
    | none =>
        simp only [narrowByVia, Except.ok.injEq] at hleft
        simp [hleft]
    | some v =>
        simp only [narrowByVia] at hleft
        split at hleft
        · split at hleft
          · simp at hleft
          · simp only [Except.ok.injEq] at hleft
            have hmem : ∀ q, q ∈ paths ∧ v <+: aliasesOf q ↔ q = p := by
              intro q
              have : q ∈ filterByVia paths v ↔ q ∈ paths ∧ v <+: aliasesOf q := by
                simp [filterByVia, List.mem_filter]
              rw [← this, hleft, List.mem_singleton]
            have hp := (hmem p).mpr rfl
            exact ⟨hp.1, fun q hq hne =>
              ⟨v, rfl, hp.2, fun hv => hne ((hmem q).mp ⟨hq, hv⟩)⟩⟩
        · simp only [Except.ok.injEq] at hleft
          simp [hleft]

theorem choosePath_trail {owner target : String} {via : Option (List String)} {p : List JoinEdge}
    (h : choosePath lib ss owner via target = .ok p) :
    IsTrail lib ss owner owner p ∧
      Simple (joinStep ss) owner owner (aliasesOf p) (endSource owner p) := by
  obtain ⟨paths, hpaths, hp, -⟩ := choosePath_eq_ok h
  exact ⟨(mem_allSimplePaths hpaths hp).1, (mem_allSimplePaths hpaths hp).2.1⟩

theorem choosePath_chosen {owner target : String} {via : Option (List String)} {p : List JoinEdge}
    (hne : target ≠ owner) (h : choosePath lib ss owner via target = .ok p) :
    Chosen (joinStep ss) owner owner via target (aliasesOf p) := by
  obtain ⟨paths, hpaths, hp, huniq⟩ := choosePath_eq_ok h
  obtain ⟨-, hsimple, hlast⟩ := mem_allSimplePaths hpaths hp
  refine ⟨⟨_, hsimple⟩, (getLast?_of_cons hne).mp hlast, ?_⟩
  intro w' t hw' hlast' hw
  obtain ⟨q, hq, rfl⟩ := exists_mem_allSimplePaths hpaths hw' ((getLast?_of_cons hne).mpr hlast')
  exact huniq q hq (fun hqp => hw (by rw [hqp]))

theorem choosePath_owner {owner : String} {via : Option (List String)} {p : List JoinEdge}
    (h : choosePath lib ss owner via owner = .ok p) : p = [] := by
  obtain ⟨paths, hpaths, hp, -⟩ := choosePath_eq_ok h
  obtain ⟨-, hsimple, hlast⟩ := mem_allSimplePaths hpaths hp
  rcases List.eq_nil_or_concat' p with rfl | ⟨q, e, rfl⟩
  · rfl
  · exfalso
    simp only [aliasesOf, List.map_append, List.map_cons, List.map_nil] at hlast
    rw [getLast?_cons_concat, Option.some.injEq] at hlast
    have := (List.nodup_cons.mp hsimple.nodup).1
    simp [aliasesOf, hlast] at this

/-! ## Merging paths -/

/-- Each edge starts at the owner or at an alias that an earlier edge introduced. -/
def Rooted (owner : String) (edges : List JoinEdge) : Prop :=
  ∀ pre e post, edges = pre ++ e :: post → e.fromAlias = owner ∨ e.fromAlias ∈ aliasesOf pre

theorem Rooted.concat {owner : String} {edges : List JoinEdge} {e : JoinEdge}
    (h : Rooted owner edges) (he : e.fromAlias = owner ∨ e.fromAlias ∈ aliasesOf edges) :
    Rooted owner (edges ++ [e]) := by
  intro pre f post heq
  rcases List.eq_nil_or_concat' post with rfl | ⟨post', z, rfl⟩
  · obtain ⟨rfl, hfe⟩ := List.append_inj' heq rfl
    obtain rfl : e = f := by simpa using hfe
    exact he
  · have heq' : edges ++ [e] = (pre ++ f :: post') ++ [z] := by simpa using heq
    exact h pre f post' (List.append_inj' heq' rfl).1

/-- Merging a trail keeps the tree: new aliases only, each hung below a known one. -/
theorem mergePath_tree {owner a src : String} {edges path : List JoinEdge}
    (hpath : IsTrail lib ss a src path) (ha : a = owner ∨ a ∈ aliasesOf edges)
    (hroot : Rooted owner edges) (honce : (owner :: aliasesOf edges).Nodup) :
    Rooted owner (mergePath edges path owner) ∧
      (owner :: aliasesOf (mergePath edges path owner)).Nodup := by
  induction path generalizing a src edges with
  | nil => exact ⟨hroot, honce⟩
  | cons e path ih =>
      simp only [mergePath, List.foldl_cons]
      by_cases he : e.alias_ = owner ∨ e.alias_ ∈ aliasesOf edges
      · simp only [he, if_true]
        exact ih hpath.2 he hroot honce
      · simp only [he, if_false]
        have hfrom := hpath.edge.1
        refine ih hpath.2 (Or.inr (by simp [aliasesOf])) (hroot.concat (by rw [hfrom]; exact ha)) ?_
        rw [not_or] at he
        simp only [aliasesOf, List.map_append, List.map_cons, List.map_nil]
        rw [← List.cons_append, List.nodup_append]
        refine ⟨honce, by simp, ?_⟩
        intro x hx y hy hxy
        obtain rfl : y = e.alias_ := by simpa using hy
        subst hxy
        rcases List.mem_cons.mp hx with hx | hx
        · exact he.1 hx
        · exact he.2 hx

theorem subset_mergePath (edges path : List JoinEdge) (owner : String) :
    edges ⊆ mergePath edges path owner := by
  induction path generalizing edges with
  | nil => exact fun _ h => h
  | cons e path ih =>
      simp only [mergePath, List.foldl_cons]
      split
      · exact ih edges
      · exact fun f hf => ih _ (List.mem_append_left _ hf)

theorem mem_mergePath {edges path : List JoinEdge} {owner : String} {f : JoinEdge}
    (h : f ∈ mergePath edges path owner) : f ∈ edges ∨ f ∈ path := by
  induction path generalizing edges with
  | nil => exact Or.inl h
  | cons e path ih =>
      simp only [mergePath, List.foldl_cons] at h
      split at h
      · exact (ih h).imp_right (List.mem_cons_of_mem _)
      · rcases ih h with h' | h'
        · rcases List.mem_append.mp h' with h'' | h''
          · exact Or.inl h''
          · exact Or.inr (by simp at h''; simp [h''])
        · exact Or.inr (List.mem_cons_of_mem _ h')

/-- After the merge, every alias of the path is introduced. -/
theorem alias_mem_mergePath {edges path : List JoinEdge} {owner : String} {f : JoinEdge}
    (hf : f ∈ path) (hown : f.alias_ ≠ owner) :
    f.alias_ ∈ aliasesOf (mergePath edges path owner) := by
  induction path generalizing edges with
  | nil => simp at hf
  | cons e path ih =>
      simp only [mergePath, List.foldl_cons]
      rcases List.mem_cons.mp hf with rfl | hf
      · split
        · rename_i h
          exact List.map_subset _ (subset_mergePath _ _ _) (h.resolve_left hown)
        · exact List.map_subset _ (subset_mergePath _ _ _) (by simp)
      · exact ih hf

/-! ## The plan -/

/-- The edges of a plan form a tree rooted at the owner. -/
structure IsJoinTree (owner : String) (edges : List JoinEdge) : Prop where
  once : (owner :: aliasesOf edges).Nodup
  rooted : Rooted owner edges

/-- What a plan owes to the code around it. -/
structure SoundPlan (lib : Lib) (ss : Sources) (owner : String) (targets : List String)
    (via : Option (List String)) (edges : List JoinEdge) : Prop where
  /-- Every alias is introduced once, below the owner or an earlier alias. -/
  tree : IsJoinTree owner edges
  /-- The whole path chosen for a target is in the plan. -/
  whole : ∀ t ∈ targets, ∀ p, choosePath lib ss owner via t = .ok p → p ⊆ edges
  /-- An edge joins the source the alias tree records for its alias. -/
  agree : ∀ e ∈ edges, (buildAliasTree ss owner).get e.alias_ = some e.join.to_

theorem planTarget_eq_ok {owner t : String} {via : Option (List String)}
    {edges edges' : List JoinEdge} (h : planTarget lib ss owner via edges t = .ok edges') :
    ((t = owner ∨ t ∈ aliasesOf edges) ∧ edges' = edges) ∨
      (¬ (t = owner ∨ t ∈ aliasesOf edges) ∧ ∃ p, choosePath lib ss owner via t = .ok p ∧
        edges' = mergePath edges p owner) := by
  simp only [planTarget] at h
  split at h
  · exact Or.inl ⟨by assumption, (Except.ok.inj h).symm⟩
  · obtain ⟨p, hp, hedges⟩ := bind_eq_ok.mp h
    exact Or.inr ⟨by assumption, p, hp, (pure_eq_ok.mp hedges).symm⟩

theorem planTarget_tree {owner t : String} {via : Option (List String)}
    {edges edges' : List JoinEdge} (h : planTarget lib ss owner via edges t = .ok edges')
    (hinv : IsJoinTree owner edges) : IsJoinTree owner edges' := by
  rcases planTarget_eq_ok h with ⟨-, rfl⟩ | ⟨-, p, hp, rfl⟩
  · exact hinv
  · obtain ⟨h1, h2⟩ := mergePath_tree (choosePath_trail hp).1 (Or.inl rfl) hinv.rooted hinv.once
    exact ⟨h2, h1⟩

/-- **A plan is a tree**, in every graph. -/
theorem planJoins_tree {owner : String} {targets : List String} {via : Option (List String)}
    {edges : List JoinEdge} (h : planJoins lib ss owner targets via = .ok edges) :
    IsJoinTree owner edges := by
  refine foldlM_induction h ⟨by simp [aliasesOf], ?_⟩ fun _ _ _ _ hb hstep =>
    planTarget_tree hstep hb
  intro pre e post hnil
  simp at hnil

/-- Every edge of a plan traverses a declared join. -/
theorem planJoins_edge {owner : String} {targets : List String} {via : Option (List String)}
    {edges : List JoinEdge} (h : planJoins lib ss owner targets via = .ok edges) :
    ∀ e ∈ edges, ∃ src s, ss.get src = some s ∧ e.join ∈ s.joins ∧
      traverse lib ss s src e.fromAlias e.join = .ok e := by
  refine foldlM_induction (P := fun edges => ∀ e ∈ edges, ∃ src s, ss.get src = some s ∧
    e.join ∈ s.joins ∧ traverse lib ss s src e.fromAlias e.join = .ok e) h (by simp)
    fun b b' t _ hb hstep e he => ?_
  rcases planTarget_eq_ok hstep with ⟨-, rfl⟩ | ⟨-, p, hp, rfl⟩
  · exact hb e he
  · rcases mem_mergePath he with he | he
    · exact hb e he
    · exact (choosePath_trail hp).1.mem he

/-- Every edge lies on a chosen path that is in the plan as a whole. -/
def Covered (lib : Lib) (ss : Sources) (owner : String) (via : Option (List String))
    (edges : List JoinEdge) : Prop :=
  ∀ e ∈ edges, ∃ t p, t ≠ owner ∧ choosePath lib ss owner via t = .ok p ∧ e ∈ p ∧ p ⊆ edges

/-- Two chosen paths that enter an alias share everything up to it. -/
theorem chosen_eq_upto {owner t t' : String} {via : Option (List String)}
    {u r u' r' : List JoinEdge} {e f : JoinEdge} (hc : Consistent (joinStep ss) owner owner)
    (ht : t ≠ owner) (ht' : t' ≠ owner)
    (hp : choosePath lib ss owner via t = .ok (u ++ e :: r))
    (hq : choosePath lib ss owner via t' = .ok (u' ++ f :: r')) (hef : e.alias_ = f.alias_) :
    u ++ [e] = u' ++ [f] := by
  have h1 := choosePath_chosen ht hp
  have h2 := choosePath_chosen ht' hq
  simp only [aliasesOf, List.map_append, List.map_cons, hef] at h1 h2
  have huu := Chosen.prefix_unique hc h1 h2
  have hpt : IsTrail lib ss owner owner ((u ++ [e]) ++ r) := by
    simpa using (choosePath_trail hp).1
  have hqt : IsTrail lib ss owner owner ((u' ++ [f]) ++ r') := by
    simpa using (choosePath_trail hq).1
  refine hpt.append.eq_of_aliases hqt.append ?_
  simp [aliasesOf, huu, hef]

theorem ne_owner_of_mem_chosen {owner t : String} {via : Option (List String)}
    {p : List JoinEdge} {e : JoinEdge} (hp : choosePath lib ss owner via t = .ok p) (he : e ∈ p) :
    e.alias_ ≠ owner := by
  intro heq
  have := (List.nodup_cons.mp (choosePath_trail hp).2.nodup).1
  exact this (heq ▸ List.mem_map_of_mem he)

/-- A path chosen next to a covered plan is kept whole by the merge. -/
theorem subset_mergePath_of_covered {owner t : String} {via : Option (List String)}
    {edges p : List JoinEdge} (hc : Consistent (joinStep ss) owner owner)
    (hcov : Covered lib ss owner via edges) (ht : t ≠ owner)
    (hp : choosePath lib ss owner via t = .ok p) : p ⊆ mergePath edges p owner := by
  intro f hf
  have hfo := ne_owner_of_mem_chosen hp hf
  obtain ⟨g, hg, hgf⟩ := List.mem_map.mp (@alias_mem_mergePath edges _ _ _ hf hfo)
  rcases mem_mergePath hg with hge | hgp
  · -- the alias was joined before: by the very same edge
    obtain ⟨t', q, ht', hq, hgq, -⟩ := hcov g hge
    obtain ⟨u, r, rfl⟩ := List.append_of_mem hf
    obtain ⟨u', r', rfl⟩ := List.append_of_mem hgq
    have := chosen_eq_upto hc ht ht' hp hq hgf.symm
    obtain rfl : f = g := by simpa using (List.append_inj' this rfl).2
    exact hg
  · have hnd := (List.nodup_cons.mp (choosePath_trail hp).2.nodup).2
    have : g = f := List.inj_on_of_nodup_map hnd hgp hf hgf
    exact this ▸ hg

theorem planTarget_covered {owner t : String} {via : Option (List String)}
    {edges edges' : List JoinEdge} (hc : Consistent (joinStep ss) owner owner)
    (h : planTarget lib ss owner via edges t = .ok edges')
    (hcov : Covered lib ss owner via edges) :
    Covered lib ss owner via edges' ∧ edges ⊆ edges' ∧
      ∀ p, choosePath lib ss owner via t = .ok p → p ⊆ edges' := by
  rcases planTarget_eq_ok h with ⟨hskip, rfl⟩ | ⟨hnew, p, hp, rfl⟩
  · refine ⟨hcov, fun _ h => h, fun p hp => ?_⟩
    rcases hskip with rfl | hmem
    · simp [choosePath_owner hp]
    · -- the target was joined on the way to another one
      obtain ⟨e, he, rfl⟩ := List.mem_map.mp hmem
      obtain ⟨t', q, ht', hq, heq, hqs⟩ := hcov e he
      have hto : e.alias_ ≠ owner := ne_owner_of_mem_chosen hq heq
      obtain ⟨u', r', rfl⟩ := List.append_of_mem heq
      have hlast := (choosePath_chosen hto hp).last
      rcases List.eq_nil_or_concat' p with rfl | ⟨u, f, rfl⟩
      · simp
      · have hfe : f.alias_ = e.alias_ := by simpa [aliasesOf] using hlast
        have := chosen_eq_upto (r := []) hc hto ht' hp hq hfe
        rw [this]
        exact fun g hg => hqs (by
          simp only [List.mem_append, List.mem_cons] at hg ⊢
          rcases hg with hg | rfl | hg
          · exact Or.inl hg
          · exact Or.inr (Or.inl rfl)
          · simp at hg)
  · rw [not_or] at hnew
    have hsub := subset_mergePath_of_covered hc hcov hnew.1 hp
    refine ⟨?_, subset_mergePath _ _ _, ?_⟩
    · intro e he
      rcases mem_mergePath he with he | he
      · obtain ⟨t', q, ht', hq, heq, hqs⟩ := hcov e he
        exact ⟨t', q, ht', hq, heq, fun g hg => subset_mergePath _ _ _ (hqs hg)⟩
      · exact ⟨t, p, hnew.1, hp, he, hsub⟩
    · intro p' hp'
      obtain rfl := Except.ok.inj (hp.symm.trans hp')
      exact hsub

/-- The fold over the targets, from a covered plan on. -/
theorem planTargets_covered {owner : String} {via : Option (List String)} {ts : List String}
    {edges edges' : List JoinEdge} (hc : Consistent (joinStep ss) owner owner)
    (h : ts.foldlM (planTarget lib ss owner via) edges = .ok edges')
    (hcov : Covered lib ss owner via edges) :
    Covered lib ss owner via edges' ∧ edges ⊆ edges' ∧
      ∀ t ∈ ts, ∀ p, choosePath lib ss owner via t = .ok p → p ⊆ edges' := by
  induction ts generalizing edges with
  | nil =>
      simp only [List.foldlM_nil, pure_eq_ok] at h
      subst h
      exact ⟨hcov, fun _ h => h, by simp⟩
  | cons t ts ih =>
      obtain ⟨mid, hmid, hrest⟩ := foldlM_cons_eq_ok.mp h
      obtain ⟨hcov', hsub, hp⟩ := planTarget_covered hc hmid hcov
      obtain ⟨hcov'', hsub', hps⟩ := ih hrest hcov'
      refine ⟨hcov'', fun _ h => hsub' (hsub h), fun t' ht' p hp' => ?_⟩
      rcases List.mem_cons.mp ht' with rfl | ht'
      · exact fun g hg => hsub' (hp p hp' hg)
      · exact hps t' ht' p hp'

/-- The front of a trail up to an edge, as a simple word to the source the edge joins. -/
theorem IsTrail.simple_upto {owner : String} {u r : List JoinEdge} {e : JoinEdge}
    (ht : IsTrail lib ss owner owner (u ++ e :: r))
    (hs : ∃ t, Simple (joinStep ss) owner owner (aliasesOf (u ++ e :: r)) t) :
    Simple (joinStep ss) owner owner (aliasesOf u ++ [e.alias_]) e.join.to_ := by
  have ht' : IsTrail lib ss owner owner ((u ++ [e]) ++ r) := by simpa using ht
  obtain ⟨t, hs⟩ := hs
  have hrun := ht'.append.run_eq
  have hend : endSource owner (u ++ [e]) = e.join.to_ := by simp [endSource]
  have hal : aliasesOf (u ++ [e]) = aliasesOf u ++ [e.alias_] := by simp [aliasesOf]
  rw [hend, hal] at hrun
  refine ⟨hrun, hs.nodup.sublist ?_⟩
  simp [aliasesOf]

/-- **When no alias stands for two sources, every plan is sound.** -/
theorem planJoins_sound {owner : String} {targets : List String} {via : Option (List String)}
    {edges : List JoinEdge} (hc : Consistent (joinStep ss) owner owner)
    (h : planJoins lib ss owner targets via = .ok edges) :
    SoundPlan lib ss owner targets via edges := by
  obtain ⟨hcov, -, hwhole⟩ := planTargets_covered hc h (fun e he => by simp at he)
  refine ⟨planJoins_tree h, fun t ht => hwhole t (mem_sortedSet.mpr ht), ?_⟩
  intro e he
  obtain ⟨t, p, ht, hp, hep, -⟩ := hcov e he
  obtain ⟨u, r, rfl⟩ := List.append_of_mem hep
  obtain ⟨htrail, hsimple⟩ := choosePath_trail hp
  have := htrail.simple_upto ⟨_, hsimple⟩
  exact buildAliasTree_complete hc this _ (getLast?_cons_concat _ _ _)

/-! ## The converse: an alias of two sources breaks a plan -/

/-- Every ON text of the project parses. -/
def OnTextsParse (lib : Lib) (ss : Sources) : Prop :=
  ∀ s ∈ ss.list, ∀ j ∈ s.joins, (lib.parseOne none j.on).isSome

theorem walkPaths_ok (hon : OnTextsParse lib ss) (target : String) (n : Nat) (a src : String)
    (visited : List String) : ∃ paths, walkPaths lib ss target n a src visited = .ok paths := by
  induction n generalizing a src visited with
  | zero => exact ⟨[], rfl⟩
  | succ n ih =>
      by_cases hat : a = target
      · exact ⟨[[]], by simp [walkPaths, hat]⟩
      · cases hs : ss.get src with
        | none => exact ⟨[], by simp [walkPaths, hat, hs]⟩
        | some source =>
            obtain ⟨found, hfound⟩ : ∃ found, (source.joins.mapM fun join =>
                if join.alias_ ∈ visited then .ok []
                else do
                  let edge ← traverse lib ss source src a join
                  let tails ←
                    walkPaths lib ss target n join.alias_ join.to_ (join.alias_ :: visited)
                  return tails.map (edge :: ·)) = Except.ok found := by
              refine exists_mapM_eq_ok fun join hj => ?_
              by_cases hv : join.alias_ ∈ visited
              · exact ⟨[], by simp [hv]⟩
              · obtain ⟨parsed, hparsed⟩ :=
                  Option.isSome_iff_exists.mp (hon source (Sources.get_mem hs) join hj)
                obtain ⟨tails, htails⟩ := ih join.alias_ join.to_ (join.alias_ :: visited)
                simp [hv, traverse, rewriteOn, hparsed, htails, pure, Except.pure]
            exact ⟨found.flatten, by simp only [walkPaths, hat, if_false, hs, hfound, ok_bind]; rfl⟩

/-- Among the paths to a target, the whole word of one of them is a prefix of that one only. -/
theorem filterByVia_aliasesOf {owner x : String} {paths : List (List JoinEdge)} {p : List JoinEdge}
    (hpaths : allSimplePaths lib ss owner x = .ok paths) (hne : x ≠ owner) (hp : p ∈ paths) :
    filterByVia paths (aliasesOf p) = [p] := by
  have hnd : paths.Nodup := (walkPaths_nodup _ hpaths).of_map
  have word : ∀ q ∈ paths, ∃ q₀, aliasesOf q = q₀ ++ [x] := by
    intro q hq
    have hlast := (getLast?_of_cons hne).mp (mem_allSimplePaths hpaths hq).2.2
    rcases List.eq_nil_or_concat' (aliasesOf q) with h0 | ⟨q₀, z, hz⟩
    · simp [h0] at hlast
    · rw [hz] at hlast
      exact ⟨q₀, by rw [hz]; simpa using hlast⟩
  obtain ⟨u, hpw⟩ := word p hp
  refine eq_singleton_of_nodup (hnd.filter _) ?_ ?_
  · simp [filterByVia, hp]
  · intro q hq
    simp only [filterByVia, List.mem_filter, List.isPrefixOf_iff_prefix] at hq
    obtain ⟨-, hsimple, -⟩ := mem_allSimplePaths hpaths hq.1
    obtain ⟨q₀, hq₀⟩ := word q hq.1
    -- a path to `x` that starts with the whole word stops with it
    have hu : u = q₀ := by
      refine prefix_concat_eq (r := []) ?_ (by rw [← hq₀, ← hpw]; exact hq.2)
      rw [← hq₀]
      exact (List.nodup_cons.mp hsimple.nodup).2
    exact List.inj_on_of_nodup_map (walkPaths_nodup _ hpaths) hq.1 hp (by rw [hq₀, hpw, hu])

/-- A path, given back as `via`, is the one that is picked. -/
theorem choosePath_via_self {owner x : String} {paths : List (List JoinEdge)} {p : List JoinEdge}
    (hpaths : allSimplePaths lib ss owner x = .ok paths) (hne : x ≠ owner) (hp : p ∈ paths) :
    choosePath lib ss owner (some (aliasesOf p)) x = .ok p := by
  have hnarrow : narrowByVia owner x (some (aliasesOf p)) paths = .ok [p] := by
    simp only [narrowByVia, filterByVia_aliasesOf hpaths hne hp]
    split
    · rfl
    · have : paths = [p] := by
        rcases paths with _ | ⟨a, _ | ⟨b, l⟩⟩
        · simp at hp
        · rw [List.mem_singleton.mp hp]
        · simp at *
      rw [this]
  have hempty : paths ≠ [] := List.ne_nil_of_mem hp
  simp [choosePath, hpaths, hempty, hnarrow]

/-- A simple word, given as `via`, selects exactly its own path. -/
theorem choosePath_via_word (hon : OnTextsParse lib ss) {owner x t : String} {u : List String}
    (hw : Simple (joinStep ss) owner owner (u ++ [x]) t) :
    ∃ p, choosePath lib ss owner (some (u ++ [x])) x = .ok p ∧ aliasesOf p = u ++ [x] := by
  obtain ⟨paths, hpaths⟩ := walkPaths_ok hon x (ss.joinCount + 2) owner owner [owner]
  obtain ⟨p, hp, hpw⟩ := exists_mem_allSimplePaths hpaths hw (getLast?_cons_concat _ _ _)
  have hne : x ≠ owner := by
    rintro rfl
    have := (List.nodup_cons.mp hw.nodup).1
    simp at this
  exact ⟨p, hpw ▸ choosePath_via_self hpaths hne hp, hpw⟩

theorem planJoins_singleton (owner x : String) (via : Option (List String)) (hne : x ≠ owner) :
    planJoins lib ss owner [x] via =
      (choosePath lib ss owner via x).map fun p => mergePath [] p owner := by
  have hsort : sortedSet [x] = [x] := by simp [sortedSet]
  simp only [planJoins, hsort, List.foldlM_cons, List.foldlM_nil, planTarget, aliasesOf,
    List.map_nil, List.not_mem_nil, or_false, hne, if_false]
  cases choosePath lib ss owner via x <;> rfl

/-- If every plan is sound, the source of an alias is the one the alias tree records. -/
theorem aliasTree_of_sound (hon : OnTextsParse lib ss) {owner x t : String} {u : List String}
    (hall : ∀ targets via edges, planJoins lib ss owner targets via = .ok edges →
      SoundPlan lib ss owner targets via edges)
    (hw : Simple (joinStep ss) owner owner (u ++ [x]) t) :
    (buildAliasTree ss owner).get x = some t := by
  have hne : x ≠ owner := by
    rintro rfl
    have := (List.nodup_cons.mp hw.nodup).1
    simp at this
  obtain ⟨p, hp, hpw⟩ := choosePath_via_word hon hw
  have hplan : planJoins lib ss owner [x] (some (u ++ [x])) = _ := planJoins_singleton owner x _ hne
  rw [hp] at hplan
  have hsound := hall _ _ _ hplan
  rcases List.eq_nil_or_concat' p with rfl | ⟨q, e, rfl⟩
  · simp [aliasesOf] at hpw
  · have hex : e.alias_ = x := by
      simp only [aliasesOf, List.map_append, List.map_cons, List.map_nil] at hpw
      simpa using (List.append_inj' hpw rfl).2
    have hmem : e ∈ mergePath [] (q ++ [e]) owner :=
      hsound.whole x (by simp) _ hp (by simp)
    have := hsound.agree e hmem
    rw [hex] at this
    rw [this]
    have hrun := (choosePath_trail hp).1.run_eq
    rw [hpw, hw.run_eq] at hrun
    simpa [endSource] using hrun.symm

/-- **Exactly when planning is sound.** If no join alias stands for two sources along the simple
alias words from the owner, every plan is sound, for all targets and every `via`. And where the
ON texts parse, so that planning can return at all, this is the only way for all plans to be
sound. -/
theorem planJoins_sound_iff (lib : Lib) (ss : Sources) (owner : String) :
    (Consistent (joinStep ss) owner owner → ∀ targets via edges,
      planJoins lib ss owner targets via = .ok edges →
        SoundPlan lib ss owner targets via edges) ∧
    (OnTextsParse lib ss → ((∀ targets via edges,
      planJoins lib ss owner targets via = .ok edges →
        SoundPlan lib ss owner targets via edges) ↔ Consistent (joinStep ss) owner owner)) := by
  refine ⟨fun hc _ _ _ h => planJoins_sound hc h, fun hon => ⟨?_, fun hc _ _ _ h =>
    planJoins_sound hc h⟩⟩
  intro hall u v x t t' ht ht'
  have h1 := aliasTree_of_sound hon hall ht
  rw [aliasTree_of_sound hon hall ht'] at h1
  exact (Option.some.inj h1).symm

/-- A project whose join aliases determine their sources is consistent from every owner. -/
theorem consistent_of_aliases (ss : Sources) (f : String → String)
    (h : ∀ s ∈ ss.list, ∀ j ∈ s.joins, j.to_ = f j.alias_) (owner : String) :
    Consistent (joinStep ss) owner owner := by
  have key : ∀ (u : List String) (x t : String),
      Simple (joinStep ss) owner owner (u ++ [x]) t → t = f x := by
    intro u x t ht
    obtain ⟨m, -, hstep⟩ := run_concat.mp ht.run_eq
    obtain ⟨s, j, hs, hj, rfl, rfl⟩ := joinStep_eq_some.mp hstep
    exact h s (Sources.get_mem hs) j hj
  intro u v x t t' ht ht'
  rw [key u x t ht, key v x t' ht']

/-! ### A diamond whose two sides end in different sources

`orders` declares the join `region` to `sales_regions` and the join `customers`, and `customers`
declares a join `region` of its own to `home_regions`. -/

private def diamondTexts : List (String × Sql.Expr) :=
  let on (a b : Sql.Column) : Sql.Expr := .mkEq (.column a) (.column b)
  [("orders.region_id = sales_regions.id",
      on ⟨"", "orders", "region_id"⟩ ⟨"", "sales_regions", "id"⟩),
   ("orders.region_id = region.id", on ⟨"", "orders", "region_id"⟩ ⟨"", "region", "id"⟩),
   ("orders.customer_id = customers.id", on ⟨"", "orders", "customer_id"⟩ ⟨"", "customers", "id"⟩),
   ("customers.home_id = home_regions.id",
      on ⟨"", "customers", "home_id"⟩ ⟨"", "home_regions", "id"⟩),
   ("customers.home_id = region.id", on ⟨"", "customers", "home_id"⟩ ⟨"", "region", "id"⟩)]

private def diamondSources : Sources where
  list :=
    [ { name := "orders", connection := "wh", table := "orders"
        joins :=
          [ { to_ := "sales_regions", on := "orders.region_id = sales_regions.id",
              relationship := .manyToOne, name := some "region" },
            { to_ := "customers", on := "orders.customer_id = customers.id",
              relationship := .manyToOne } ] },
      { name := "customers", connection := "wh", table := "customers"
        joins := [ { to_ := "home_regions", on := "customers.home_id = home_regions.id",
                     relationship := .manyToOne, name := some "region" } ] },
      { name := "sales_regions", connection := "wh", table := "sales_regions" },
      { name := "home_regions", connection := "wh", table := "home_regions" } ]

/-- Reaching `region` through `customers` joins `home_regions`, while the alias tree says
`region` is `sales_regions`. -/
theorem planJoins_diamond_disagrees :
    ∃ edges, planJoins (Lib.ofTexts diamondTexts) diamondSources "orders" ["region"]
        (some ["customers", "region"]) = .ok edges ∧
      ¬ SoundPlan (Lib.ofTexts diamondTexts) diamondSources "orders" ["region"]
        (some ["customers", "region"]) edges := by
  refine ⟨[⟨"orders", "orders",
      ⟨"customers", "orders.customer_id = customers.id", .manyToOne, none⟩,
      "customers", "orders.customer_id = customers.id"⟩,
    ⟨"customers", "customers", ⟨"home_regions", "customers.home_id = home_regions.id", .manyToOne,
      some "region"⟩, "region", "customers.home_id = region.id"⟩], by decide, ?_⟩
  intro h
  have := h.agree _ (List.mem_cons_of_mem _ (List.mem_singleton.mpr rfl))
  revert this
  decide

/-- Without the second `region` the same project plans soundly. -/
theorem planJoins_sound_customers :
    ∃ edges, planJoins (Lib.ofTexts diamondTexts)
        { list := [ { name := "orders", connection := "wh", table := "orders"
                      joins := [ { to_ := "customers", on := "orders.customer_id = customers.id",
                                   relationship := .manyToOne } ] },
                    { name := "customers", connection := "wh", table := "customers" } ] }
        "orders" ["customers"] none = .ok edges ∧
      SoundPlan (Lib.ofTexts diamondTexts)
        { list := [ { name := "orders", connection := "wh", table := "orders"
                      joins := [ { to_ := "customers", on := "orders.customer_id = customers.id",
                                   relationship := .manyToOne } ] },
                    { name := "customers", connection := "wh", table := "customers" } ] }
        "orders" ["customers"] none edges := by
  refine ⟨[⟨"orders", "orders",
      ⟨"customers", "orders.customer_id = customers.id", .manyToOne, none⟩,
      "customers", "orders.customer_id = customers.id"⟩], by decide, ?_⟩
  refine (planJoins_sound_iff _ _ _).1 ?_ _ _ _ (by decide)
  exact consistent_of_aliases _ id (by decide) _

end Canonic
