import Canonic.Compiler.Access
import Canonic.Core.Discovery

set_option autoImplicit false

/-! # What discovery offers and what the compiler takes

A name that `describeMetric` lists or `related` suggests is meant to be passed to a query as it is.
Three stages can refuse it: the dimension policy, the resolution of the name, and the planning of
the join to the alias it resolves to. The last two happen again on every realization of a finality
rule, with the canonical name of each dimension.

The policy never refuses, since both lists are filtered by it. A name is resolved when it
*designates* one alias: cut at its first dot, an alias and a dimension of it; without a dot, a
dimension of the owner or else the only reachable one that answers to it. The join is planned when
one path leads there, or one that `via` leaves, or when it is joined already. -/

namespace Canonic

open Canonic.Graph

variable {lib : Lib} {ss : Sources}

/-! ## Joins that are planned -/

section Joins

variable {owner : String} {via : Option (List String)}

/-- One simple path leads to the alias, or one of several that `via` leaves. -/
def Routed (lib : Lib) (ss : Sources) (owner : String) (via : Option (List String)) (r : String) :
    Prop :=
  ∃ paths p, allSimplePaths lib ss owner r = .ok paths ∧ p ∈ paths ∧ ∀ q ∈ paths, q ≠ p →
    ∃ v, via = some v ∧ v <+: aliasesOf p ∧ ¬ v <+: aliasesOf q

theorem nodup_allSimplePaths {r : String} {paths : List (List JoinEdge)}
    (h : allSimplePaths lib ss owner r = .ok paths) : paths.Nodup :=
  (walkPaths_nodup _ h).of_map

/-- **The alias that is routed is the one a path is chosen for.** -/
theorem routed_iff {r : String} :
    Routed lib ss owner via r ↔ ∃ p, choosePath lib ss owner via r = .ok p := by
  constructor
  · rintro ⟨paths, p, hpaths, hp, huniq⟩
    have hnd : paths.Nodup := nodup_allSimplePaths hpaths
    have hne : paths.isEmpty = false := by
      cases paths with
      | nil => simp at hp
      | cons q qs => rfl
    refine ⟨p, ?_⟩
    simp only [choosePath, hpaths, ok_bind, hne, Bool.false_eq_true, if_false]
    by_cases hlone : ∀ q ∈ paths, q = p
    · obtain rfl : paths = [p] := eq_singleton_of_nodup hnd hp hlone
      cases via with
      | none => rfl
      | some v => simp [narrowByVia]
    · -- another path is told apart by `via`, and then every other one is
      push Not at hlone
      obtain ⟨q, hq, hqp⟩ := hlone
      obtain ⟨v, rfl, hvp, -⟩ := huniq q hq hqp
      have hleft : filterByVia paths v = [p] := by
        refine eq_singleton_of_nodup (hnd.filter _) ?_ ?_
        · simp [filterByVia, hp, hvp]
        · intro q' hq'
          simp only [filterByVia, List.mem_filter, List.isPrefixOf_iff_prefix] at hq'
          by_contra hne'
          obtain ⟨v', hv', -, hnot⟩ := huniq q' hq'.1 hne'
          exact hnot (Option.some.inj hv' ▸ hq'.2)
      have hlen : 1 < paths.length := by
        rcases paths with _ | ⟨a, _ | ⟨b, rest⟩⟩
        · simp at hp
        · simp only [List.mem_singleton] at hp hq
          exact absurd (hq.trans hp.symm) hqp
        · simp
      simp [narrowByVia, hlen, hleft]
  · rintro ⟨p, hp⟩
    obtain ⟨paths, hpaths, hmem, huniq⟩ := choosePath_eq_ok hp
    exact ⟨paths, p, hpaths, hmem, huniq⟩

/-- An alias is joined already by the targets planned before it. -/
def JoinedBefore (lib : Lib) (ss : Sources) (owner : String) (via : Option (List String))
    (targets : List String) (r : String) : Prop :=
  ∃ edges, planJoins lib ss owner (targets.filter (· < r)) via = .ok edges ∧ r ∈ aliasesOf edges

/-- Every target is the owner, or routed, or joined already by the targets before it. -/
def Joinable (lib : Lib) (ss : Sources) (owner : String) (via : Option (List String))
    (targets : List String) : Prop :=
  ∀ t ∈ targets,
    t = owner ∨ Routed lib ss owner via t ∨ JoinedBefore lib ss owner via targets t

theorem sortedSet_cut_mem {targets : List String} {t : String} (ht : t ∈ targets) :
    sortedSet targets =
      sortedSet (targets.filter (· < t)) ++ t :: sortedSet (targets.filter (t < ·)) := by
  rw [← sortedSet_cons]
  refine sortedSet_congr fun x => ⟨List.mem_cons_of_mem t, fun hx => ?_⟩
  rcases List.mem_cons.mp hx with rfl | hx
  · exact ht
  · exact hx

/-- The targets before one of them, in the order they are planned. -/
theorem sortedSet_filter_lt {targets pre post : List String} {t : String}
    (h : sortedSet targets = pre ++ t :: post) : sortedSet (targets.filter (· < t)) = pre := by
  have hlt := pairwise_lt_sortedSet targets
  rw [h, List.pairwise_append, List.pairwise_cons] at hlt
  obtain ⟨hpre, ⟨hpost, -⟩, hcross⟩ := hlt
  refine sortedSet_eq hpre fun x => ?_
  have hmem : x ∈ targets ↔ x ∈ pre ++ t :: post := by rw [← h, mem_sortedSet]
  rw [List.mem_filter, decide_eq_true_eq, hmem, List.mem_append, List.mem_cons]
  constructor
  · exact fun hx => ⟨.inl hx, hcross x hx t List.mem_cons_self⟩
  · rintro ⟨hx | rfl | hx, hxt⟩
    · exact hx
    · exact absurd hxt (lt_irrefl _)
    · exact absurd (hxt.trans (hpost x hx)) (lt_irrefl _)

/-- **Joins are planned exactly when every target can be joined.** -/
theorem planJoins_iff {targets : List String} :
    (∃ edges, planJoins lib ss owner targets via = .ok edges) ↔
      Joinable lib ss owner via targets := by
  constructor
  · rintro ⟨edges, h⟩ t ht
    rw [planJoins, sortedSet_cut_mem ht, List.foldlM_append, bind_eq_ok] at h
    obtain ⟨before, hbefore, h⟩ := h
    obtain ⟨edges', hplan, -⟩ := foldlM_cons_eq_ok.mp h
    rw [planTarget] at hplan
    split at hplan
    · rename_i hknown
      exact hknown.imp_right fun hmem => .inr ⟨before, hbefore, hmem⟩
    · obtain ⟨p, hp, -⟩ := bind_eq_ok.mp hplan
      exact .inr (.inl (routed_iff.mpr ⟨p, hp⟩))
  · intro h
    -- on the targets in their order: what is joined before is what the plan for smaller ones joins
    have hprefix : ∀ pre post, sortedSet targets = pre ++ post →
        ∃ edges, pre.foldlM (planTarget lib ss owner via) [] = .ok edges := by
      intro pre
      induction pre using List.reverseRecOn with
      | nil => exact fun _ _ => ⟨[], rfl⟩
      | append_singleton pre t ih =>
          intro post hsplit
          rw [List.append_assoc, List.singleton_append] at hsplit
          obtain ⟨edges, hedges⟩ := ih _ hsplit
          have ht : t ∈ targets := by
            rw [← mem_sortedSet, hsplit]
            simp
          suffices hplan : ∃ edges', planTarget lib ss owner via edges t = .ok edges' by
            obtain ⟨edges', hplan⟩ := hplan
            refine ⟨edges', ?_⟩
            rw [List.foldlM_append, hedges, ok_bind, foldlM_cons_eq_ok]
            exact ⟨edges', hplan, rfl⟩
          by_cases hknown : t = owner ∨ t ∈ aliasesOf edges
          · exact ⟨edges, by rw [planTarget, if_pos hknown]⟩
          rw [not_or] at hknown
          rcases h t ht with howner | hrouted | ⟨edges', hbefore, hmem⟩
          · exact absurd howner hknown.1
          · obtain ⟨p, hp⟩ := routed_iff.mp hrouted
            refine ⟨mergePath edges p owner, ?_⟩
            rw [planTarget, if_neg (not_or.mpr hknown), hp]
            rfl
          · rw [planJoins, sortedSet_filter_lt hsplit, hedges] at hbefore
            exact absurd (Except.ok.inj hbefore ▸ hmem) hknown.2
    exact hprefix _ [] (List.append_nil _).symm

end Joins

/-! ## The alias a name designates -/

/-- A dimension of the alias `r` answers to the name, by its own name or one of its aliases. -/
def Answers (ss : Sources) (owner name r : String) (d : Dimension) : Prop :=
  ∃ src s, (buildAliasTree ss owner).get r = some src ∧ ss.get src = some s ∧
    d ∈ s.dimensions ∧ d.dimMatches name = true

/-- Of the dimensions of the alias `r` that answer to the name, `d` is the first. -/
def FirstAnswer (ss : Sources) (owner name r : String) (d : Dimension) : Prop :=
  ∃ src s, (buildAliasTree ss owner).get r = some src ∧ ss.get src = some s ∧
    s.findDim name = some d

/-- Seen from `owner`, the name designates a dimension of the alias `r`: its part before the first
dot is `r` and the rest names the dimension; or it has no dot and the owner answers to it; or the
owner does not, and one reachable dimension alone does. -/
inductive Designates (ss : Sources) (owner name : String) : String → Dimension → Prop
  | role {r rest : String} {d : Dimension} (hcut : splitRole name = some (r, rest))
      (h : FirstAnswer ss owner rest r d) : Designates ss owner name r d
  | own {d : Dimension} (hbare : splitRole name = none) (h : FirstAnswer ss owner name owner d) :
      Designates ss owner name owner d
  | joined {r : String} {d : Dimension} (hbare : splitRole name = none)
      (hown : ∀ d', ¬ Answers ss owner name owner d') (h : Answers ss owner name r d)
      (hlone : ∀ r' d', Answers ss owner name r' d' → r' = r ∧ d' = d) :
      Designates ss owner name r d

section Designation

variable {owner name r : String}

theorem exists_findDim_iff {s : SemanticSource} {name : String} :
    (∃ d, s.findDim name = some d) ↔ ∃ d ∈ s.dimensions, d.dimMatches name = true := by
  rw [SemanticSource.findDim, ← Option.isSome_iff_exists, List.find?_isSome]

/-- The dimensions the owner answers a name with are its own. -/
theorem answers_owner_iff {d : Dimension} :
    Answers ss owner name owner d ↔
      ∃ s, ss.get owner = some s ∧ d ∈ s.dimensions ∧ d.dimMatches name = true := by
  constructor
  · rintro ⟨src, s, hsrc, hs, hd⟩
    rw [buildAliasTree_owner] at hsrc
    exact ⟨s, Option.some.inj hsrc ▸ hs, hd⟩
  · rintro ⟨s, hs, hd⟩
    exact ⟨owner, s, buildAliasTree_owner ss owner, hs, hd⟩

theorem FirstAnswer.answers {d : Dimension} (h : FirstAnswer ss owner name r d) :
    Answers ss owner name r d := by
  obtain ⟨src, s, hsrc, hs, hd⟩ := h
  have hm := List.find?_some hd
  exact ⟨src, s, hsrc, hs, List.mem_of_find?_eq_some hd, hm⟩

theorem Answers.exists_first {d : Dimension} (h : Answers ss owner name r d) :
    ∃ d', FirstAnswer ss owner name r d' := by
  obtain ⟨src, s, hsrc, hs, hmem, hm⟩ := h
  obtain ⟨d', hd'⟩ := exists_findDim_iff.mpr ⟨d, hmem, hm⟩
  exact ⟨d', src, s, hsrc, hs, hd'⟩

theorem Designates.answers {d : Dimension} (h : Designates ss owner name r d) :
    ∃ n, Answers ss owner n r d := by
  cases h with
  | role _ h => exact ⟨_, h.answers⟩
  | own _ h => exact ⟨name, h.answers⟩
  | joined _ _ h => exact ⟨name, h⟩

theorem firstAnswer_owner_iff {d : Dimension} :
    FirstAnswer ss owner name owner d ↔ (ss.get owner).bind (·.findDim name) = some d := by
  rw [Option.bind_eq_some_iff]
  constructor
  · rintro ⟨src, s, hsrc, hs, hd⟩
    rw [buildAliasTree_owner] at hsrc
    exact ⟨s, Option.some.inj hsrc ▸ hs, hd⟩
  · rintro ⟨s, hs, hd⟩
    exact ⟨owner, s, buildAliasTree_owner ss owner, hs, hd⟩

theorem findQualified_iff {role rest : String} {d : Dimension} :
    findQualifiedDimension ss role rest (some (buildAliasTree ss owner)) = some (r, d) ↔
      r = role ∧ FirstAnswer ss owner rest role d := by
  simp only [findQualifiedDimension, Option.bind_some, Option.map_eq_some_iff,
    Option.bind_eq_some_iff, Prod.mk.injEq]
  constructor
  · rintro ⟨_, ⟨src, hsrc, s, hs, hd⟩, rfl, rfl⟩
    exact ⟨rfl, src, s, hsrc, hs, hd⟩
  · rintro ⟨rfl, src, s, hsrc, hs, hd⟩
    exact ⟨d, ⟨src, hsrc, s, hs, hd⟩, rfl, rfl⟩

/-- The dimensions reachable from the owner that a name matches, the owner's left out. -/
def joinedCandidates (ss : Sources) (name owner : String) : List (String × Dimension) :=
  (reachableAliases ss owner (some (buildAliasTree ss owner))).sorted.flatMap
    (aliasCandidates ss name)

theorem mem_joinedCandidates {d : Dimension} :
    (r, d) ∈ joinedCandidates ss name owner ↔ r ≠ owner ∧ Answers ss owner name r d := by
  have hnd := (buildAliasTree_inv ss owner).nodup
  simp only [joinedCandidates, reachableAliases, Dict.sorted, List.mem_flatMap,
    List.mem_insertionSort, List.mem_filter, decide_eq_true_eq]
  constructor
  · rintro ⟨⟨r', src⟩, ⟨hmem, hne⟩, hc⟩
    simp only [aliasCandidates] at hc
    split at hc
    · simp at hc
    next s hs =>
      obtain ⟨d', hd', heq⟩ := List.mem_map.mp hc
      obtain ⟨rfl, rfl⟩ := Prod.mk.inj heq
      obtain ⟨hd, hm⟩ := List.mem_filter.mp hd'
      exact ⟨by simpa using hne, src, s, Dict.get_of_mem hnd hmem, hs, hd, hm⟩
  · rintro ⟨hne, src, s, hsrc, hs, hd, hm⟩
    refine ⟨(r, src), ⟨Dict.get_eq_some_mem hsrc, by simpa using hne⟩, ?_⟩
    simp only [aliasCandidates, hs, List.mem_map, List.mem_filter]
    exact ⟨d, ⟨hd, hm⟩, rfl⟩

/-- Each candidate is listed once: aliases are distinct in the tree, dimensions in a source. -/
theorem nodup_joinedCandidates : (joinedCandidates ss name owner).Nodup := by
  have hnd : (buildAliasTree ss owner).Nodup := (buildAliasTree_inv ss owner).nodup.of_map
  have hkeys := (buildAliasTree_inv ss owner).nodup
  rw [joinedCandidates, List.nodup_flatMap]
  constructor
  · rintro ⟨r, src⟩ -
    simp only [aliasCandidates]
    split
    · exact List.nodup_nil
    next s hs =>
      refine List.Nodup.map (fun _ _ h => (Prod.mk.inj h).2) ?_
      exact (s.dimensions_nodup.of_map).filter _
  · have hsub : ((reachableAliases ss owner (some (buildAliasTree ss owner))).sorted.map
        (·.1)).Nodup := by
      have hperm := (List.perm_insertionSort (fun a b : String × String => a.1 ≤ b.1)
        ((buildAliasTree ss owner).filter fun p => p.1 ≠ owner)).map (·.1)
      refine hperm.nodup_iff.mpr ?_
      exact hkeys.sublist (List.filter_sublist.map _)
    refine (List.pairwise_map.mp hsub).imp ?_
    intro p q hpq x hx hx'
    have halias : ∀ e : String × String, ∀ y ∈ aliasCandidates ss name e, y.1 = e.1 := by
      intro e y hy
      simp only [aliasCandidates] at hy
      split at hy
      · simp at hy
      · obtain ⟨d, -, rfl⟩ := List.mem_map.mp hy
        rfl
    exact hpq ((halias p x hx).symm.trans (halias q x hx'))

/-- The owner wins. -/
theorem findBareDimension_own {d : Dimension} (h : FirstAnswer ss owner name owner d) :
    findBareDimension ss name owner (some (buildAliasTree ss owner)) = .ok (some (owner, d)) := by
  rw [findBareDimension, firstAnswer_owner_iff.mp h]

/-- Without the owner, the only candidate is found. -/
theorem findBareDimension_joined {d : Dimension} (hown : ∀ d', ¬ Answers ss owner name owner d') :
    findBareDimension ss name owner (some (buildAliasTree ss owner)) = .ok (some (r, d)) ↔
      joinedCandidates ss name owner = [(r, d)] := by
  have hnone : (ss.get owner).bind (·.findDim name) = none := by
    cases hs : ss.get owner with
    | none => rfl
    | some s =>
        show s.findDim name = none
        by_contra hne
        obtain ⟨d', hd'⟩ := Option.ne_none_iff_exists'.mp hne
        obtain ⟨d, hd, hm⟩ := exists_findDim_iff.mp ⟨d', hd'⟩
        exact hown d (answers_owner_iff.mpr ⟨s, hs, hd, hm⟩)
  simp only [findBareDimension, hnone]
  rw [← joinedCandidates]
  rcases joinedCandidates ss name owner with _ | ⟨c, _ | ⟨c', cs⟩⟩
  · simp
  · simp
  · simp

/-- The candidates are one dimension when it alone answers to the name. -/
theorem joinedCandidates_eq_singleton {d : Dimension}
    (hown : ∀ d', ¬ Answers ss owner name owner d') :
    joinedCandidates ss name owner = [(r, d)] ↔
      Answers ss owner name r d ∧ ∀ r' d', Answers ss owner name r' d' → r' = r ∧ d' = d := by
  have hmem (r' : String) (d' : Dimension) :
      (r', d') ∈ joinedCandidates ss name owner ↔ Answers ss owner name r' d' := by
    rw [mem_joinedCandidates]
    refine ⟨fun h => h.2, fun h => ⟨?_, h⟩⟩
    rintro rfl
    exact hown d' h
  constructor
  · intro hone
    refine ⟨(hmem r d).mp (by rw [hone]; simp), ?_⟩
    intro r' d' h'
    have hin := (hmem r' d').mpr h'
    rw [hone, List.mem_singleton] at hin
    exact Prod.mk.inj hin
  · rintro ⟨h, hlone⟩
    refine eq_singleton_of_nodup nodup_joinedCandidates ((hmem r d).mpr h) ?_
    rintro ⟨r', d'⟩ h'
    obtain ⟨rfl, rfl⟩ := hlone r' d' ((hmem r' d').mp h')
    rfl

/-- **A name resolves to a dimension exactly when it designates it.** -/
theorem findDimension_iff {d : Dimension} :
    findDimension ss name owner (some (buildAliasTree ss owner)) = .ok (some (r, d)) ↔
      Designates ss owner name r d := by
  unfold findDimension
  cases hcut : splitRole name with
  | some cut =>
      obtain ⟨role, rest⟩ := cut
      simp only [Except.ok.injEq, findQualified_iff]
      constructor
      · rintro ⟨rfl, hd⟩
        exact .role hcut hd
      · intro h
        cases h with
        | role hcut' h =>
            obtain ⟨rfl, rfl⟩ := Prod.mk.inj (Option.some.inj (hcut.symm.trans hcut'))
            exact ⟨rfl, h⟩
        | own hbare | joined hbare => simp [hcut] at hbare
  | none =>
      by_cases hown : ∃ d', Answers ss owner name owner d'
      · obtain ⟨_, hanswers⟩ := hown
        obtain ⟨d', hd'⟩ := hanswers.exists_first
        simp only [findBareDimension_own hd', Except.ok.injEq, Option.some.injEq, Prod.mk.injEq]
        constructor
        · rintro ⟨rfl, rfl⟩
          exact .own hcut hd'
        · intro h
          cases h with
          | role hcut' => simp [hcut] at hcut'
          | own _ h =>
              exact ⟨rfl, Option.some.inj ((firstAnswer_owner_iff.mp hd').symm.trans
                (firstAnswer_owner_iff.mp h))⟩
          | joined _ hown' => exact absurd hanswers (hown' _)
      · have hnot : ∀ d', ¬ Answers ss owner name owner d' := fun d' hd' => hown ⟨d', hd'⟩
        simp only [findBareDimension_joined hnot, joinedCandidates_eq_singleton hnot]
        constructor
        · rintro ⟨h, hlone⟩
          exact .joined hcut hnot h hlone
        · intro h
          cases h with
          | role hcut' => simp [hcut] at hcut'
          | own _ h => exact absurd h.answers (hnot _)
          | joined _ _ h hlone => exact ⟨h, hlone⟩

end Designation

/-! ## Passing the stages -/

/-- The query of a context, grouped by one more name. -/
def LeafContext.grouping (ctx : LeafContext) (name : String) : LeafContext :=
  { ctx with query := { ctx.query with dimensions := ctx.query.dimensions ++ [name] } }

/-- The `via` a leaf plans its joins with. -/
def LeafContext.via (ctx : LeafContext) : Option (List String) :=
  if ctx.query.via.isEmpty then none else some ctx.query.via

/-- The leaf, grouped by one more name. -/
def LeafCall.grouping (c : LeafCall) (name : String) : LeafCall :=
  { c with ctx := c.ctx.grouping name }

/-- The aliases a leaf refers to, those of its guardrails included. -/
def LeafCall.referenced (c : LeafCall) : Except Err (List String) := do
  let bound ← bindNames c.ctx c.owner c.tree
  let guarded ← guardrailJoinSources c.ctx.env c.ctx.resolver c.ctx.query.context c.tree
    (c.metrics.map (·.resolved))
  return bound.referenced ++ guarded

/-- The finality rule a leaf is emitted under and its time dimension, unless its strategy has a
builder of its own. -/
def LeafCall.gated (c : LeafCall) (i : LeafInputs) : Option (FinalityRule × String) :=
  if c.options.builder.isSome then none else activeFinality c.ctx i c.options

/-- A realization finds the offsets and the dimensions of a leaf, the time dimension among them, and
plans its own joins. -/
def RealizedBy (i : LeafInputs) (timeDim src : String) : Prop :=
  let tree := buildAliasTree i.ctx.env.sources src
  (∃ shifted, resolveShifts i.ctx.env i.ctx.shifts src tree = .ok shifted) ∧
    ∃ dims edges, i.dimensions.mapM (branchDim i.ctx.env src tree) = .ok dims ∧
      (∃ p ∈ dims, p.2.name = timeDim) ∧
      branchEdges i.ctx.env src tree dims i.conditions = .ok edges

/-- Neither the dimension policy, nor the resolution of the names, nor the planning of the joins
refuses a leaf, on its own source or on a realization of its finality rule. -/
structure LeafCall.Passes (c : LeafCall) : Prop where
  allowed : enforceDimensionPolicy c.ctx.policy c.ctx.query.dimensions = .ok ()
  joined : ∃ referenced edges, c.referenced = .ok referenced ∧
    leafEdges c.ctx c.owner referenced = .ok edges
  realized : ∀ s f timeDim, scopeLeaf c.ctx c.owner c.metrics = .ok s →
    c.gated s.inputs = some (f, timeDim) → ∀ r ∈ f.realizations,
      RealizedBy s.inputs timeDim r.source

section Passes

theorem scopeLeaf_referenced {c : LeafCall} {s : LeafScope}
    (h : scopeLeaf c.ctx c.owner c.metrics = .ok s) :
    ∃ referenced edges, c.referenced = .ok referenced ∧
      leafEdges c.ctx c.owner referenced = .ok edges := by
  obtain ⟨sc⟩ := LeafCall.scoped_of_scopeLeaf h
  refine ⟨sc.bound.referenced ++ sc.guarded, _, ?_, sc.edges_eq⟩
  simp only [LeafCall.referenced, sc.bound_eq, sc.guarded_eq, ok_bind]
  rfl

theorem finalityBranch_realizedBy {i : LeafInputs} {f : FinalityInputs}
    {metrics : List ResolvedMetric} {aliases : List String} {r : Realization} {q : Sql.Query}
    (hdims : f.dims = i.dimensions) (hconditions : f.conditions = i.conditions)
    (hshifts : f.shifts = i.ctx.shifts)
    (h : finalityBranch i.ctx.env f metrics aliases r = .ok q) :
    RealizedBy i f.timeDim r.source := by
  simp only [finalityBranch, bind_eq_ok] at h
  obtain ⟨_, -, _, -, shifted, hs, dims, hd, edges, he, column, hc, -⟩ := h
  refine ⟨⟨shifted, hshifts ▸ hs⟩, dims, edges, hdims ▸ hd, ?_, hconditions ▸ he⟩
  rw [gateColumn] at hc
  split at hc
  · rename_i p hp
    have hname := List.find?_some hp
    exact ⟨p, List.mem_of_find?_eq_some hp, by simpa using hname⟩
  · simp at hc

/-- **A leaf that is planned passes the stages.** -/
theorem LeafCall.passes_of_plan {c : LeafCall} {l : LeafPlan}
    (hallowed : enforceDimensionPolicy c.ctx.policy c.ctx.query.dimensions = .ok ())
    (h : c.plan = .ok l) : c.Passes := by
  simp only [LeafCall.plan, planLeaf, bind_eq_ok] at h
  obtain ⟨scope, hscope, emit, hemit, built, hbuilt, -⟩ := h
  refine ⟨hallowed, scopeLeaf_referenced hscope, fun s f timeDim hs hgated r hr => ?_⟩
  obtain rfl := Except.ok.inj (hscope.symm.trans hs)
  obtain ⟨sc⟩ := LeafCall.scoped_of_scopeLeaf hscope
  have hbuilder : c.options.builder = none := by
    rw [LeafCall.gated] at hgated
    split at hgated
    · simp at hgated
    · rename_i hno
      simpa using hno
  have hactive : activeFinality c.ctx scope.inputs c.options = some (f, timeDim) := by
    rw [LeafCall.gated, hbuilder] at hgated
    exact hgated
  simp only [leafEmit, hbuilder, hactive] at hemit
  split at hemit
  · simp at hemit
  · obtain rfl := Except.ok.inj hemit
    simp only [buildLeaf, bind_eq_ok] at hbuilt
    obtain ⟨q, hq, -⟩ := hbuilt
    simp only [buildFinalityUnion, bind_eq_ok] at hq
    obtain ⟨branches, hbranches, -⟩ := hq
    obtain ⟨b, -, hb⟩ := forall₂_mem_left (mapM_eq_ok.mp hbranches) hr
    exact finalityBranch_realizedBy rfl rfl (by rw [sc.ctx]) hb

end Passes

/-! ## Clear names -/

/-- Seen from a realization, the dimensions of the offsets and of the leaf each designate one
dimension, the time dimension among them, and all joins can be planned. -/
structure RealizationClear (i : LeafInputs) (timeDim src : String) : Prop where
  shifted : ∀ sh ∈ i.ctx.shifts, ∃ r d, Designates i.ctx.env.sources src sh.timeDimension r d
  joined : ∃ dims : List (String × Dimension),
    List.Forall₂ (fun p q => Designates i.ctx.env.sources src p.2.name q.1 q.2) i.dimensions dims ∧
    (∃ q ∈ dims, q.2.name = timeDim) ∧
    Joinable i.ctx.env.lib i.ctx.env.sources src none
      (branchTargets src (buildAliasTree i.ctx.env.sources src)
        (dims.map (·.1) ++ conditionTables i.conditions))

/-- Seen from the source of a leaf, the name designates one dimension, and its alias can be joined
next to those the leaf refers to. Where the leaf grouped by the name is under a finality rule, so
it is on each realization with every dimension of the leaf. -/
structure LeafCall.Clear (c : LeafCall) (name : String) : Prop where
  joined : ∃ r d referenced, Designates c.ctx.env.sources c.owner name r d ∧
    c.referenced = .ok referenced ∧
    Joinable c.ctx.env.lib c.ctx.env.sources c.owner c.ctx.via
      ((r :: referenced).filter (· ≠ c.owner))
  realized : ∀ s f timeDim, scopeLeaf (c.grouping name).ctx c.owner c.metrics = .ok s →
    (c.grouping name).gated s.inputs = some (f, timeDim) → ∀ r ∈ f.realizations,
      RealizationClear s.inputs timeDim r.source

section Clear

theorem resolveDimension_eq_ok {env : Env} {owner name : String} {tree : Dict String}
    {found : String × Dimension} :
    resolveDimension env owner tree name = .ok found ↔
      findDimension env.sources name owner (some tree) = .ok (some found) := by
  unfold resolveDimension
  cases h : findDimension env.sources name owner (some tree) with
  | error e => simp
  | ok o =>
      cases o with
      | none => simp
      | some f => simp

theorem resolveShifts_iff {env : Env} {shifts : List TimeShift} {owner : String} :
    (∃ m, resolveShifts env shifts owner (buildAliasTree env.sources owner) = .ok m) ↔
      ∀ sh ∈ shifts, ∃ r d, Designates env.sources owner sh.timeDimension r d := by
  have hstep (m : ShiftMap) (sh : TimeShift) :
      (∃ m', resolveShift env owner (buildAliasTree env.sources owner) m sh = .ok m') ↔
        ∃ r d, Designates env.sources owner sh.timeDimension r d := by
    constructor
    · rintro ⟨m', h⟩
      obtain ⟨found, hfound, h⟩ := bind_eq_ok.mp h
      cases found with
      | none => simp at h
      | some found => exact ⟨found.1, found.2, findDimension_iff.mp hfound⟩
    · rintro ⟨r, d, h⟩
      obtain ⟨n, src, s, hsrc, hs, -⟩ := h.answers
      have hkey : env.sources.getKey
          ((buildAliasTree env.sources owner).getD r r) = .ok s := by
        rw [Dict.getD, hsrc]
        simp [Sources.getKey, hs]
      rw [resolveShift, findDimension_iff.mpr h, ok_bind]
      simp only [hkey, ok_bind]
      exact ⟨_, rfl⟩
  suffices h : ∀ m, (∃ m', shifts.foldlM (resolveShift env owner
      (buildAliasTree env.sources owner)) m = .ok m') ↔
      ∀ sh ∈ shifts, ∃ r d, Designates env.sources owner sh.timeDimension r d from h []
  induction shifts with
  | nil => exact fun m => by simp [pure, Except.pure]
  | cons sh shifts ih =>
      intro m
      simp only [foldlM_cons_eq_ok, List.forall_mem_cons, ← hstep m sh]
      constructor
      · rintro ⟨m', mid, hmid, hrest⟩
        exact ⟨⟨mid, hmid⟩, (ih mid).mp ⟨m', hrest⟩⟩
      · rintro ⟨⟨mid, hmid⟩, hrest⟩
        obtain ⟨m', hm'⟩ := (ih mid).mpr hrest
        exact ⟨m', mid, hmid, hm'⟩

theorem branchDim_iff {env : Env} {src : String} {p q : String × Dimension} :
    branchDim env src (buildAliasTree env.sources src) p = .ok q ↔
      Designates env.sources src p.2.name q.1 q.2 := by
  rw [← findDimension_iff, branchDim]
  cases h : findDimension env.sources p.2.name src (some (buildAliasTree env.sources src)) with
  | error e => simp
  | ok found => cases found <;> simp

/-- **A realization passes exactly when all that is looked up on it is clear.** -/
theorem realizedBy_iff {i : LeafInputs} {timeDim src : String} :
    RealizedBy i timeDim src ↔ RealizationClear i timeDim src := by
  have hdims (dims : List (String × Dimension)) :
      i.dimensions.mapM (branchDim i.ctx.env src (buildAliasTree i.ctx.env.sources src)) =
        .ok dims ↔ List.Forall₂ (fun p q =>
          Designates i.ctx.env.sources src p.2.name q.1 q.2) i.dimensions dims := by
    rw [mapM_eq_ok]
    exact ⟨fun h => h.imp fun _ _ => branchDim_iff.mp, fun h => h.imp fun _ _ => branchDim_iff.mpr⟩
  simp only [RealizedBy, resolveShifts_iff, hdims, branchEdges]
  constructor
  · rintro ⟨hshifts, dims, edges, hnamed, htime, hedges⟩
    exact ⟨hshifts, dims, hnamed, htime, planJoins_iff.mp ⟨edges, hedges⟩⟩
  · rintro ⟨hshifts, dims, hnamed, htime, hjoinable⟩
    obtain ⟨edges, hedges⟩ := planJoins_iff.mpr hjoinable
    exact ⟨hshifts, dims, edges, hnamed, htime, hedges⟩

theorem enforceDimensionPolicy_of_allowed {policy : EffectivePolicy} {dims : List String}
    (h : ∀ d ∈ dims, policy.dimensionAllowed d = true) :
    enforceDimensionPolicy policy dims = .ok () := by
  have hnil : (dims.filter fun d => !policy.dimensionAllowed d) = [] := by
    rw [List.filter_eq_nil_iff]
    intro d hd
    simp [h d hd]
  rw [enforceDimensionPolicy, hnil]

/-- One more name adds one dimension and its alias to what a leaf binds. -/
theorem bindNames_grouping {ctx : LeafContext} {owner : String} {tree : Dict String}
    {bound : BoundNames} (name : String) (h : bindNames ctx owner tree = .ok bound) :
    ∃ rest, bound.referenced = bound.dimensions.map (·.1) ++ rest ∧ ∀ bound',
      bindNames (ctx.grouping name) owner tree = .ok bound' ↔
        ∃ found, resolveDimension ctx.env owner tree name = .ok found ∧
          bound' = ⟨bound.dimensions ++ [found], bound.conditions,
            (bound.dimensions ++ [found]).map (·.1) ++ rest⟩ := by
  simp only [bindNames, bind_eq_ok, pure_eq_ok] at h
  obtain ⟨shifted, hshifted, dims, hdims, filters, hfilters, pres, hpres, rfl⟩ := h
  refine ⟨filters.2 ++ pres.2, by simp, fun bound' => ?_⟩
  have hnew : resolveDimensions ctx.env (ctx.query.dimensions ++ [name]) owner tree =
      (resolveDimension ctx.env owner tree name).map fun found => dims ++ [found] := by
    rw [resolveDimensions, List.mapM_append]
    rw [resolveDimensions] at hdims
    rw [hdims, ok_bind, List.mapM_cons, List.mapM_nil]
    cases resolveDimension ctx.env owner tree name <;> rfl
  simp only [bindNames, LeafContext.grouping, hshifted, hnew, hfilters, hpres, ok_bind]
  cases hres : resolveDimension ctx.env owner tree name with
  | error e => simp [Except.map]
  | ok found =>
      simp only [Except.map, ok_bind, pure_eq_ok, Except.ok.injEq, exists_eq_left',
        List.append_assoc]
      exact eq_comm

theorem planJoins_congr {owner : String} {via : Option (List String)} {ts us : List String}
    (h : ∀ x, x ∈ ts ↔ x ∈ us) :
    planJoins lib ss owner ts via = planJoins lib ss owner us via := by
  rw [planJoins, planJoins, sortedSet_congr h]

/-- **A leaf passes with one more name exactly when the name is clear.** -/
theorem LeafCall.passes_grouping_iff {c : LeafCall} {name : String} {referenced : List String}
    (hbase : enforceDimensionPolicy c.ctx.policy c.ctx.query.dimensions = .ok ())
    (hreferenced : c.referenced = .ok referenced)
    (hname : c.ctx.policy.dimensionAllowed name = true) :
    (c.grouping name).Passes ↔ c.Clear name := by
  have hallowed : enforceDimensionPolicy (c.grouping name).ctx.policy
      (c.grouping name).ctx.query.dimensions = .ok () := by
    refine enforceDimensionPolicy_of_allowed fun n hn => ?_
    rcases List.mem_append.mp hn with hn | hn
    · exact enforceDimensionPolicy_eq_ok hbase n hn
    · rw [List.mem_singleton.mp hn]
      exact hname
  obtain ⟨bound, hbound, h⟩ := bind_eq_ok.mp hreferenced
  obtain ⟨guarded, hguarded, h⟩ := bind_eq_ok.mp h
  obtain rfl := pure_eq_ok.mp h
  obtain ⟨rest, hrest, hnew⟩ := bindNames_grouping name hbound
  -- what is referenced with the name is what was, and the alias of the name
  have htargets (found : String × Dimension) (x : String) :
      x ∈ ((((bound.dimensions ++ [found]).map (·.1) ++ rest) ++ guarded).filter
        (· ≠ c.owner)) ↔ x ∈ (found.1 :: (bound.referenced ++ guarded)).filter (· ≠ c.owner) := by
    simp only [hrest, List.map_append, List.map_cons, List.map_nil, List.mem_filter,
      List.mem_append, List.mem_cons, List.not_mem_nil, or_false]
    tauto
  have hjoined : (∃ referenced edges, (c.grouping name).referenced = .ok referenced ∧
      leafEdges (c.grouping name).ctx c.owner referenced = .ok edges) ↔
      ∃ r d referenced, Designates c.ctx.env.sources c.owner name r d ∧
        c.referenced = .ok referenced ∧ Joinable c.ctx.env.lib c.ctx.env.sources c.owner c.ctx.via
          ((r :: referenced).filter (· ≠ c.owner)) := by
    constructor
    · rintro ⟨referenced', edges, hreferenced', hedges⟩
      obtain ⟨bound', hbound', h⟩ := bind_eq_ok.mp hreferenced'
      obtain ⟨guarded', hguarded', h⟩ := bind_eq_ok.mp h
      obtain rfl := pure_eq_ok.mp h
      obtain rfl : guarded' = guarded := Except.ok.inj (hguarded'.symm.trans hguarded)
      obtain ⟨found, hfound, rfl⟩ := (hnew bound').mp hbound'
      refine ⟨found.1, found.2, _, findDimension_iff.mp (resolveDimension_eq_ok.mp hfound),
        hreferenced, planJoins_iff.mp ⟨edges, ?_⟩⟩
      rw [← planJoins_congr (htargets found)]
      exact hedges
    · rintro ⟨r, d, referenced', hr, hreferenced', hjoinable⟩
      obtain rfl := Except.ok.inj (hreferenced.symm.trans hreferenced')
      obtain ⟨edges, hedges⟩ := planJoins_iff.mpr hjoinable
      have hfound : resolveDimension c.ctx.env c.owner c.tree name = .ok (r, d) :=
        resolveDimension_eq_ok.mpr (findDimension_iff.mpr hr)
      have hbound' := (hnew _).mpr ⟨(r, d), hfound, rfl⟩
      refine ⟨_, edges, ?_, (planJoins_congr (htargets (r, d))).trans hedges⟩
      rw [LeafCall.referenced]
      refine bind_eq_ok.mpr ⟨_, hbound', bind_eq_ok.mpr ⟨guarded, hguarded, rfl⟩⟩
  constructor
  · intro h
    exact ⟨hjoined.mp h.joined, fun s f timeDim hs hgated r hr =>
      realizedBy_iff.mp (h.realized s f timeDim hs hgated r hr)⟩
  · intro h
    exact ⟨hallowed, hjoined.mpr h.joined, fun s f timeDim hs hgated r hr =>
      realizedBy_iff.mpr (h.realized s f timeDim hs hgated r hr)⟩

end Clear

/-! ## The description of a metric -/

/-- The names a description lists pass the policy it was made under. -/
theorem mem_reachableDimensions_allowed {policy : EffectivePolicy} {source : String}
    {d : DimensionInfo} (h : d ∈ reachableDimensions ss policy source) :
    policy.dimensionAllowed d.name = true := by
  obtain ⟨e, he, rfl⟩ := List.mem_map.mp h
  exact (List.mem_filter.mp he).2

theorem describeMetric_allowed {p : Project} {principal : Principal} {name : String}
    {detail : MetricDetail} (h : describeMetric p principal name = .ok detail)
    {d : DimensionInfo} (hd : d ∈ detail.dimensions) :
    (p.resolver.authzFor principal).dimensionAllowed d.name = true := by
  simp only [describeMetric, bind_eq_ok] at h
  obtain ⟨b, -, h⟩ := h
  split at h
  · unfold describeSource at h
    split at h
    · split at h
      · simp at h
      · split at h
        · simp at h
        · obtain rfl := Except.ok.inj h
          exact mem_reachableDimensions_allowed hd
    · simp at h
  · obtain rfl := pure_eq_ok.mp h
    simp only [describeComposite, commonDimensions, leafDimensions, List.mem_filter] at hd
    -- the first metric underneath has the dimension
    cases hl : b.groupedLeaves with
    | nil => simp [hl] at hd
    | cons leaf leaves =>
        have hfirst := hd.1
        rw [hl, List.map_cons, List.headD_cons] at hfirst
        split at hfirst
        · exact mem_reachableDimensions_allowed hfirst
        · simp at hfirst

/-- What the leaves of a query are planned under. -/
def Project.leafContext (p : Project) (principal : Principal)
    (bindings : List (String × Binding)) (query : SemanticQuery) : LeafContext where
  env := ⟨p.lib, dialectForBindings p bindings, p.sources⟩
  query := query
  resolver := p.resolver
  principal := principal
  policy := p.resolver.authzFor principal

/-- Every dimension the description of a metric lists can be added to every query for it that the
stages let through: they let it through on each of its leaves. -/
def DescriptionTaken (p : Project) (principal : Principal) (name : String) : Prop :=
  ∀ b detail, resolveOrRaise p.resolver principal name = .ok b →
    describeMetric p principal name = .ok detail → ∀ d ∈ detail.dimensions,
    ∀ query c, Calls (p.leafContext principal [(name, b)] query) name b c → c.Passes →
      (c.grouping d.name).Passes

/-- A listed name is clear on each leaf of such a query. -/
def DescriptionClear (p : Project) (principal : Principal) (name : String) : Prop :=
  ∀ b detail, resolveOrRaise p.resolver principal name = .ok b →
    describeMetric p principal name = .ok detail → ∀ d ∈ detail.dimensions,
    ∀ query c, Calls (p.leafContext principal [(name, b)] query) name b c → c.Passes →
      c.Clear d.name

theorem descriptionTaken_iff (p : Project) (principal : Principal) (name : String) :
    DescriptionTaken p principal name ↔ DescriptionClear p principal name := by
  refine forall₄_congr fun b detail hb hdetail => forall₂_congr fun d hd =>
    forall₄_congr fun query c hc hpasses => ?_
  obtain ⟨referenced, -, hreferenced, -⟩ := hpasses.joined
  refine LeafCall.passes_grouping_iff hpasses.allowed hreferenced ?_
  rw [hc.sameAs.policy]
  exact describeMetric_allowed hdetail hd

/-! ## The suggestions of a query -/

/-- What is suggested passes the policy. -/
theorem mem_unusedDimensions_allowed {policy : EffectivePolicy} {q : SemanticQuery}
    {queried : List String} {d : RelatedDimension}
    (h : d ∈ unusedDimensions ss policy q queried) : policy.dimensionAllowed d.name = true := by
  have hkept : ∀ (entries : List (String × String)) (acc : List RelatedDimension),
      (∀ e ∈ acc, policy.dimensionAllowed e.name = true) →
      ∀ e ∈ entries.foldl (suggestDimension ss policy q queried) acc,
        policy.dimensionAllowed e.name = true := by
    intro entries
    induction entries with
    | nil => exact fun acc hacc => hacc
    | cons p entries ih =>
        intro acc hacc
        refine ih _ ?_
        simp only [suggestDimension]
        split
        · exact hacc
        next hpass =>
          intro e he
          rcases List.mem_append.mp he with he | he
          · exact hacc e he
          · rw [List.mem_singleton.mp he]
            simp only [Bool.or_eq_true, Bool.not_eq_true', not_or, Bool.not_eq_false] at hpass
            exact hpass.1.2
  have hmem := List.mem_of_mem_take h
  rw [List.mem_insertionSort] at hmem
  exact hkept _ [] (by simp) d hmem

/-- Every dimension suggested for a query that compiles can be added to it: the stages let it
through on each of its leaves. -/
def SuggestionsTaken (p : Project) (principal : Principal) (q : SemanticQuery) : Prop :=
  ∀ plan result, planQuery p q principal = .ok plan → compile p q principal = .ok result →
    ∀ d ∈ (related p.resolver p.sources (p.resolver.authzFor principal) plan.bindings
      plan.ctx.query).unusedDimensions,
    ∀ c l, plan.Calls c → l ∈ plan.leaves → c.Answered l → (c.grouping d.name).Passes

/-- A suggested name is clear on each leaf of the query. -/
def SuggestionsClear (p : Project) (principal : Principal) (q : SemanticQuery) : Prop :=
  ∀ plan result, planQuery p q principal = .ok plan → compile p q principal = .ok result →
    ∀ d ∈ (related p.resolver p.sources (p.resolver.authzFor principal) plan.bindings
      plan.ctx.query).unusedDimensions,
    ∀ c l, plan.Calls c → l ∈ plan.leaves → c.Answered l → c.Clear d.name

theorem suggestionsTaken_iff (p : Project) (principal : Principal) (q : SemanticQuery) :
    SuggestionsTaken p principal q ↔ SuggestionsClear p principal q := by
  refine forall₄_congr fun plan result hplan hresult => forall₂_congr fun d hd =>
    forall₄_congr fun c l hc hl => forall_congr' fun ha => ?_
  have hfrom := planQuery_eq_ok hplan
  have hpolicy : c.ctx.policy = p.resolver.authzFor principal :=
    hc.sameAs.policy.trans hfrom.policy
  have hdims : c.ctx.query.dimensions = plan.ctx.query.dimensions := by
    obtain ⟨b, -, hcalls⟩ := hc
    exact hcalls.dimensions
  obtain ⟨s, hs, -⟩ := ha.scope
  obtain ⟨referenced, -, hreferenced, -⟩ := scopeLeaf_referenced hs
  refine LeafCall.passes_grouping_iff ?_ hreferenced ?_
  · rw [hpolicy, hdims]
    exact (resolveQuery_eq_ok hfrom.bindings).2
  · rw [hpolicy]
    exact mem_unusedDimensions_allowed hd

/-- **Exactly when discovery agrees with the compiler.** A name that is listed for a metric, or
suggested for a query, is taken on every leaf exactly when it designates one dimension there, and on
each realization of the leaf's finality rule, and the joins to their aliases are not ambiguous. -/
theorem discovery_taken_iff (p : Project) (principal : Principal) (name : String)
    (q : SemanticQuery) :
    (DescriptionTaken p principal name ↔ DescriptionClear p principal name) ∧
      (SuggestionsTaken p principal q ↔ SuggestionsClear p principal q) :=
  ⟨descriptionTaken_iff p principal name, suggestionsTaken_iff p principal q⟩

/-! ### A parcel with two ways to an address

A parcel has an address of its own and one through its customer, so no single path leads to
`addresses`. The customer's `town` answers to `city` as well. -/

private def parcelTexts : List (String × Sql.Expr) :=
  let on (a b : Sql.Column) : Sql.Expr := .mkEq (.column a) (.column b)
  [("COUNT(*)", .node (.agg .count) [.node .star []]),
   ("parcels.address_id = addresses.id",
      on ⟨"", "parcels", "address_id"⟩ ⟨"", "addresses", "id"⟩),
   ("parcels.customer_id = customers.id",
      on ⟨"", "parcels", "customer_id"⟩ ⟨"", "customers", "id"⟩),
   ("customers.address_id = addresses.id",
      on ⟨"", "customers", "address_id"⟩ ⟨"", "addresses", "id"⟩)]

private def parcels : SemanticSource where
  name := "parcels"
  connection := "warehouse"
  table := "parcels"
  measures := [{ name := "count", expr := "COUNT(*)" }]
  joins := [⟨"addresses", "parcels.address_id = addresses.id", .manyToOne, none⟩,
    ⟨"customers", "parcels.customer_id = customers.id", .manyToOne, none⟩]
  measures_nodup := List.nodup_singleton _

private def parcelProject : Project where
  lib := Lib.ofTexts parcelTexts
  resolver :=
    { bindings := [{ metric := "parcel_count", canonical := { of := .single "parcels" "count" } }] }
  sources := { list := [parcels,
    { name := "customers", connection := "warehouse", table := "customers"
      columns := [⟨"town", .string, true⟩]
      dimensions := [{ name := "town", column := some "town", aliases := ["city"] }]
      joins := [⟨"addresses", "customers.address_id = addresses.id", .manyToOne, none⟩]
      joins_nodup := List.nodup_singleton "addresses" },
    { name := "addresses", connection := "warehouse", table := "addresses"
      columns := [⟨"city", .string, true⟩, ⟨"postcode", .string, true⟩]
      dimensions := [{ name := "city", column := some "city" },
        { name := "postcode", column := some "postcode" }] }] }


private def parcelContext : LeafContext :=
  parcelProject.leafContext {} [("parcel_count", .leaf
    { metric := "parcel_count", canonical := { of := .single "parcels" "count" } })]
    { metrics := ["parcel_count"] }

private def parcelCall : LeafCall :=
  simpleCall parcelContext "parcel_count"
    ⟨"parcel_count", "parcels", { name := "count", expr := "COUNT(*)" }⟩ none

/-- `city` is listed for the parcels, and a query for them that is grouped by it is refused: two
reachable dimensions answer to it. `postcode` is listed too, and no one path leads to it. -/
theorem discovery_taken_counterexample :
    ∃ b detail, resolveOrRaise parcelProject.resolver {} "parcel_count" = .ok b ∧
      describeMetric parcelProject {} "parcel_count" = .ok detail ∧
      (detail.dimensions.map (·.name)) = ["city", "postcode", "town"] ∧
      (∃ l, parcelCall.plan = .ok l) ∧
      (∀ name ∈ ["city", "postcode"], ¬ (parcelCall.grouping name).Passes) ∧
      ¬ DescriptionTaken parcelProject {} "parcel_count" := by
  have hb : resolveOrRaise parcelProject.resolver {} "parcel_count" = .ok (.leaf
      { metric := "parcel_count", canonical := { of := .single "parcels" "count" } }) := rfl
  obtain ⟨detail, hdetail, hnames⟩ := exists_ok_of_any
    (x := describeMetric parcelProject {} "parcel_count")
    (P := fun d => d.dimensions.map (·.name) == ["city", "postcode", "town"]) (by decide +kernel)
  have hnames : detail.dimensions.map (·.name) = ["city", "postcode", "town"] := by
    simpa using hnames
  obtain ⟨l, hl⟩ := exists_ok_of_isOk (x := parcelCall.plan) (by decide +kernel)
  have hrefused : ∀ name ∈ ["city", "postcode"], ¬ (parcelCall.grouping name).Passes := by
    intro name hname h
    obtain ⟨referenced, edges, hreferenced, hedges⟩ := h.joined
    have herr : ((parcelCall.grouping name).referenced >>= fun referenced =>
        leafEdges (parcelCall.grouping name).ctx parcelCall.owner referenced).isOk = false := by
      rcases List.mem_pair.mp hname with rfl | rfl <;> decide +kernel
    have hok : ((parcelCall.grouping name).referenced >>= fun referenced =>
        leafEdges (parcelCall.grouping name).ctx parcelCall.owner referenced) = .ok edges :=
      bind_eq_ok.mpr ⟨referenced, hreferenced, hedges⟩
    rw [hok] at herr
    simp [Except.isOk, Except.toBool] at herr
  refine ⟨_, detail, hb, hdetail, hnames, ⟨l, hl⟩, hrefused, fun htaken => ?_⟩
  obtain ⟨d, hd, hcity⟩ : ∃ d ∈ detail.dimensions, d.name = "city" :=
    List.mem_map.mp (by rw [hnames]; simp)
  have hcall : Calls parcelContext "parcel_count" (.leaf
      { metric := "parcel_count", canonical := { of := .single "parcels" "count" } })
      parcelCall := .simple rfl rfl
  have hpasses : parcelCall.Passes := LeafCall.passes_of_plan rfl hl
  have htaken := htaken _ detail hb hdetail d hd _ parcelCall hcall hpasses
  rw [hcity] at htaken
  exact hrefused "city" (by simp) htaken

end Canonic
