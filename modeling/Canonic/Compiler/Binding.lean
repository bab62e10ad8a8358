import Canonic.Compiler.Calls
import Canonic.Compiler.JoinTree
import Canonic.Sql.Traverse

set_option autoImplicit false

/-! # What a bare name is bound to

A bare name in a filter, a population, a guardrail or a `distinct_on` is meant for the owner's
dimension or column, and else for the only joined alias that declares it. `_find_dimension` and
`_bind_name` look in another order: dimensions of the owner, dimensions of the joined aliases,
columns of the owner, columns of *any* source by its name. So a joined dimension hides a column of
the owner, and a joined column is taken from the first source that has it. -/

namespace Canonic

open Sql (Expr)
open Canonic.Graph

/-! ## The meaning of a bare name -/

/-- The source has a dimension or a column of the name. -/
def SemanticSource.declares (s : SemanticSource) (name : String) : Bool :=
  (s.findDim name).isSome || s.hasColumn name

/-- The joined aliases whose source declares the name. -/
def declaringAliases (ss : Sources) (name owner : String) : List String :=
  ((reachableAliases ss owner (some (buildAliasTree ss owner))).filter fun p =>
    ((ss.get p.2).map (·.declares name)).getD false).map (·.1)

/-- The alias a name stands for: the owner, or the only joined alias that declares it. -/
def ownerFirst (ss : Sources) (name owner : String) : Option String :=
  if ((ss.get owner).map (·.declares name)).getD false then some owner
  else match declaringAliases ss name owner with
    | [a] => some a
    | _ => none

/-! ## The alias it is bound to -/

/-- `bareColumn` without the expression it builds: the alias a bare name is bound to. -/
def bareAlias (ss : Sources) (name owner : String) (tree : Option (Dict String)) :
    Except Err String := do
  match (← findDimension ss name owner tree).filter (·.2.isDerived) with
  | some (alias_, _) => .ok alias_
  | none =>
      match ← bindName ss name owner tree with
      | some (alias_, _) => .ok alias_
      | none => .error (.unreachable s!"filter references unknown name {pyRepr name}" [])

/-- Where a contract or a query names a column. -/
inductive NameUse where
  | filter
  | populationFilter
  | guardrailFilter
  | column
  deriving DecidableEq, Repr

/-- Some simple path of joins enters the alias; the owner is entered by the empty one. -/
def LeadsTo (ss : Sources) (owner a : String) : Prop :=
  ∃ w t, Simple (joinStep ss) owner owner w t ∧ (owner :: w).getLast? = some a

/-- The name is bound to an alias. The alias of a filter is joined, so compilation is refused when
no path of joins leads there; a population and a `distinct_on` join nothing. The filter of a
guardrail is bound with the alias tree to plan the joins, and without it for its condition. -/
def BoundTo (ss : Sources) (name owner : String) : NameUse → String → Prop
  | .filter, a =>
      bareAlias ss name owner (some (buildAliasTree ss owner)) = .ok a ∧ LeadsTo ss owner a
  | .populationFilter, a => bareAlias ss name owner (some (buildAliasTree ss owner)) = .ok a
  | .guardrailFilter, a =>
      (∃ b, bareAlias ss name owner (some (buildAliasTree ss owner)) = .ok b ∧
        LeadsTo ss owner b) ∧ bareAlias ss name owner none = .ok a
  | .column, a => ∃ c, bindName ss name owner (some (buildAliasTree ss owner)) = .ok (some (a, c))

/-- The name is bound to what it stands for, and to nothing when it stands for nothing. -/
def BindsOwnerFirst (ss : Sources) (name owner : String) (use : NameUse) : Prop :=
  ∀ a, BoundTo ss name owner use a ↔ ownerFirst ss name owner = some a

section Binding

variable {env : Env} {ss : Sources} {shifted : ShiftMap} {name owner : String}
  {tree : Option (Dict String)}

/-! ## The candidates -/

/-- The dimensions of the joined aliases that answer to the name. -/
def dimensionCandidates (ss : Sources) (name owner : String) (tree : Option (Dict String)) :
    List (String × Dimension) :=
  (reachableAliases ss owner tree).sorted.flatMap (aliasCandidates ss name)

/-- The aliases that offer a name which the owner does not declare: those of the joined
dimensions, or without one the first source with such a column. -/
def offeringAliases (ss : Sources) (name owner : String) (tree : Option (Dict String)) :
    List String :=
  match dimensionCandidates ss name owner tree with
  | [] => (otherSourceWith ss name owner).toList
  | cs => cs.map (·.1)

/-- The same for a physical column: a lone dimension without one does not offer it. -/
def offeringColumns (ss : Sources) (name owner : String) (tree : Option (Dict String)) :
    List String :=
  match dimensionCandidates ss name owner tree with
  | [] => (otherSourceWith ss name owner).toList
  | [c] => if c.2.isDerived then (otherSourceWith ss name owner).toList else [c.1]
  | cs => cs.map (·.1)

theorem plain_column {d : Dimension} (h : d.isDerived = false) :
    d.jsonPath = none ∧ ∃ c, d.column = some c := by
  obtain ⟨hexpr, hjson⟩ := Bool.or_eq_false_iff.mp h
  have hxor := d.column_xor_expr
  cases hcolumn : d.column with
  | none => simp_all
  | some c => exact ⟨by simpa using hjson, c, rfl⟩

/-- What is bound when a lookup of dimensions has answered. -/
def columnOf (found : Option (String × Dimension)) : Option (String × String) :=
  found.bind fun p => if p.2.jsonPath.isNone then p.2.column.map (p.1, ·) else none

theorem columnOf_plain {a : String} {d : Dimension} (h : d.isDerived = false) :
    ∃ c, columnOf (some (a, d)) = some (a, c) := by
  obtain ⟨hjson, c, hcolumn⟩ := plain_column h
  exact ⟨c, by simp [columnOf, hjson, hcolumn]⟩

theorem columnOf_derived {a : String} {d : Dimension} (h : d.isDerived = true) :
    columnOf (some (a, d)) = none := by
  have hxor := d.column_xor_expr
  unfold Dimension.isDerived at h
  cases hjson : d.jsonPath with
  | some p => simp [columnOf, hjson]
  | none =>
      have hexpr : d.expr.isNone = false := by simpa [hjson] using h
      have hcolumn : d.column = none := by
        rw [hexpr] at hxor
        simpa using hxor
      simp [columnOf, hjson, hcolumn]

/-- The last two steps of `bindName`: columns of the owner, then of the other sources. -/
def columnFallback (ss : Sources) (name owner : String) : Option (String × String) :=
  if ((ss.get owner).map (·.hasColumn name)).getD false then some (owner, name)
  else (otherSourceWith ss name owner).map fun s => (s, name)

theorem bindName_of_found {found : Option (String × Dimension)}
    (h : findDimension ss name owner tree = .ok found) :
    bindName ss name owner tree = .ok ((columnOf found).or (columnFallback ss name owner)) := by
  rw [bindName, h, ok_bind]
  unfold columnOf
  cases found.bind fun p => if p.2.jsonPath.isNone then p.2.column.map (p.1, ·) else none with
  | some b => rfl
  | none =>
      unfold columnFallback
      by_cases hown : ((ss.get owner).map (·.hasColumn name)).getD false = true
      · simp only [hown, if_true]
        rfl
      · simp only [hown]
        rfl

theorem bareAlias_of_found {found : Option (String × Dimension)}
    (h : findDimension ss name owner tree = .ok found) :
    (∃ a d, found = some (a, d) ∧ bareAlias ss name owner tree = .ok a) ∨
      (found = none ∧ ∀ a, bareAlias ss name owner tree = .ok a ↔
        ∃ c, columnFallback ss name owner = some (a, c)) := by
  unfold bareAlias
  rw [h, ok_bind]
  cases found with
  | none =>
      right
      refine ⟨rfl, fun a => ?_⟩
      simp only [Option.filter_none, bindName_of_found h, ok_bind, columnOf, Option.bind_none,
        Option.none_or]
      cases columnFallback ss name owner with
      | none => simp
      | some b => simp [Prod.ext_iff]
  | some p =>
      obtain ⟨a, d⟩ := p
      left
      refine ⟨a, d, rfl, ?_⟩
      cases hd : d.isDerived with
      | true => simp [Option.filter, hd]
      | false =>
          obtain ⟨c, hc⟩ := columnOf_plain (a := a) hd
          simp [Option.filter, hd, bindName_of_found h, hc]

/-! ## How a bare name is looked up -/

theorem findDimension_bare (hbare : splitRole name = none) :
    findDimension ss name owner tree = findBareDimension ss name owner tree := by
  rw [findDimension, hbare]

theorem findDimension_own {d : Dimension} (hbare : splitRole name = none)
    (hown : (ss.get owner).bind (·.findDim name) = some d) :
    findDimension ss name owner tree = .ok (some (owner, d)) := by
  rw [findDimension_bare hbare, findBareDimension, hown]

theorem findDimension_joined (tree : Option (Dict String)) (hbare : splitRole name = none)
    (hown : (ss.get owner).bind (·.findDim name) = none) :
    (dimensionCandidates ss name owner tree = [] ∧
        findDimension ss name owner tree = .ok none) ∨
      (∃ c, dimensionCandidates ss name owner tree = [c] ∧
        findDimension ss name owner tree = .ok (some c)) ∨
      (2 ≤ (dimensionCandidates ss name owner tree).length ∧
        ∃ e, findDimension ss name owner tree = .error e) := by
  rw [findDimension_bare hbare, findBareDimension, hown]
  unfold dimensionCandidates
  rcases (reachableAliases ss owner tree).sorted.flatMap (aliasCandidates ss name) with
    _ | ⟨c, _ | ⟨c', cs⟩⟩
  · exact Or.inl ⟨rfl, rfl⟩
  · exact Or.inr (Or.inl ⟨c, rfl, rfl⟩)
  · exact Or.inr (Or.inr ⟨by simp, _, rfl⟩)

/-- A candidate is joined: it is not the owner. -/
theorem ne_owner_of_candidate {c : String × Dimension}
    (h : c ∈ dimensionCandidates ss name owner tree) : c.1 ≠ owner := by
  obtain ⟨p, hp, hc⟩ := List.mem_flatMap.mp h
  have hname : c.1 = p.1 := by
    unfold aliasCandidates at hc
    split at hc
    · cases hc
    · obtain ⟨d, -, rfl⟩ := List.mem_map.mp hc
      rfl
  rw [hname]
  have hp : p ∈ reachableAliases ss owner tree := by
    simpa only [Dict.sorted, List.mem_insertionSort] using hp
  cases tree with
  | some t => simpa using (List.mem_filter.mp hp).2
  | none =>
      obtain ⟨s, hs, rfl⟩ := List.mem_map.mp hp
      simpa using (List.mem_filter.mp hs).2

/-- A candidate of the alias tree is led to. -/
theorem leadsTo_of_candidate {c : String × Dimension}
    (h : c ∈ dimensionCandidates ss name owner (some (buildAliasTree ss owner))) :
    LeadsTo ss owner c.1 := by
  obtain ⟨p, hp, hc⟩ := List.mem_flatMap.mp h
  have hname : c.1 = p.1 := by
    unfold aliasCandidates at hc
    split at hc
    · cases hc
    · obtain ⟨d, -, rfl⟩ := List.mem_map.mp hc
      rfl
  have hp : p ∈ reachableAliases ss owner (some (buildAliasTree ss owner)) := by
    simpa only [Dict.sorted, List.mem_insertionSort] using hp
  have hget := Dict.get_of_mem (buildAliasTree_inv ss owner).nodup (List.mem_filter.mp hp).1
  obtain ⟨w, hw, hlast⟩ := buildAliasTree_sound hget
  exact ⟨w, p.2, hw, hname ▸ hlast⟩

theorem leadsTo_owner : LeadsTo ss owner owner :=
  ⟨[], owner, ⟨rfl, List.nodup_singleton owner⟩, rfl⟩

theorem otherSourceWith_ne {s : String} (h : otherSourceWith ss name owner = some s) :
    s ≠ owner := by
  obtain ⟨source, hsource, rfl⟩ := Option.map_eq_some_iff.mp h
  have hfound := List.find?_some hsource
  simp only [Bool.and_eq_true, decide_eq_true_eq] at hfound
  exact hfound.1

/-! ## What a bare name is bound to -/

/-- The owner has a physical column of the name. -/
def ownsColumn (ss : Sources) (name owner : String) : Bool :=
  ((ss.get owner).map (·.hasColumn name)).getD false

theorem columnFallback_owns (hcol : ownsColumn ss name owner = true) :
    columnFallback ss name owner = some (owner, name) := if_pos hcol

theorem columnFallback_other (hcol : ownsColumn ss name owner = false) :
    columnFallback ss name owner = (otherSourceWith ss name owner).map fun s => (s, name) :=
  if_neg (by rw [Bool.not_eq_true]; exact hcol)

theorem owner_declares :
    ((ss.get owner).map (·.declares name)).getD false =
      (((ss.get owner).bind (·.findDim name)).isSome || ownsColumn ss name owner) := by
  unfold ownsColumn
  cases ss.get owner with
  | none => rfl
  | some s => rfl

theorem bareAlias_own {d : Dimension} (hbare : splitRole name = none)
    (hown : (ss.get owner).bind (·.findDim name) = some d) :
    bareAlias ss name owner tree = .ok owner := by
  rcases bareAlias_of_found (findDimension_own hbare hown) with ⟨a, d', hfound, h⟩ | ⟨hfound, -⟩
  · cases hfound
    exact h
  · cases hfound

/-- The owner's column is bound when no joined dimension answers to its name. -/
theorem bareAlias_column {a : String} (hbare : splitRole name = none)
    (hown : (ss.get owner).bind (·.findDim name) = none)
    (hcol : ownsColumn ss name owner = true) :
    bareAlias ss name owner tree = .ok a ↔
      (dimensionCandidates ss name owner tree = [] ∧ a = owner) ∨
        ∃ d, dimensionCandidates ss name owner tree = [(a, d)] := by
  rcases findDimension_joined tree hbare hown with
    ⟨hnil, hfind⟩ | ⟨⟨b, d⟩, hone, hfind⟩ | ⟨hmany, e, hfind⟩
  · rcases bareAlias_of_found hfind with ⟨b, d, hfound, -⟩ | ⟨-, h⟩
    · cases hfound
    · rw [h, columnFallback_owns hcol, hnil]
      simp [eq_comm]
  · rcases bareAlias_of_found hfind with ⟨b', d', hfound, h⟩ | ⟨hfound, -⟩
    · cases hfound
      rw [h, hone]
      simp
    · cases hfound
  · have herror : bareAlias ss name owner tree = .error e := by
      rw [bareAlias, hfind, error_bind]
    rw [herror]
    constructor
    · intro h
      cases h
    · rintro (⟨hnil, -⟩ | ⟨d, hone⟩)
      · simp [hnil] at hmany
      · simp [hone] at hmany

/-- A name the owner does not declare is bound to the alias that offers it. -/
theorem bareAlias_joined {a : String} (hbare : splitRole name = none)
    (hown : (ss.get owner).bind (·.findDim name) = none)
    (hcol : ownsColumn ss name owner = false) :
    bareAlias ss name owner tree = .ok a ↔ offeringAliases ss name owner tree = [a] := by
  unfold offeringAliases
  rcases findDimension_joined tree hbare hown with
    ⟨hnil, hfind⟩ | ⟨⟨b, d⟩, hone, hfind⟩ | ⟨hmany, e, hfind⟩
  · rcases bareAlias_of_found hfind with ⟨b, d, hfound, -⟩ | ⟨-, h⟩
    · cases hfound
    · rw [h, columnFallback_other hcol, hnil]
      cases otherSourceWith ss name owner <;> simp
  · rcases bareAlias_of_found hfind with ⟨b', d', hfound, h⟩ | ⟨hfound, -⟩
    · cases hfound
      rw [h, hone]
      simp
    · cases hfound
  · have herror : bareAlias ss name owner tree = .error e := by
      rw [bareAlias, hfind, error_bind]
    rw [herror]
    rcases hcands : dimensionCandidates ss name owner tree with _ | ⟨c, _ | ⟨c', cs⟩⟩
    · simp [hcands] at hmany
    · simp [hcands] at hmany
    · simp

theorem bindName_own {d : Dimension} {a : String} (hbare : splitRole name = none)
    (hown : (ss.get owner).bind (·.findDim name) = some d) :
    (∃ c, bindName ss name owner tree = .ok (some (a, c))) ↔
      if d.isDerived then ∃ c, columnFallback ss name owner = some (a, c) else a = owner := by
  rw [bindName_of_found (findDimension_own hbare hown)]
  cases hd : d.isDerived with
  | true => simp [columnOf_derived hd]
  | false =>
      obtain ⟨c, hc⟩ := columnOf_plain (a := owner) hd
      simp [hc, eq_comm]

theorem bindName_column {a : String} (hbare : splitRole name = none)
    (hown : (ss.get owner).bind (·.findDim name) = none)
    (hcol : ownsColumn ss name owner = true) :
    (∃ c, bindName ss name owner tree = .ok (some (a, c))) ↔
      (a = owner ∧ (dimensionCandidates ss name owner tree = [] ∨
          ∃ p, dimensionCandidates ss name owner tree = [p] ∧ p.2.isDerived = true)) ∨
        ∃ d, dimensionCandidates ss name owner tree = [(a, d)] ∧ d.isDerived = false := by
  rcases findDimension_joined tree hbare hown with
    ⟨hnil, hfind⟩ | ⟨⟨b, d⟩, hone, hfind⟩ | ⟨hmany, e, hfind⟩
  · rw [bindName_of_found hfind, columnFallback_owns hcol, hnil]
    simp [columnOf, @eq_comm _ a owner]
  · rw [bindName_of_found hfind, columnFallback_owns hcol, hone]
    cases hd : d.isDerived with
    | true => simp [columnOf_derived hd, hd, @eq_comm _ a owner]
    | false =>
        obtain ⟨c, hc⟩ := columnOf_plain (a := b) hd
        simp [hc, hd]
  · rw [bindName, hfind, error_bind]
    constructor
    · rintro ⟨c, hc⟩
      cases hc
    · rintro (⟨-, hnil | ⟨p, hone, -⟩⟩ | ⟨d, hone, -⟩)
      · simp [hnil] at hmany
      · simp [hone] at hmany
      · simp [hone] at hmany

theorem bindName_joined {a : String} (hbare : splitRole name = none)
    (hown : (ss.get owner).bind (·.findDim name) = none)
    (hcol : ownsColumn ss name owner = false) :
    (∃ c, bindName ss name owner tree = .ok (some (a, c))) ↔
      offeringColumns ss name owner tree = [a] := by
  unfold offeringColumns
  rcases findDimension_joined tree hbare hown with
    ⟨hnil, hfind⟩ | ⟨⟨b, d⟩, hone, hfind⟩ | ⟨hmany, e, hfind⟩
  · rw [bindName_of_found hfind, columnFallback_other hcol, hnil]
    cases otherSourceWith ss name owner <;> simp [columnOf]
  · rw [bindName_of_found hfind, columnFallback_other hcol, hone]
    cases hd : d.isDerived with
    | true => cases otherSourceWith ss name owner <;> simp [columnOf_derived hd, hd]
    | false =>
        obtain ⟨c, hc⟩ := columnOf_plain (a := b) hd
        simp [hc, hd]
  · rw [bindName, hfind, error_bind]
    rcases hcands : dimensionCandidates ss name owner tree with _ | ⟨c, _ | ⟨c', cs⟩⟩
    · simp [hcands] at hmany
    · simp [hcands] at hmany
    · simp

/-! ## When it is what the name stands for -/

/-- The owner's column is not hidden by a dimension of a joined alias. -/
def OwnerUnhidden (ss : Sources) (name owner : String) : NameUse → Prop
  | .filter | .populationFilter =>
      dimensionCandidates ss name owner (some (buildAliasTree ss owner)) = []
  | .guardrailFilter => dimensionCandidates ss name owner none = [] ∧
      (dimensionCandidates ss name owner (some (buildAliasTree ss owner))).length ≤ 1
  | .column => dimensionCandidates ss name owner (some (buildAliasTree ss owner)) = [] ∨
      ∃ p, dimensionCandidates ss name owner (some (buildAliasTree ss owner)) = [p] ∧
        p.2.isDerived = true

/-- One alias offers the name exactly when it is the one that declares it. -/
def OfferedAsDeclared (ss : Sources) (name owner : String) : NameUse → Prop
  | .filter => ∀ a, offeringAliases ss name owner (some (buildAliasTree ss owner)) = [a] ∧
      LeadsTo ss owner a ↔ declaringAliases ss name owner = [a]
  | .populationFilter => ∀ a, offeringAliases ss name owner (some (buildAliasTree ss owner)) = [a] ↔
      declaringAliases ss name owner = [a]
  | .guardrailFilter => ∀ a,
      (∃ b, offeringAliases ss name owner (some (buildAliasTree ss owner)) = [b] ∧
          LeadsTo ss owner b) ∧ offeringAliases ss name owner none = [a] ↔
        declaringAliases ss name owner = [a]
  | .column => ∀ a, offeringColumns ss name owner (some (buildAliasTree ss owner)) = [a] ↔
      declaringAliases ss name owner = [a]

/-- The name is looked up where it is declared: a dimension of the owner, a column of the owner
that no joined dimension hides, or the one joined alias that declares it. -/
def Unshadowed (ss : Sources) (name owner : String) (use : NameUse) : Prop :=
  match (ss.get owner).bind (·.findDim name) with
  | some d => use = .column → d.isDerived = false ∨ ownsColumn ss name owner = true
  | none =>
      if ownsColumn ss name owner then OwnerUnhidden ss name owner use
      else OfferedAsDeclared ss name owner use

theorem ownerFirst_owner (h : ((ss.get owner).map (·.declares name)).getD false = true) :
    ownerFirst ss name owner = some owner := if_pos h

theorem ownerFirst_joined (h : ((ss.get owner).map (·.declares name)).getD false = false)
    (a : String) : ownerFirst ss name owner = some a ↔ declaringAliases ss name owner = [a] := by
  rw [ownerFirst, if_neg (by rw [Bool.not_eq_true]; exact h)]
  rcases declaringAliases ss name owner with _ | ⟨b, _ | ⟨c, cs⟩⟩ <;> simp

theorem bindsOwnerFirst_own {d : Dimension} {use : NameUse} (hbare : splitRole name = none)
    (hown : (ss.get owner).bind (·.findDim name) = some d) :
    BindsOwnerFirst ss name owner use ↔
      (use = .column → d.isDerived = false ∨ ownsColumn ss name owner = true) := by
  have hfirst : ownerFirst ss name owner = some owner :=
    ownerFirst_owner (by rw [owner_declares, hown]; rfl)
  unfold BindsOwnerFirst
  simp only [hfirst, Option.some.injEq]
  cases use with
  | filter =>
      simp only [BoundTo, bareAlias_own hbare hown, Except.ok.injEq, reduceCtorEq, false_implies,
        iff_true, and_iff_left_iff_imp]
      rintro a rfl
      exact leadsTo_owner
  | populationFilter => simp [BoundTo, bareAlias_own hbare hown]
  | guardrailFilter =>
      simp only [BoundTo, bareAlias_own hbare hown, Except.ok.injEq, reduceCtorEq, false_implies,
        iff_true, and_iff_right_iff_imp]
      rintro a rfl
      exact ⟨owner, rfl, leadsTo_owner⟩
  | column =>
      simp only [BoundTo, bindName_own hbare hown, true_implies]
      cases hd : d.isDerived with
      | false => simp [@eq_comm _ owner]
      | true =>
          simp only [if_true, Bool.true_eq_false, false_or]
          cases hcol : ownsColumn ss name owner with
          | true =>
              rw [columnFallback_owns hcol]
              simp
          | false =>
              -- the owner's dimension has no column, so another source's is taken
              simp only [Bool.false_eq_true, iff_false, columnFallback_other hcol]
              intro h
              obtain ⟨c, hc⟩ := (h owner).mpr rfl
              obtain ⟨s, hs, hpair⟩ := Option.map_eq_some_iff.mp hc
              exact otherSourceWith_ne hs (Prod.mk.inj hpair).1

/-- The owner is no candidate of its own. -/
theorem candidates_ne_owner {tree : Option (Dict String)} {d : Dimension} :
    dimensionCandidates ss name owner tree ≠ [(owner, d)] := by
  intro h
  have hmem : (owner, d) ∈ dimensionCandidates ss name owner tree := by
    rw [h]
    exact List.mem_singleton_self _
  exact ne_owner_of_candidate hmem rfl

section OwnColumn

variable (hbare : splitRole name = none) (hown : (ss.get owner).bind (·.findDim name) = none)
  (hcol : ownsColumn ss name owner = true)

include hbare hown hcol

/-- A column of the owner is bound exactly when no joined source offers the name. -/
theorem bareAlias_owner_iff (tree : Option (Dict String)) :
    bareAlias ss name owner tree = .ok owner ↔ dimensionCandidates ss name owner tree = [] := by
  rw [bareAlias_column hbare hown hcol]
  simp [candidates_ne_owner]

theorem bareAlias_of_no_candidate {tree : Option (Dict String)}
    (hnil : dimensionCandidates ss name owner tree = []) (a : String) :
    bareAlias ss name owner tree = .ok a ↔ owner = a := by
  rw [bareAlias_column hbare hown hcol, hnil]
  simp [eq_comm]

/-- A guardrail is bound twice: without the tree for its column, and with it for its joins. -/
theorem boundTo_guardrail_column :
    (∀ a, BoundTo ss name owner .guardrailFilter a ↔ owner = a) ↔
      OwnerUnhidden ss name owner .guardrailFilter := by
  constructor
  · intro h
    obtain ⟨⟨b, hb, -⟩, howner⟩ := (h owner).mpr rfl
    refine ⟨(bareAlias_owner_iff hbare hown hcol none).mp howner, ?_⟩
    rcases (bareAlias_column hbare hown hcol).mp hb with ⟨hnil, -⟩ | ⟨d, hone⟩
    · rw [hnil]
      exact Nat.zero_le 1
    · rw [hone]
      exact Nat.le_refl 1
  · rintro ⟨hnone, hle⟩ a
    show _ ∧ _ ↔ _
    rw [bareAlias_of_no_candidate hbare hown hcol hnone]
    refine and_iff_right_of_imp fun ha => ?_
    rcases hcands : dimensionCandidates ss name owner (some (buildAliasTree ss owner)) with
      _ | ⟨⟨b, d⟩, _ | ⟨c', cs⟩⟩
    · exact ⟨owner, (bareAlias_owner_iff hbare hown hcol _).mpr hcands, leadsTo_owner⟩
    · refine ⟨b, (bareAlias_column hbare hown hcol).mpr (Or.inr ⟨d, hcands⟩), ?_⟩
      have hmem : (b, d) ∈ dimensionCandidates ss name owner
          (some (buildAliasTree ss owner)) := by
        rw [hcands]
        exact List.mem_singleton_self _
      exact leadsTo_of_candidate hmem
    · rw [hcands] at hle
      simp at hle

/-- A plain read takes the column of the owner where no candidate has a column, or none at all. -/
theorem boundTo_read_column :
    (∀ a, BoundTo ss name owner .column a ↔ owner = a) ↔ OwnerUnhidden ss name owner .column := by
  simp only [BoundTo, bindName_column hbare hown hcol, OwnerUnhidden]
  constructor
  · intro h
    rcases (h owner).mpr rfl with ⟨-, hunhidden⟩ | ⟨d, hone, -⟩
    · exact hunhidden
    · exact absurd hone candidates_ne_owner
  · intro hunhidden a
    constructor
    · rintro (⟨rfl, -⟩ | ⟨d, hone, hplain⟩)
      · rfl
      · rcases hunhidden with hnil | ⟨p, hp, hderived⟩
        · rw [hnil] at hone
          cases hone
        · rw [hone] at hp
          obtain rfl := List.singleton_inj.mp hp
          rw [hplain] at hderived
          cases hderived
    · rintro rfl
      exact Or.inl ⟨rfl, hunhidden⟩

theorem bindsOwnerFirst_column {use : NameUse} :
    BindsOwnerFirst ss name owner use ↔ OwnerUnhidden ss name owner use := by
  have hfirst : ownerFirst ss name owner = some owner :=
    ownerFirst_owner (by rw [owner_declares, hcol, Bool.or_true])
  have hbound := bareAlias_owner_iff hbare hown hcol
  have honly := @bareAlias_of_no_candidate _ _ _ hbare hown hcol
  unfold BindsOwnerFirst
  simp only [hfirst, Option.some.injEq]
  cases use with
  | filter =>
      constructor
      · intro h
        exact (hbound _).mp ((h owner).mpr rfl).1
      · intro hnil a
        show _ ∧ _ ↔ _
        rw [honly hnil]
        refine and_iff_left_of_imp ?_
        rintro rfl
        exact leadsTo_owner
  | populationFilter =>
      constructor
      · intro h
        exact (hbound _).mp ((h owner).mpr rfl)
      · exact fun hnil a => honly hnil a
  | guardrailFilter => exact boundTo_guardrail_column hbare hown hcol
  | column => exact boundTo_read_column hbare hown hcol

end OwnColumn

theorem bindsOwnerFirst_joined {use : NameUse} (hbare : splitRole name = none)
    (hown : (ss.get owner).bind (·.findDim name) = none)
    (hcol : ownsColumn ss name owner = false) :
    BindsOwnerFirst ss name owner use ↔ OfferedAsDeclared ss name owner use := by
  have hfirst : ∀ a, ownerFirst ss name owner = some a ↔ declaringAliases ss name owner = [a] :=
    ownerFirst_joined (by rw [owner_declares, hown, hcol]; rfl)
  unfold BindsOwnerFirst
  simp only [hfirst]
  cases use with
  | filter => simp only [BoundTo, bareAlias_joined hbare hown hcol, OfferedAsDeclared]
  | populationFilter => simp only [BoundTo, bareAlias_joined hbare hown hcol, OfferedAsDeclared]
  | guardrailFilter => simp only [BoundTo, bareAlias_joined hbare hown hcol, OfferedAsDeclared]
  | column => simp only [BoundTo, bindName_joined hbare hown hcol, OfferedAsDeclared]

/-- **The owner comes first** in every kind of lookup where nothing shadows its name. -/
theorem bindsOwnerFirst_iff (use : NameUse) (hbare : splitRole name = none) :
    BindsOwnerFirst ss name owner use ↔ Unshadowed ss name owner use := by
  unfold Unshadowed
  cases hown : (ss.get owner).bind (·.findDim name) with
  | some d => exact bindsOwnerFirst_own hbare hown
  | none =>
      cases hcol : ownsColumn ss name owner with
      | true => exact bindsOwnerFirst_column hbare hown hcol
      | false => exact bindsOwnerFirst_joined hbare hown hcol

/-- Orders with a plain column `status`, joined to customers with a dimension `status`. -/
private def statusSources : Sources where
  list := [
    { name := "orders", connection := "warehouse", table := "orders"
      columns := [⟨"status", .string, true⟩, ⟨"channel", .string, true⟩]
      dimensions := [{ name := "channel", column := some "channel" }]
      joins := [⟨"customers", "orders.customer_id = customers.id", .manyToOne, none⟩]
      joins_nodup := List.nodup_singleton "customers" },
    { name := "customers", connection := "warehouse", table := "customers"
      columns := [⟨"status", .string, true⟩]
      dimensions := [{ name := "status", column := some "status" }] }]

/-- A `distinct_on` over the owner's column `status` is bound to the customers. -/
theorem bindsOwnerFirst_counterexample :
    ownerFirst statusSources "status" "orders" = some "orders" ∧
      BoundTo statusSources "status" "orders" .column "customers" ∧
      ¬ BindsOwnerFirst statusSources "status" "orders" .column := by
  have hfirst : ownerFirst statusSources "status" "orders" = some "orders" := by decide +kernel
  have hbound : BoundTo statusSources "status" "orders" .column "customers" :=
    ⟨"status", by decide +kernel⟩
  refine ⟨hfirst, hbound, fun h => ?_⟩
  have hsame := (h "customers").mp hbound
  rw [hfirst] at hsame
  exact absurd hsame (by decide)

/-- The dimension of the owner is bound to the owner. -/
theorem bindsOwnerFirst_channel :
    splitRole "channel" = none ∧
      (BindsOwnerFirst statusSources "channel" "orders" .column ↔
        Unshadowed statusSources "channel" "orders" .column) :=
  ⟨by decide, bindsOwnerFirst_iff .column (by decide)⟩

end Binding

end Canonic
