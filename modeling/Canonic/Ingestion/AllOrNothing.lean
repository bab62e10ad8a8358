import Canonic.Ingestion.Placement

set_option autoImplicit false

/-! # All of a definition, or nothing

A definition should be placed with all its fragments, or be reported and leave no trace, and what is
placed should read only columns of the relation it is placed on.

Nothing asks whether a grain or a description was put in, or whether its relation is in the run; a
join whose second part fails is reported with the first part placed; the columns of measures and
grains are not looked at; and a relation may stand behind another one of its short name.
`resolveDefinitions_places_iff` says when all of this does no harm. -/

namespace Canonic

/-! ## All or nothing -/

/-- What becomes of the definitions of a run. -/
abbrev runOf (lib : DefinitionReader) (schemas : List RelationSchema)
    (invalid : List (String × String)) (ps : List PendingDefinition) : Resolution :=
  resolveDefinitions lib (runRelations schemas) invalid ps

/-- The grain of a relation's draft: its primary key, where it has one. -/
def RelationSchema.draftGrain (schema : RelationSchema) (r : RelationDefinitions) : List String :=
  if schema.primaryKey.isEmpty then r.grain else schema.primaryKey

/-- A fragment is in the draft of a relation. -/
def InDraft (schema : RelationSchema) (r : RelationDefinitions) : Fragment → Prop
  | .grain columns => schema.draftGrain r = columns
  | f => r.Holds f

section
variable (lib : DefinitionReader) (schemas : List RelationSchema)

/-- Every fragment of a definition is in the drafts of its relation, of which there is one. -/
def Contributes (b : DefinitionBuckets) (d : DefinitionEvidence) : Prop :=
  ∀ f ∈ fragmentsOf lib (runRelations schemas) d, (∃ s ∈ schemas, s.name = f.1) ∧
    ∀ s ∈ schemas, s.name = f.1 → InDraft s (b.forRelation f.1) f.2

/-- A definition, among those before and after it, is reported and contributes nothing, or it is not
and contributes all its fragments, of which a measure and a dimension have one. -/
def AllOrNothing (invalid : List (String × String)) (before : List PendingDefinition)
    (p : PendingDefinition) (after : List PendingDefinition) : Prop :=
  let start := runOf lib schemas invalid before
  let next := runOf lib schemas invalid (before ++ [p])
  let final := runOf lib schemas invalid (before ++ p :: after)
  (∃ reason, next.unplaced = start.unplaced ++ [(p.source, reason)] ∧
      (p.source, reason) ∈ final.unplaced ∧ start.buckets.SameFragments next.buckets) ∨
    (next.unplaced = start.unplaced ∧
      (p.definition.entityType = .measure ∨ p.definition.entityType = .dimension →
        (fragmentsOf lib (runRelations schemas) p.definition).length = 1) ∧
      Contributes lib schemas final.buckets p.definition)

/-- The expression of a measure reads declared columns only. -/
def MeasureDraft.ReadsOnly (schema : RelationSchema) (m : MeasureDraft) : Prop :=
  ∃ e, lib.parse m.expr = some e ∧ ∀ c ∈ e.columns, c.name ∈ schema.columns.map (·.name)

/-- A join predicate reads declared columns of the two relations it joins, each qualified by its
own. -/
def JoinFragment.ReadsSides (schema : RelationSchema) (j : JoinFragment) : Prop :=
  ∃ e, lib.parse j.on = some e ∧ ∀ c ∈ e.columns,
    (c.table = j.to_ ∧ ∀ s ∈ schemas, s.name = j.to_ → c.name ∈ s.columns.map (·.name)) ∨
      (c.table = schema.name ∧ c.name ∈ schema.columns.map (·.name))

/-- What is placed on a relation reads its columns. -/
structure ReadsOwn (b : DefinitionBuckets) : Prop where
  measures : ∀ s ∈ schemas, ∀ m ∈ (b.forRelation s.name).measures, m.ReadsOnly lib s
  dimensions : ∀ s ∈ schemas, ∀ f ∈ (b.forRelation s.name).dimensions, f.ReadsOnly lib s
  joins : ∀ s ∈ schemas, ∀ j ∈ (b.forRelation s.name).joins, j.ReadsSides lib schemas s
  grain : ∀ s ∈ schemas, ∀ c ∈ (b.forRelation s.name).grain, c ∈ s.columns.map (·.name)

/-- The definitions of a run are all placed or reported, and read what they may. -/
def DefinitionsPlaced (invalid : List (String × String)) (ps : List PendingDefinition) : Prop :=
  (∀ before p after, ps = before ++ p :: after → p.definition.isCandidate = false →
    AllOrNothing lib schemas invalid before p after) ∧
  ReadsOwn lib schemas (runOf lib schemas invalid ps).buckets

end

/-! ## When definitions fit -/

/-- Another relation of its short name comes later. -/
def RelationSchema.Shadowed (schemas : List RelationSchema) (s : RelationSchema) : Prop :=
  (runRelations schemas).get s.name ≠ some s

section
variable (lib : DefinitionReader) (schemas : List RelationSchema)

/-- The parts of a join pass, or those up to the first that fails were placed before. -/
def PartsFit (before : List PendingDefinition) (d : DefinitionEvidence) : Prop :=
  passingParts lib (runRelations schemas) d = d.parts ∨
    ∀ part ∈ passingParts lib (runRelations schemas) d,
      .join (joinFragment part) ∈ statedFor lib (runRelations schemas) before part.1.left

/-- A grain is stated for relations of the run, as the only one, and is their primary key where they
have one. -/
structure GrainFits (ps : List PendingDefinition) (name : String) (columns : List String) :
    Prop where
  inRun : ∃ s ∈ schemas, s.name = name
  keys : ∀ s ∈ schemas, s.name = name → s.primaryKey = [] ∨ s.primaryKey = columns
  declared : ∀ s ∈ schemas, s.name = name → ∀ c ∈ columns, c ∈ s.columns.map (·.name)
  alone : ∀ other, .grain other ∈ statedFor lib (runRelations schemas) ps name → other = columns

/-- A description is stated for relations of the run, as the only one. -/
structure DescriptionFits (ps : List PendingDefinition) (name text : String) : Prop where
  inRun : ∃ s ∈ schemas, s.name = name
  alone : ∀ other, .description other ∈ statedFor lib (runRelations schemas) ps name →
    other = text

/-- The definitions of a run lose nothing and read what they may: the measures and dimensions that
come first under their names read columns of every relation of the short name, as the joins do. -/
structure DefinitionsFit (ps : List PendingDefinition) : Prop where
  parts : ∀ before p after, ps = before ++ p :: after → p.definition.isCandidate = false →
    p.definition.entityType = .join → PartsFit lib schemas before p.definition
  grains : ∀ name columns, .grain columns ∈ statedFor lib (runRelations schemas) ps name →
    GrainFits lib schemas ps name columns
  descriptions : ∀ name text, .description text ∈ statedFor lib (runRelations schemas) ps name →
    DescriptionFits lib schemas ps name text
  measures : ∀ s ∈ schemas, ∀ pre m post,
    (statedFor lib (runRelations schemas) ps s.name).filterMap (·.measure?) = pre ++ m :: post →
      (∀ other ∈ pre, other.name ≠ m.name) → m.ReadsOnly lib s
  dimensions : ∀ s ∈ schemas, s.Shadowed schemas → ∀ pre f post,
    (statedFor lib (runRelations schemas) ps s.name).filterMap (·.dimension?) = pre ++ f :: post →
      (∀ other ∈ pre, other.name ≠ f.name) → f.ReadsOnly lib s
  joins : ∀ s ∈ schemas, ∀ j, .join j ∈ statedFor lib (runRelations schemas) ps s.name →
    (s.Shadowed schemas ∨ ∃ s' ∈ schemas, s'.name = j.to_ ∧ s'.Shadowed schemas) →
      j.ReadsSides lib schemas s

end

section
variable {lib : DefinitionReader} {schemas : List RelationSchema}
  {invalid : List (String × String)} {before after : List PendingDefinition}
  {p : PendingDefinition}

theorem mem_of_runRelations {name : String} {s : RelationSchema}
    (h : (runRelations schemas).get name = some s) : s ∈ schemas ∧ s.name = name := by
  rw [runRelations, Dict.get_indexBy] at h
  simpa using List.mem_of_getLast? h

/-! ### What is reported -/

theorem resolveDefinitions_append (before after : List PendingDefinition) :
    runOf lib schemas invalid (before ++ after) =
      after.foldl (resolveStep lib (runRelations schemas))
        (runOf lib schemas invalid before) :=
  List.foldl_append

theorem unplaced_subset (ps : List PendingDefinition) (r : Resolution) :
    r.unplaced ⊆ (ps.foldl (resolveStep lib (runRelations schemas)) r).unplaced := by
  induction ps generalizing r with
  | nil => exact List.Subset.refl _
  | cons p ps ih =>
      refine List.Subset.trans ?_ (ih _)
      unfold resolveStep
      split
      · exact List.Subset.refl _
      · exact List.subset_append_left _ _

/-- A definition is reported with a reason, or not at all. -/
theorem allOrNothing_iff (hp : p.definition.isCandidate = false) :
    AllOrNothing lib schemas invalid before p after ↔
      ((placeDefinition lib (runRelations schemas) (runOf lib schemas invalid before).buckets
          p.definition).1 ≠ none →
        (runOf lib schemas invalid before).buckets.SameFragments (placeDefinition lib
          (runRelations schemas) (runOf lib schemas invalid before).buckets p.definition).2) ∧
        ((placeDefinition lib (runRelations schemas) (runOf lib schemas invalid before).buckets
            p.definition).1 = none →
          (p.definition.entityType = .measure ∨ p.definition.entityType = .dimension →
            (fragmentsOf lib (runRelations schemas) p.definition).length = 1) ∧
          Contributes lib schemas (runOf lib schemas invalid
            (before ++ p :: after)).buckets p.definition) := by
  set placed := placeDefinition lib (runRelations schemas)
    (runOf lib schemas invalid before).buckets p.definition with hplaced
  have hnext : runOf lib schemas invalid (before ++ [p]) =
      resolveStep lib (runRelations schemas)
        (runOf lib schemas invalid before) p :=
    resolveDefinitions_append before [p]
  have hfinal : runOf lib schemas invalid (before ++ p :: after) =
      after.foldl (resolveStep lib (runRelations schemas))
        (runOf lib schemas invalid (before ++ [p])) := by
    rw [← resolveDefinitions_append, List.append_assoc, List.singleton_append]
  -- a definition that is no candidate is placed in its own step
  have hbuckets : (runOf lib schemas invalid
      (before ++ [p])).buckets = placed.2 := by
    rw [hnext, resolveStep, hp]
    rfl
  have hunplaced : (runOf lib schemas invalid
      (before ++ [p])).unplaced = (runOf lib schemas invalid
        before).unplaced ++ placed.1.toList.map fun reason => (p.source, reason) := by
    rw [hnext, resolveStep, hp]
    rfl
  rw [AllOrNothing, hbuckets, hunplaced]
  cases hreason : placed.1 with
  | none => simp
  | some reason =>
      have hmem : (p.source, reason) ∈ (runOf lib schemas invalid
          (before ++ p :: after)).unplaced := by
        rw [hfinal]
        refine unplaced_subset after _ ?_
        rw [hunplaced, hreason]
        simp
      constructor
      · rintro (⟨_, -, -, hsame⟩ | ⟨heq, -⟩)
        · exact ⟨fun _ => hsame, fun h => by simp at h⟩
        · simp at heq
      · intro h
        exact .inl ⟨reason, by simp, hmem, h.1 (by simp)⟩

/-! ### One kind at a time -/

/-- What is placed stays, where it stands beside others. -/
theorem holds_final (hp : p.definition.isCandidate = false) {name : String} {f : Fragment}
    (hf : f.Listed)
    (h : ((placeDefinition lib (runRelations schemas) (runOf lib schemas invalid before).buckets
      p.definition).2.forRelation name).Holds f) :
    ((runOf lib schemas invalid
      (before ++ p :: after)).buckets.forRelation name).Holds f := by
  rw [← RelationDefinitions.holds_contributed, resolveDefinitions_append, List.foldl_cons,
    foldl_resolveStep_adds]
  refine RelationDefinitions.holds_foldl_add hf _ (RelationDefinitions.holds_contributed.mpr ?_)
  rw [resolveStep, hp]
  exact h

theorem InDraft.of_listed {s : RelationSchema} {r : RelationDefinitions} {f : Fragment}
    (hf : f.Listed) (h : r.Holds f) : InDraft s r f := by
  cases f with
  | measure | dimension | join => exact h
  | grain | description => exact hf.elim

theorem allOrNothing_of_single (hp : p.definition.isCandidate = false)
    (h : SinglePlaced lib (runRelations schemas)
      (runOf lib schemas invalid before).buckets p.definition
      (placeDefinition lib (runRelations schemas)
        (runOf lib schemas invalid before).buckets p.definition)) :
    AllOrNothing lib schemas invalid before p after := by
  refine (allOrNothing_iff hp).mpr ⟨h.refused, fun hnone => ?_⟩
  obtain ⟨name, schema, f, hone, hget, hlisted, hholds⟩ := h.placed hnone
  refine ⟨fun _ => by rw [hone, List.length_singleton], fun g hg => ?_⟩
  rw [hone, List.mem_singleton] at hg
  subst hg
  obtain ⟨hmem, hname⟩ := mem_of_runRelations hget
  exact ⟨⟨schema, hmem, hname⟩, fun s _ _ => .of_listed hlisted (holds_final hp hlisted hholds)⟩

theorem placeDefinition_join {b : DefinitionBuckets} {d : DefinitionEvidence}
    (hd : d.entityType = .join) :
    (placeDefinition lib (runRelations schemas) b d).1 = none ↔
      passingParts lib (runRelations schemas) d = d.parts := by
  have hparts : (placeParts lib (runRelations schemas) d b d.parts).1 = none ↔
      ∀ p ∈ d.parts, checkPart lib (runRelations schemas) d p = none :=
    (placeParts_adds d d.parts).2
  rw [placeDefinition, hd, passingParts, List.takeWhile_eq_self_iff]
  simpa using hparts

/-- A join that is reported contributes nothing exactly where all that it placed was there. -/
theorem allOrNothing_join_iff (hp : p.definition.isCandidate = false)
    (hd : p.definition.entityType = .join) : AllOrNothing lib schemas invalid before p after ↔
      PartsFit lib schemas before p.definition := by
  rw [allOrNothing_iff hp, ne_eq, placeDefinition_join hd, PartsFit]
  -- a join all of whose parts pass has its fragments in the drafts
  have hcontributes : passingParts lib (runRelations schemas) p.definition = p.definition.parts →
      Contributes lib schemas (runOf lib schemas invalid
        (before ++ p :: after)).buckets p.definition := by
    intro hall f hf
    simp only [fragmentsOf, hd, List.mem_map] at hf
    obtain ⟨part, hpart, rfl⟩ := hf
    rw [passingParts, List.takeWhile_eq_self_iff] at hall
    obtain ⟨-, source, -, -, hsource, -⟩ := checkPart_eq_none (by simpa using hall part hpart)
    obtain ⟨hmem, hname⟩ := mem_of_runRelations hsource
    refine ⟨⟨source, hmem, hname⟩, fun s _ _ => ?_⟩
    refine .of_listed trivial ((mem_joins_resolveDefinitions _).mpr (mem_statedFor.mpr
      ⟨p, by simp, hp, ?_⟩))
    rw [statedFragments_join hd, passingParts, List.takeWhile_eq_self_iff.mpr hall]
    exact List.mem_map_of_mem hpart
  have hadds : Adds (runOf lib schemas invalid before).buckets
      (statedFragments lib (runRelations schemas) p.definition)
      (placeDefinition lib (runRelations schemas)
        (runOf lib schemas invalid before).buckets p.definition).2 :=
    placeDefinition_adds p.definition
  rw [statedFragments_join hd] at hadds
  -- the parts before the first that fails change nothing exactly if they were placed before
  have hsame : (runOf lib schemas invalid
      before).buckets.SameFragments (placeDefinition lib (runRelations schemas)
        (runOf lib schemas invalid before).buckets p.definition).2 ↔
      ∀ part ∈ passingParts lib (runRelations schemas) p.definition,
        .join (joinFragment part) ∈ statedFor lib (runRelations schemas) before part.1.left := by
    constructor
    · intro h part hpart
      rw [← mem_joins_resolveDefinitions invalid]
      have hjoins := congrArg RelationDefinitions.joins
        ((h part.1.left).symm.trans (hadds part.1.left))
      rw [RelationDefinitions.joins_foldl_add] at hjoins
      have hmem : joinFragment part ∈ (atRelation part.1.left
          ((passingParts lib (runRelations schemas) p.definition).map fun part =>
            (part.1.left, Fragment.join (joinFragment part)))).filterMap (·.join?) :=
        List.mem_filterMap.mpr ⟨_, mem_atRelation.mpr (List.mem_map_of_mem hpart), rfl⟩
      show joinFragment part ∈ RelationDefinitions.joins (RelationDefinitions.contributed _)
      rw [hjoins]
      rw [← List.map_id (List.foldl _ _ _)]
      exact key_mem_foldl_keep.mpr (.inr (List.mem_map_of_mem hmem))
    · intro h name
      rw [hadds name]
      refine RelationDefinitions.foldl_add_of_unchanged fun f hf => ?_
      obtain ⟨part, hpart, heq⟩ := List.mem_map.mp (mem_atRelation.mp hf)
      obtain ⟨rfl, rfl⟩ := Prod.mk.inj heq
      have hmem := (mem_joins_resolveDefinitions invalid).mpr (h part hpart)
      exact RelationDefinitions.contributed_add_join (if_pos (by rwa [List.map_id]))
  rw [hsame]
  constructor
  · rintro ⟨hfail, -⟩
    by_cases hall : passingParts lib (runRelations schemas) p.definition = p.definition.parts
    · exact .inl hall
    · exact .inr (hfail hall)
  · intro h
    refine ⟨fun hfail => h.resolve_left hfail, fun hall => ⟨?_, hcontributes hall⟩⟩
    simp [hd]

/-- A definition that is never reported has to contribute. -/
theorem allOrNothing_iff_contributes (hp : p.definition.isCandidate = false)
    (hd : p.definition.entityType ∉ [.measure, .dimension, .join]) :
    AllOrNothing lib schemas invalid before p after ↔ Contributes lib schemas
      (runOf lib schemas invalid (before ++ p :: after)).buckets p.definition := by
  have hnone : (placeDefinition lib (runRelations schemas)
      (runOf lib schemas invalid before).buckets p.definition).1 = none := by
    unfold placeDefinition
    cases h : p.definition.entityType with
    | measure | dimension | join => simp [h] at hd
    | entity | model | metric => rfl
  rw [allOrNothing_iff hp]
  constructor
  · exact fun h => (h.2 hnone).2
  · intro h
    refine ⟨fun hsome => absurd hnone hsome, fun _ => ⟨?_, h⟩⟩
    rintro (h | h)
    · simp [h] at hd
    · simp [h] at hd

/-! ### The two directions -/

theorem Contributes.of_stated {ps : List PendingDefinition}
    (h : DefinitionsPlaced lib schemas invalid ps) {name : String} {f : Fragment}
    (hf : f.kind = .entity ∨ f.kind = .model)
    (hstated : f ∈ statedFor lib (runRelations schemas) ps name) :
    (∃ s ∈ schemas, s.name = name) ∧ ∀ s ∈ schemas, s.name = name →
      InDraft s ((runOf lib schemas invalid ps).buckets.forRelation name) f := by
  obtain ⟨p, hp, hcandidate, hmem⟩ := mem_statedFor.mp hstated
  obtain ⟨before, after, rfl⟩ := List.append_of_mem hp
  have hkind := stated_kind hmem
  have hfragment : (name, f) ∈ fragmentsOf lib (runRelations schemas) p.definition := by
    cases f with
    | measure | dimension | join => simp [Fragment.kind] at hf
    | grain columns => exact (stated_grain hmem).2
    | description text => exact stated_description hmem
  refine (allOrNothing_iff_contributes hcandidate ?_).mp (h.1 before p after rfl hcandidate) _
    hfragment
  rw [hkind]
  rcases hf with hf | hf
  · simp [hf]
  · simp [hf]

theorem draftGrain_eq {s : RelationSchema} {r : RelationDefinitions} {columns : List String}
    (h : s.draftGrain r = columns) :
    (s.primaryKey = [] ∧ r.grain = columns) ∨ s.primaryKey = columns := by
  unfold RelationSchema.draftGrain at h
  split at h
  next hnil => exact .inl ⟨List.isEmpty_iff.mp hnil, h⟩
  · exact .inr h

/-- Definitions that are placed fit. -/
theorem DefinitionsPlaced.fit {ps : List PendingDefinition}
    (h : DefinitionsPlaced lib schemas invalid ps) : DefinitionsFit lib schemas ps where
  parts before p after hsplit hp hd :=
    (allOrNothing_join_iff hp hd).mp (h.1 before p after hsplit hp)
  grains name columns hmem := by
    obtain ⟨hrun, hdraft⟩ := Contributes.of_stated h (.inl rfl) hmem
    have halone : ∀ other, .grain other ∈ statedFor lib (runRelations schemas) ps name →
        other = columns := by
      intro other hother
      obtain ⟨s, hs, hname⟩ := hrun
      exact ((Contributes.of_stated h (.inl rfl) hother).2 s hs hname).symm.trans
        (hdraft s hs hname)
    obtain ⟨p, -, -, hstated⟩ := mem_statedFor.mp hmem
    have hgrain := grain_resolveDefinitions invalid (stated_grain hstated).1 hmem halone
    refine ⟨hrun, fun s hs hname => ?_, fun s hs hname c hc => ?_, halone⟩
    · exact (draftGrain_eq (hdraft s hs hname)).imp_left And.left
    · refine h.2.grain s hs c ?_
      rw [hname]
      exact hgrain.symm ▸ hc
  descriptions name text hmem := by
    obtain ⟨hrun, hdraft⟩ := Contributes.of_stated h (.inr rfl) hmem
    refine ⟨hrun, fun other hother => ?_⟩
    obtain ⟨s, hs, hname⟩ := hrun
    exact Option.some.inj (((Contributes.of_stated h (.inr rfl) hother).2 s hs hname).symm.trans
      (hdraft s hs hname))
  measures s hs pre m post hsplit hfirst :=
    h.2.measures s hs m ((mem_measures_resolveDefinitions _).mpr ⟨pre, post, hsplit, hfirst⟩)
  dimensions s hs _ pre f post hsplit hfirst :=
    h.2.dimensions s hs f ((mem_dimensions_resolveDefinitions _).mpr ⟨pre, post, hsplit, hfirst⟩)
  joins s hs j hmem _ := h.2.joins s hs j ((mem_joins_resolveDefinitions _).mpr hmem)

/-- What is placed reads what it may where the definitions fit. -/
theorem DefinitionsFit.readsOwn {ps : List PendingDefinition}
    (h : DefinitionsFit lib schemas ps) :
    ReadsOwn lib schemas (runOf lib schemas invalid ps).buckets where
  measures s hs m hm := by
    obtain ⟨pre, post, hsplit, hfirst⟩ := (mem_measures_resolveDefinitions _).mp hm
    exact h.measures s hs pre m post hsplit hfirst
  dimensions s hs f hf := by
    obtain ⟨pre, post, hsplit, hfirst⟩ := (mem_dimensions_resolveDefinitions _).mp hf
    by_cases hshadowed : s.Shadowed schemas
    · exact h.dimensions s hs hshadowed pre f post hsplit hfirst
    · obtain ⟨schema, hget, hreads⟩ := checked_dimension hf
      rw [RelationSchema.Shadowed, not_not, hget] at hshadowed
      exact Option.some.inj hshadowed ▸ hreads
  joins s hs j hj := by
    by_cases hshadowed :
        s.Shadowed schemas ∨ ∃ s' ∈ schemas, s'.name = j.to_ ∧ s'.Shadowed schemas
    · exact h.joins s hs j ((mem_joins_resolveDefinitions _).mp hj) hshadowed
    · simp only [RelationSchema.Shadowed, not_or, not_exists, not_and, not_not] at hshadowed
      obtain ⟨e, source, target, hparse, hsource, htarget, hreads⟩ := checked_join hj
      rw [hsource] at hshadowed
      obtain rfl := Option.some.inj hshadowed.1
      refine ⟨e, hparse, fun c hc => (hreads c hc).imp_left (And.imp_right fun hin s' hs' hn => ?_)⟩
      have htarget' := hshadowed.2 s' hs' hn
      rw [hn, htarget] at htarget'
      exact Option.some.inj htarget' ▸ hin
  grain s hs c hc := (h.grains s.name _ (stated_of_grain (List.ne_nil_of_mem hc))).declared s hs rfl
    c hc

theorem DefinitionsFit.contributes {ps : List PendingDefinition}
    (h : DefinitionsFit lib schemas ps) (hp : p ∈ ps)
    (hcandidate : p.definition.isCandidate = false)
    (hd : p.definition.entityType ∉ [.measure, .dimension, .join]) :
    Contributes lib schemas (runOf lib schemas invalid ps).buckets p.definition := by
  rintro ⟨name, f⟩ hf
  have hkind := fragmentsOf_kind hf
  have hmem : f ∈ statedFor lib (runRelations schemas) ps name := by
    refine mem_statedFor.mpr ⟨p, hp, hcandidate, ?_⟩
    unfold statedFragments
    cases ht : p.definition.entityType with
    | measure | dimension | join => simp [ht] at hd
    | entity | model | metric => exact hf
  obtain ⟨q, -, -, hstated⟩ := mem_statedFor.mp hmem
  cases f with
  | measure | dimension | join => simp [hkind, Fragment.kind] at hd
  | grain columns =>
      obtain ⟨hrun, hkeys, -, halone⟩ := h.grains name columns hmem
      have hgrain := grain_resolveDefinitions invalid (stated_grain hstated).1 hmem halone
      refine ⟨hrun, fun s hs hname => ?_⟩
      show (if s.primaryKey.isEmpty then _ else _) = columns
      rcases hkeys s hs hname with hkey | hkey
      · simpa [hkey] using hgrain
      · split
        · exact hgrain
        · exact hkey
  | description text =>
      obtain ⟨hrun, halone⟩ := h.descriptions name text hmem
      exact ⟨hrun, fun s _ _ => description_resolveDefinitions invalid hmem halone⟩

/-- Definitions that fit are placed. -/
theorem DefinitionsFit.placed {ps : List PendingDefinition} (h : DefinitionsFit lib schemas ps) :
    DefinitionsPlaced lib schemas invalid ps := by
  refine ⟨fun before p after hsplit hp => ?_, h.readsOwn⟩
  have hmem : p ∈ ps := by simp [hsplit]
  cases hd : p.definition.entityType with
  | measure =>
      refine allOrNothing_of_single hp ?_
      rw [placeDefinition, hd]
      exact placeMeasure_placed hd
  | dimension =>
      refine allOrNothing_of_single hp ?_
      rw [placeDefinition, hd]
      exact placeDimension_placed hd
  | join => exact (allOrNothing_join_iff hp hd).mpr (h.parts before p after hsplit hp hd)
  | entity | model | metric =>
      refine (allOrNothing_iff_contributes hp (by simp [hd])).mpr ?_
      rw [← hsplit]
      exact h.contributes hmem hp (by simp [hd])

end

private def orderRows : RelationSchema where
  connection := "wh"
  relation := "main.orders"
  columns := [{ name := "id", type := "int" }, { name := "customer_id", type := "int" }]
  acquisitionTier := .live

private def customerRows : RelationSchema where
  connection := "wh"
  relation := "main.customers"
  columns := [{ name := "id", type := "int" }]
  acquisitionTier := .live

private def customerPredicate : String := "orders.customer_id = customers.id"

private def orderReader : DefinitionReader where
  parse text := if text = customerPredicate then
    some (.mkEq (Sql.Expr.col "customer_id" "orders") (Sql.Expr.col "id" "customers")) else none
  columnSql c := c.table ++ "." ++ c.name
  expressionType _ _ := none

private def customerGrain : PendingDefinition :=
  ⟨"dbt",
    { entity := "customers"
      entityType := .entity
      references := ["main.customers"]
      grain := ["id"]
      nativeRef := "model.customers" }⟩

private def orderJoin : PendingDefinition :=
  ⟨"dbt",
    { entity := "orders_customers_items"
      entityType := .join
      joins := [⟨"orders", "customers", "many_to_one", some customerPredicate⟩,
        ⟨"orders", "items", "one_to_many", some "orders.id = items.order_id"⟩]
      nativeRef := "model.orders" }⟩

end Canonic
