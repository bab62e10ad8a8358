import Canonic.Ingestion.Definitions

set_option autoImplicit false

/-! # Where definitions are placed

The drafts of a run are the fragments that its definitions state, put in one by one
(`resolveDefinitions_contributed`): of the measures and of the dimensions of one name the first
stays, so does the first grain, and the last description. The parts of a join are put in until one
fails. Dimensions and joins were checked against the relations of their short names. -/

namespace Canonic

/-! ## Keeping the first of a name -/

section Keep

variable {α κ : Type} [DecidableEq κ] {key : α → κ}

/-- A list with one more element, unless it has one of that key. -/
def keep (key : α → κ) (l : List α) (a : α) : List α := if key a ∈ l.map key then l else l ++ [a]

theorem mem_keep {l : List α} {a b : α} :
    b ∈ keep key l a ↔ b ∈ l ∨ (b = a ∧ key a ∉ l.map key) := by
  unfold keep
  split
  next hmem => simp [hmem]
  next hmem => simp [hmem]

theorem key_mem_foldl_keep {l acc : List α} {k : κ} :
    k ∈ (l.foldl (keep key) acc).map key ↔ k ∈ acc.map key ∨ k ∈ l.map key := by
  induction l generalizing acc with
  | nil => simp
  | cons a l ih =>
      rw [List.foldl_cons, ih, List.map_cons, List.mem_cons, or_left_comm, ← or_assoc]
      refine or_congr ?_ Iff.rfl
      unfold keep
      split
      next hmem =>
        constructor
        · exact .inr
        · rintro (rfl | h)
          · exact hmem
          · exact h
      · rw [List.map_append, List.map_singleton, List.mem_append, List.mem_singleton, or_comm]

/-- What is kept of a list: each element before which there is none of its key. -/
theorem mem_foldl_keep {l : List α} {a : α} : a ∈ l.foldl (keep key) [] ↔
    ∃ pre post, l = pre ++ a :: post ∧ ∀ b ∈ pre, key b ≠ key a := by
  induction l using List.reverseRecOn with
  | nil => simp
  | append_singleton l x ih =>
      rw [List.foldl_append, List.foldl_cons, List.foldl_nil, mem_keep, ih, key_mem_foldl_keep]
      constructor
      · rintro (⟨pre, post, rfl, hpre⟩ | ⟨rfl, hnew⟩)
        · exact ⟨pre, post ++ [x], by simp, hpre⟩
        · refine ⟨l, [], rfl, fun b hb heq => hnew (.inr ?_)⟩
          rw [← heq]
          exact List.mem_map_of_mem hb
      · rintro ⟨pre, post, hsplit, hpre⟩
        rcases List.eq_nil_or_concat' post with rfl | ⟨post, y, rfl⟩
        · obtain ⟨rfl, hx⟩ := List.append_inj' hsplit rfl
          obtain rfl : x = a := by simpa using hx
          refine .inr ⟨rfl, ?_⟩
          rintro (h | h)
          · simp at h
          · obtain ⟨b, hb, heq⟩ := List.mem_map.mp h
            exact hpre b hb heq
        · rw [← List.cons_append, ← List.append_assoc] at hsplit
          exact .inl ⟨pre, post, (List.append_inj' hsplit rfl).1, hpre⟩

theorem mem_foldl_keep_id [DecidableEq α] {l : List α} {a : α} :
    a ∈ l.foldl (keep id) [] ↔ a ∈ l := by
  have h : a ∈ (l.foldl (keep id) []).map id ↔ a ∈ [].map id ∨ a ∈ l.map id := key_mem_foldl_keep
  simpa using h

theorem subset_foldl_keep (l : List α) {acc : List α} {a : α} (h : a ∈ acc) :
    a ∈ l.foldl (keep key) acc := by
  induction l generalizing acc with
  | nil => exact h
  | cons b l ih => exact ih (mem_keep.mpr (.inl h))

end Keep

/-! ## Fragments -/

/-- What a definition can contribute to the draft of a relation. -/
inductive Fragment where
  | measure (m : MeasureDraft)
  | dimension (f : DimensionDraft)
  | join (j : JoinFragment)
  | grain (columns : List String)
  | description (text : String)

namespace Fragment

def measure? : Fragment → Option MeasureDraft
  | measure m => some m
  | _ => none

def dimension? : Fragment → Option DimensionDraft
  | dimension f => some f
  | _ => none

def join? : Fragment → Option JoinFragment
  | join j => some j
  | _ => none

/-- The kind of the definitions that state a fragment. -/
def kind : Fragment → DefinitionEntityType
  | measure _ => .measure
  | dimension _ => .dimension
  | join _ => .join
  | grain _ => .entity
  | description _ => .model

/-- A fragment that stands beside others in a draft. -/
def Listed : Fragment → Prop
  | measure _ | dimension _ | join _ => True
  | grain _ | description _ => False

end Fragment

namespace RelationDefinitions

/-- A fragment is put in: the first of a name stays, and the first grain, and the last
description. -/
def add (r : RelationDefinitions) : Fragment → RelationDefinitions
  | .measure m => { r with measures := keep (·.name) r.measures m }
  | .dimension f => { r with dimensions := keep (·.name) r.dimensions f }
  | .join j => { r with joins := keep id r.joins j }
  | .grain columns => if r.grain = [] then { r with grain := columns } else r
  | .description text => { r with description := some text }

/-- A fragment is part of a draft. -/
def Holds (r : RelationDefinitions) : Fragment → Prop
  | .measure m => m ∈ r.measures
  | .dimension f => f ∈ r.dimensions
  | .join j => j ∈ r.joins
  | .grain columns => r.grain = columns
  | .description text => r.description = some text

/-- A draft without its notes. -/
def contributed (r : RelationDefinitions) : RelationDefinitions := { r with reviewNotes := [] }

variable {r : RelationDefinitions}

theorem contributed_add_measure {m : MeasureDraft} {ms : List MeasureDraft}
    (h : keep (·.name) r.measures m = ms) :
    r.contributed.add (.measure m) =
      ({ r with measures := ms } : RelationDefinitions).contributed := by
  subst h
  rfl

theorem contributed_add_dimension {f : DimensionDraft} {fs : List DimensionDraft}
    (h : keep (·.name) r.dimensions f = fs) : r.contributed.add (.dimension f) =
      ({ r with dimensions := fs } : RelationDefinitions).contributed := by
  subst h
  rfl

theorem contributed_add_join {j : JoinFragment} {js : List JoinFragment}
    (h : keep id r.joins j = js) :
    r.contributed.add (.join j) = ({ r with joins := js } : RelationDefinitions).contributed := by
  subst h
  rfl

theorem holds_contributed {f : Fragment} : r.contributed.Holds f ↔ r.Holds f := by
  cases f with
  | measure | dimension | join | grain | description => rfl

theorem measures_foldl_add (fs : List Fragment) : (fs.foldl add r).measures =
    (fs.filterMap (·.measure?)).foldl (keep (·.name)) r.measures := by
  induction fs generalizing r with
  | nil => rfl
  | cons f fs ih =>
      rw [List.foldl_cons, ih]
      cases f with
      | grain columns => rw [add]; split <;> rfl
      | measure | dimension | join | description => rfl

theorem dimensions_foldl_add (fs : List Fragment) : (fs.foldl add r).dimensions =
    (fs.filterMap (·.dimension?)).foldl (keep (·.name)) r.dimensions := by
  induction fs generalizing r with
  | nil => rfl
  | cons f fs ih =>
      rw [List.foldl_cons, ih]
      cases f with
      | grain columns => rw [add]; split <;> rfl
      | measure | dimension | join | description => rfl

theorem joins_foldl_add (fs : List Fragment) : (fs.foldl add r).joins =
    (fs.filterMap (·.join?)).foldl (keep id) r.joins := by
  induction fs generalizing r with
  | nil => rfl
  | cons f fs ih =>
      rw [List.foldl_cons, ih]
      cases f with
      | grain columns => rw [add]; split <;> rfl
      | measure | dimension | join | description => rfl

/-- What stands beside others stays. -/
theorem holds_foldl_add {f : Fragment} (hf : f.Listed) (fs : List Fragment) (h : r.Holds f) :
    (fs.foldl add r).Holds f := by
  cases f with
  | measure m =>
      show m ∈ (fs.foldl add r).measures
      rw [measures_foldl_add]
      exact subset_foldl_keep _ h
  | dimension f =>
      show f ∈ (fs.foldl add r).dimensions
      rw [dimensions_foldl_add]
      exact subset_foldl_keep _ h
  | join j =>
      show j ∈ (fs.foldl add r).joins
      rw [joins_foldl_add]
      exact subset_foldl_keep _ h
  | grain | description => exact hf.elim

theorem foldl_add_of_unchanged {fs : List Fragment} (h : ∀ f ∈ fs, r.add f = r) :
    fs.foldl add r = r := by
  induction fs with
  | nil => rfl
  | cons f fs ih =>
      rw [List.foldl_cons, h f List.mem_cons_self]
      exact ih fun g hg => h g (List.mem_cons_of_mem f hg)

/-- Where all grains that are put in are one, it is the grain. -/
theorem grain_foldl_add {fs : List Fragment} {columns : List String} (hne : columns ≠ [])
    (hall : ∀ other, .grain other ∈ fs → other = columns)
    (h : r.grain = columns ∨ (r.grain = [] ∧ .grain columns ∈ fs)) :
    (fs.foldl add r).grain = columns := by
  induction fs generalizing r with
  | nil => simpa using h
  | cons f fs ih =>
      refine ih (fun other hother => hall other (List.mem_cons_of_mem f hother)) ?_
      cases f with
      | grain other =>
          obtain rfl : other = columns := hall other List.mem_cons_self
          rcases h with h | ⟨h, -⟩
          · exact .inl (by rw [add, if_neg (h ▸ hne), h])
          · exact .inl (by rw [add, if_pos h])
      | measure | dimension | join | description => simpa [add] using h

/-- A grain was there, or was put in. -/
theorem grain_of_foldl_add (fs : List Fragment) :
    (fs.foldl add r).grain = r.grain ∨ .grain (fs.foldl add r).grain ∈ fs := by
  induction fs generalizing r with
  | nil => exact .inl rfl
  | cons f fs ih =>
      rw [List.foldl_cons]
      rcases ih (r := r.add f) with h | h
      · cases f with
        | grain columns =>
            rw [h, add]
            split
            · exact .inr List.mem_cons_self
            · exact .inl rfl
        | measure | dimension | join | description => exact .inl h
      · exact .inr (List.mem_cons_of_mem f h)

/-- Where all descriptions that are put in are one, it is the description. -/
theorem description_foldl_add {fs : List Fragment} {text : String}
    (hall : ∀ other, .description other ∈ fs → other = text)
    (h : r.description = some text ∨ .description text ∈ fs) :
    (fs.foldl add r).description = some text := by
  induction fs generalizing r with
  | nil => simpa using h
  | cons f fs ih =>
      refine ih (fun other hother => hall other (List.mem_cons_of_mem f hother)) ?_
      cases f with
      | description other =>
          obtain rfl : other = text := hall other List.mem_cons_self
          exact .inl rfl
      | grain columns =>
          refine h.imp (fun h => ?_) fun h => by simpa using h
          rw [add]
          split
          · exact h
          · exact h
      | measure | dimension | join => simpa [add] using h

end RelationDefinitions

/-! ## What a definition states -/

/-- The fragments a definition stands for, each with its relation. -/
def fragmentsOf (lib : DefinitionReader) (relations : Dict RelationSchema)
    (d : DefinitionEvidence) : List (String × Fragment) :=
  match d.entityType with
  | .measure => d.additivity.toList.flatMap fun a => d.references.map fun r =>
      (lastComponent r, .measure (measureFragment d a))
  | .dimension => d.references.flatMap fun r =>
      (relations.get (lastComponent r)).toList.flatMap fun schema =>
        (dimensionFragment lib d (lastComponent r) schema).toOption.toList.map fun f =>
          (lastComponent r, .dimension f)
  | .join => d.parts.map fun p => (p.1.left, .join (joinFragment p))
  | .entity => if d.grain = [] then [] else
      d.references.map fun r => (lastComponent r, .grain d.grain)
  | .model => (stated d.description).toList.map fun text =>
      (lastComponent d.entity, .description text)
  | .metric => []

/-- The parts of a join up to the first that fails. -/
def passingParts (lib : DefinitionReader) (relations : Dict RelationSchema)
    (d : DefinitionEvidence) : List (JoinSpec × String) :=
  d.parts.takeWhile fun p => (checkPart lib relations d p).isNone

/-- The fragments that are put in, each with its relation. -/
def statedFragments (lib : DefinitionReader) (relations : Dict RelationSchema)
    (d : DefinitionEvidence) : List (String × Fragment) :=
  match d.entityType with
  | .measure =>
      match singleRelation relations d with
      | .ok _ => fragmentsOf lib relations d
      | .error _ => []
  | .dimension =>
      match singleRelation relations d with
      | .ok _ => fragmentsOf lib relations d
      | .error _ => []
  | .join => (passingParts lib relations d).map fun p => (p.1.left, .join (joinFragment p))
  | .entity | .model | .metric => fragmentsOf lib relations d

/-- The fragments that go to one relation. -/
def atRelation (name : String) (fs : List (String × Fragment)) : List Fragment :=
  fs.filterMap fun f => if f.1 = name then some f.2 else none

theorem mem_atRelation {name : String} {fs : List (String × Fragment)} {f : Fragment} :
    f ∈ atRelation name fs ↔ (name, f) ∈ fs := by
  simp [atRelation]

@[simp] theorem atRelation_nil (name : String) : atRelation name [] = [] := rfl

theorem atRelation_cons (name : String) (f : String × Fragment) (fs : List (String × Fragment)) :
    atRelation name (f :: fs) =
      if f.1 = name then f.2 :: atRelation name fs else atRelation name fs := by
  unfold atRelation
  rw [List.filterMap_cons]
  split
  next h => split at h <;> simp_all
  next h => split at h <;> simp_all

theorem atRelation_append (name : String) (fs gs : List (String × Fragment)) :
    atRelation name (fs ++ gs) = atRelation name fs ++ atRelation name gs :=
  List.filterMap_append

/-! ## One definition -/

section
variable {lib : DefinitionReader} {relations : Dict RelationSchema} {b b' : DefinitionBuckets}

/-- The drafts of `b'` are those of `b` with some fragments put in, up to their notes. -/
def Adds (b : DefinitionBuckets) (fs : List (String × Fragment)) (b' : DefinitionBuckets) : Prop :=
  ∀ name, (b'.forRelation name).contributed =
    (atRelation name fs).foldl RelationDefinitions.add (b.forRelation name).contributed

/-- The drafts of all relations agree, up to their notes. -/
def DefinitionBuckets.SameFragments (b b' : DefinitionBuckets) : Prop :=
  ∀ name, (b'.forRelation name).contributed = (b.forRelation name).contributed

theorem DefinitionBuckets.SameFragments.note (b : DefinitionBuckets) (name : String)
    (notes : List String) : b.SameFragments (b.note name notes) := by
  intro other
  by_cases hne : other = name
  · subst hne
    rw [DefinitionBuckets.note, forRelation_modify_self]
    rfl
  · rw [DefinitionBuckets.note, forRelation_modify_ne b hne]

theorem Adds.refl (b : DefinitionBuckets) : Adds b [] b := fun _ => rfl

theorem Adds.trans {fs gs : List (String × Fragment)} {b'' : DefinitionBuckets}
    (h : Adds b fs b') (h' : Adds b' gs b'') : Adds b (fs ++ gs) b'' := fun name => by
  rw [h' name, h name, atRelation_append, List.foldl_append]

/-- One fragment is put in. -/
theorem Adds.modify {name : String} {change : RelationDefinitions → RelationDefinitions}
    {f : Fragment} (h : (change (b.forRelation name)).contributed =
      (b.forRelation name).contributed.add f) : Adds b [(name, f)] (b.modify name change) := by
  intro other
  rw [atRelation_cons]
  by_cases hne : name = other
  · subst hne
    rw [DefinitionBuckets.forRelation_modify_self, h, if_pos rfl]
    rfl
  · rw [DefinitionBuckets.forRelation_modify_ne b (Ne.symm hne), if_neg hne]
    rfl

theorem Adds.note {fs : List (String × Fragment)} (h : Adds b fs b') (name : String)
    (notes : List String) : Adds b fs (b'.note name notes) := by
  intro other
  rw [← h other]
  by_cases hne : other = name
  · subst hne
    rw [DefinitionBuckets.note, DefinitionBuckets.forRelation_modify_self]
    rfl
  · rw [DefinitionBuckets.note, DefinitionBuckets.forRelation_modify_ne b' hne]

theorem Adds.stateAliases {fs : List (String × Fragment)} (h : Adds b fs b') (measure : String)
    (aliases : List String) : Adds b fs (b'.stateAliases measure aliases) := by
  intro other
  rw [DefinitionBuckets.forRelation_stateAliases]
  exact h other

/-- A fragment that is there already makes no difference. -/
theorem Adds.of_unchanged {name : String} {f : Fragment}
    (h : (b.forRelation name).contributed.add f = (b.forRelation name).contributed) :
    Adds b [(name, f)] b := by
  intro other
  rw [atRelation_cons]
  by_cases hne : name = other
  · subst hne
    rw [if_pos rfl]
    exact h.symm
  · rw [if_neg hne]
    rfl

/-- A measure of a name that is found is not put in. -/
theorem keep_of_find? {α : Type} {name : α → String} {l : List α} {a existing : α}
    (h : (l.find? fun x => name x == name a) = some existing) : keep name l a = l := by
  refine if_pos (List.mem_map.mpr ⟨existing, List.mem_of_find?_eq_some h, ?_⟩)
  simpa using List.find?_some h

theorem keep_of_find?_none {α : Type} {name : α → String} {l : List α} {a : α}
    (h : (l.find? fun x => name x == name a) = none) : keep name l a = l ++ [a] := by
  refine if_neg fun hmem => ?_
  obtain ⟨x, hx, heq⟩ := List.mem_map.mp hmem
  simpa [heq] using List.find?_eq_none.mp h x hx

theorem fragmentsOf_measure {d : DefinitionEvidence} {r additivity : String}
    (hd : d.entityType = .measure) (hadd : d.additivity = some additivity)
    (href : d.references = [r]) : fragmentsOf lib relations d =
      [(lastComponent r, .measure (measureFragment d additivity))] := by
  simp [fragmentsOf, hd, hadd, href]

theorem fragmentsOf_dimension {d : DefinitionEvidence} {r : String} {schema : RelationSchema}
    (hd : d.entityType = .dimension) (href : d.references = [r])
    (hschema : relations.get (lastComponent r) = some schema) : fragmentsOf lib relations d =
      (dimensionFragment lib d (lastComponent r) schema).toOption.toList.map fun f =>
        (lastComponent r, .dimension f) := by
  simp [fragmentsOf, hd, href, hschema]

/-- What becomes of a measure or a dimension: it is refused and changes no more than notes, or its
one fragment is there. -/
structure SinglePlaced (lib : DefinitionReader) (relations : Dict RelationSchema)
    (b : DefinitionBuckets) (d : DefinitionEvidence) (r : Option String × DefinitionBuckets) :
    Prop where
  adds : Adds b (statedFragments lib relations d) r.2
  refused : r.1 ≠ none → b.SameFragments r.2
  placed : r.1 = none → ∃ name schema f, fragmentsOf lib relations d = [(name, f)] ∧
    relations.get name = some schema ∧ f.Listed ∧ (r.2.forRelation name).Holds f

theorem SinglePlaced.reason {d : DefinitionEvidence} {reason : String}
    (h : statedFragments lib relations d = []) :
    SinglePlaced lib relations b d (some reason, b) :=
  ⟨h ▸ .refl b, fun _ _ => rfl, fun h => by simp at h⟩

theorem placeMeasure_placed {d : DefinitionEvidence} (hd : d.entityType = .measure) :
    SinglePlaced lib relations b d (placeMeasure relations b d) := by
  unfold placeMeasure
  cases hadd : d.additivity with
  | none =>
      have hnil : fragmentsOf lib relations d = [] := by simp [fragmentsOf, hd, hadd]
      refine .reason ?_
      rw [statedFragments, hd]
      cases singleRelation relations d with
      | ok p => exact hnil
      | error reason => rfl
  | some additivity =>
      cases hsingle : singleRelation relations d with
      | error reason => exact .reason (by rw [statedFragments, hd, hsingle])
      | ok p =>
          obtain ⟨name, schema⟩ := p
          obtain ⟨r, href, rfl, hschema⟩ := singleRelation_eq_ok hsingle
          have hfragments : fragmentsOf lib relations d =
              [(lastComponent r, .measure (measureFragment d additivity))] :=
            fragmentsOf_measure hd hadd href
          have hstated : statedFragments lib relations d =
              [(lastComponent r, .measure (measureFragment d additivity))] := by
            rw [statedFragments, hd, hsingle]
            exact hfragments
          dsimp only
          -- the first measure of a name is placed, another one leaves a note
          cases hfind : (b.forRelation (lastComponent r)).measures.find? (·.name == d.entity) with
          | none =>
              have hadds : Adds b [(lastComponent r, .measure (measureFragment d additivity))]
                  (b.modify (lastComponent r) fun x =>
                    { x with measures := x.measures ++ [measureFragment d additivity] }) :=
                .modify (RelationDefinitions.contributed_add_measure
                  (keep_of_find?_none hfind)).symm
              dsimp only
              refine ⟨hstated ▸ (hadds.stateAliases _ _).note _ _, fun h => absurd rfl h, fun _ =>
                ⟨_, schema, _, hfragments, hschema, trivial, ?_⟩⟩
              rw [DefinitionBuckets.note, DefinitionBuckets.forRelation_modify_self,
                DefinitionBuckets.forRelation_stateAliases,
                DefinitionBuckets.forRelation_modify_self]
              exact List.mem_append_right _ (List.mem_singleton_self _)
          | some existing =>
              have hadds : Adds b [(lastComponent r, .measure (measureFragment d additivity))] b :=
                .of_unchanged (RelationDefinitions.contributed_add_measure (keep_of_find? hfind))
              dsimp only
              split
              next heq =>
                refine ⟨hstated ▸ hadds, fun h => absurd rfl h, fun _ =>
                  ⟨_, schema, _, hfragments, hschema, trivial, ?_⟩⟩
                exact heq ▸ List.mem_of_find?_eq_some hfind
              · exact ⟨hstated ▸ hadds.note _ _, fun _ => .note b _ _, fun h => by simp at h⟩

theorem placeDimension_placed {d : DefinitionEvidence} (hd : d.entityType = .dimension) :
    SinglePlaced lib relations b d (placeDimension lib relations b d) := by
  unfold placeDimension
  cases hsingle : singleRelation relations d with
  | error reason => exact .reason (by rw [statedFragments, hd, hsingle])
  | ok p =>
      obtain ⟨name, schema⟩ := p
      obtain ⟨r, href, rfl, hschema⟩ := singleRelation_eq_ok hsingle
      have hfragments : fragmentsOf lib relations d =
          (dimensionFragment lib d (lastComponent r) schema).toOption.toList.map fun f =>
            (lastComponent r, .dimension f) := fragmentsOf_dimension hd href hschema
      have hstated : statedFragments lib relations d = fragmentsOf lib relations d := by
        rw [statedFragments, hd, hsingle]
      dsimp only
      cases hfragment : dimensionFragment lib d (lastComponent r) schema with
      | error reason =>
          refine .reason ?_
          rw [hstated, hfragments, hfragment]
          rfl
      | ok f =>
          rw [hfragment] at hfragments
          have hone : fragmentsOf lib relations d = [(lastComponent r, .dimension f)] := hfragments
          rw [hone] at hstated
          have hname := dimensionFragment_name hfragment
          dsimp only
          -- the first dimension of a name is placed, another one leaves a note
          cases hfind :
              (b.forRelation (lastComponent r)).dimensions.find? (·.name == d.entity) with
          | none =>
              rw [← hname] at hfind
              have hadds : Adds b [(lastComponent r, .dimension f)]
                  (b.modify (lastComponent r) fun x =>
                    { x with dimensions := x.dimensions ++ [f] }) :=
                .modify (RelationDefinitions.contributed_add_dimension
                  (keep_of_find?_none hfind)).symm
              refine ⟨hstated ▸ hadds, fun h => absurd rfl h, fun _ =>
                ⟨_, schema, _, hone, hschema, trivial, ?_⟩⟩
              rw [DefinitionBuckets.forRelation_modify_self]
              exact List.mem_append_right _ (List.mem_singleton_self _)
          | some existing =>
              have hadds : Adds b [(lastComponent r, .dimension f)] b := .of_unchanged
                (RelationDefinitions.contributed_add_dimension
                  (keep_of_find? (by rw [hname]; exact hfind)))
              dsimp only
              split
              next heq =>
                refine ⟨hstated ▸ hadds, fun h => absurd rfl h, fun _ =>
                  ⟨_, schema, _, hone, hschema, trivial, ?_⟩⟩
                exact heq ▸ List.mem_of_find?_eq_some hfind
              · exact ⟨hstated ▸ hadds.note _ _, fun _ => .note b _ _, fun h => by simp at h⟩

/-- A part of a join that passes reads columns of its two relations. -/
theorem checkPart_eq_none {d : DefinitionEvidence} {p : JoinSpec × String}
    (h : checkPart lib relations d p = none) :
    ∃ e source target, lib.parse p.2 = some e ∧ relations.get p.1.left = some source ∧
      relations.get p.1.right = some target ∧ ∀ c ∈ e.columns,
        (c.table = p.1.right ∧ c.name ∈ target.columns.map (·.name)) ∨
          (c.table = p.1.left ∧ c.name ∈ source.columns.map (·.name)) := by
  unfold checkPart at h
  split at h
  · simp at h
  · simp at h
  next source target hsource htarget =>
    split at h
    · simp at h
    · rw [Option.map_eq_none_iff, checkPredicate] at h
      split at h
      · simp at h
      next parsed hparse =>
        refine ⟨parsed, source, target, hparse, hsource, htarget, fun c hc => ?_⟩
        have hcolumn := List.findSome?_eq_none_iff.mp h c hc
        unfold predicateProblem at hcolumn
        dsimp only at hcolumn
        split at hcolumn
        · simp at hcolumn
        next schema hside =>
          split at hcolumn
          next hmem =>
            split at hside
            next htable =>
              obtain rfl := Option.some.inj hside
              exact .inl ⟨htable, hmem⟩
            · split at hside
              next htable =>
                obtain rfl := Option.some.inj hside
                exact .inr ⟨htable, hmem⟩
              · simp at hside
          · simp at hcolumn

theorem addPart_adds {d : DefinitionEvidence} (p : JoinSpec × String) :
    Adds b [(p.1.left, .join (joinFragment p))] (addPart b d p) := by
  refine Adds.note (.modify ?_) _ _
  split
  next hmem => exact (RelationDefinitions.contributed_add_join (if_pos (by rwa [List.map_id]))).symm
  next hmem => exact (RelationDefinitions.contributed_add_join (if_neg (by rwa [List.map_id]))).symm

/-- The parts of a join are put in until one fails. -/
theorem placeParts_adds (d : DefinitionEvidence) (ps : List (JoinSpec × String)) :
    Adds b ((ps.takeWhile fun p => (checkPart lib relations d p).isNone).map fun p =>
        (p.1.left, .join (joinFragment p))) (placeParts lib relations d b ps).2 ∧
      ((placeParts lib relations d b ps).1 = none ↔
        ∀ p ∈ ps, checkPart lib relations d p = none) := by
  induction ps generalizing b with
  | nil => exact ⟨.refl b, by simp [placeParts]⟩
  | cons p ps ih =>
      rw [placeParts, List.takeWhile_cons]
      cases hcheck : checkPart lib relations d p with
      | some reason => exact ⟨.refl b, by simp [hcheck]⟩
      | none =>
          obtain ⟨hadds, hnone⟩ := ih (b := addPart b d p)
          exact ⟨(addPart_adds p).trans hadds, by simpa [hcheck] using hnone⟩

theorem placeGrain_adds {columns : List String} (hne : columns ≠ []) (r : String) :
    Adds b [(lastComponent r, .grain columns)] (placeGrain columns b r) := by
  refine .modify ?_
  show _ = if (b.forRelation (lastComponent r)).grain = [] then _ else _
  by_cases hgrain : (b.forRelation (lastComponent r)).grain = []
  · simp [hne, hgrain, RelationDefinitions.contributed]
  · simp [hgrain, RelationDefinitions.contributed]

theorem foldl_placeGrain_adds (columns : List String) (refs : List String) :
    Adds b (if columns = [] then [] else refs.map fun r => (lastComponent r, .grain columns))
      (refs.foldl (placeGrain columns) b) := by
  induction refs generalizing b with
  | nil =>
      split
      · exact .refl b
      · exact .refl b
  | cons r refs ih =>
      rw [List.foldl_cons]
      by_cases hnil : columns = []
      · have hsame : Adds b [] (placeGrain columns b r) := by
          intro other
          by_cases hne : other = lastComponent r
          · subst hne
            rw [placeGrain, DefinitionBuckets.forRelation_modify_self, if_neg (by simp [hnil])]
            rfl
          · rw [placeGrain, DefinitionBuckets.forRelation_modify_ne b hne]
            rfl
        have hrest := hsame.trans (ih (b := placeGrain columns b r))
        simpa [hnil] using hrest
      · have hrest := (placeGrain_adds (b := b) hnil r).trans (ih (b := placeGrain columns b r))
        simpa [hnil] using hrest

/-- **One definition puts in what it states.** -/
theorem placeDefinition_adds (d : DefinitionEvidence) :
    Adds b (statedFragments lib relations d) (placeDefinition lib relations b d).2 := by
  unfold placeDefinition
  cases hd : d.entityType with
  | measure => exact (placeMeasure_placed hd).adds
  | dimension => exact (placeDimension_placed hd).adds
  | join =>
      rw [statedFragments, hd]
      exact (placeParts_adds d d.parts).1
  | entity =>
      rw [statedFragments, hd]
      simp only [fragmentsOf, hd]
      exact foldl_placeGrain_adds d.grain d.references
  | model =>
      rw [statedFragments, hd]
      simp only [fragmentsOf, hd]
      cases stated d.description with
      | none => exact .refl b
      | some text => exact .modify rfl
  | metric =>
      rw [statedFragments, hd]
      simp only [fragmentsOf, hd]
      exact .refl b

/-! ### What a definition states, kind by kind -/

theorem statedFragments_join {d : DefinitionEvidence} (hd : d.entityType = .join) :
    statedFragments lib relations d =
      (passingParts lib relations d).map fun part =>
        (part.1.left, .join (joinFragment part)) := by
  rw [statedFragments, hd]

theorem fragmentsOf_kind {d : DefinitionEvidence} {name : String} {f : Fragment}
    (h : (name, f) ∈ fragmentsOf lib relations d) : d.entityType = f.kind := by
  cases hd : d.entityType with
  | measure =>
      simp only [fragmentsOf, hd, List.mem_flatMap, List.mem_map] at h
      obtain ⟨_, -, _, -, heq⟩ := h
      rw [← (Prod.mk.inj heq).2, Fragment.kind]
  | dimension =>
      simp only [fragmentsOf, hd, List.mem_flatMap, List.mem_map] at h
      obtain ⟨_, -, _, -, _, -, heq⟩ := h
      rw [← (Prod.mk.inj heq).2, Fragment.kind]
  | join =>
      simp only [fragmentsOf, hd, List.mem_map] at h
      obtain ⟨_, -, heq⟩ := h
      rw [← (Prod.mk.inj heq).2, Fragment.kind]
  | entity =>
      simp only [fragmentsOf, hd] at h
      split at h
      · simp at h
      · obtain ⟨_, -, heq⟩ := List.mem_map.mp h
        rw [← (Prod.mk.inj heq).2, Fragment.kind]
  | model =>
      simp only [fragmentsOf, hd, List.mem_map] at h
      obtain ⟨_, -, heq⟩ := h
      rw [← (Prod.mk.inj heq).2, Fragment.kind]
  | metric => simp [fragmentsOf, hd] at h

/-- What is put in is of the kind of the definition. -/
theorem stated_kind {d : DefinitionEvidence} {name : String} {f : Fragment}
    (h : (name, f) ∈ statedFragments lib relations d) : d.entityType = f.kind := by
  unfold statedFragments at h
  split at h
  · split at h
    · exact fragmentsOf_kind h
    · simp at h
  · split at h
    · exact fragmentsOf_kind h
    · simp at h
  next hd =>
    obtain ⟨_, -, heq⟩ := List.mem_map.mp h
    rw [← (Prod.mk.inj heq).2, hd, Fragment.kind]
  · exact fragmentsOf_kind h
  · exact fragmentsOf_kind h
  · exact fragmentsOf_kind h

theorem stated_grain {d : DefinitionEvidence} {name : String} {columns : List String}
    (h : (name, .grain columns) ∈ statedFragments lib relations d) :
    columns ≠ [] ∧ (name, .grain columns) ∈ fragmentsOf lib relations d := by
  have hd : d.entityType = .entity := stated_kind h
  rw [statedFragments, hd] at h
  refine ⟨?_, h⟩
  simp only [fragmentsOf, hd] at h
  split at h
  · simp at h
  next hne =>
    obtain ⟨_, -, heq⟩ := List.mem_map.mp h
    exact Fragment.grain.inj (Prod.mk.inj heq).2 ▸ hne

theorem stated_description {d : DefinitionEvidence} {name text : String}
    (h : (name, .description text) ∈ statedFragments lib relations d) :
    (name, .description text) ∈ fragmentsOf lib relations d := by
  have hd : d.entityType = .model := stated_kind h
  rwa [statedFragments, hd] at h

/-- A dimension that is put in was checked against the relation of the short name. -/
theorem stated_dimension {d : DefinitionEvidence} {name : String} {f : DimensionDraft}
    (h : (name, .dimension f) ∈ statedFragments lib relations d) :
    ∃ schema, relations.get name = some schema ∧ f.ReadsOnly lib schema := by
  have hd : d.entityType = .dimension := stated_kind h
  rw [statedFragments, hd] at h
  cases hsingle : singleRelation relations d with
  | error reason => simp [hsingle] at h
  | ok q =>
      obtain ⟨r, href, hname, hschema⟩ := singleRelation_eq_ok hsingle
      rw [hname] at hschema
      rw [hsingle] at h
      have h' : (name, Fragment.dimension f) ∈ fragmentsOf lib relations d := h
      rw [fragmentsOf_dimension hd href hschema] at h'
      obtain ⟨x, hx, heq⟩ := List.mem_map.mp h'
      obtain ⟨rfl, hfx⟩ := Prod.mk.inj heq
      rw [← Fragment.dimension.inj hfx]
      have hok : dimensionFragment lib d (lastComponent r) q.2 = .ok x := by
        cases hok : dimensionFragment lib d (lastComponent r) q.2 with
        | error reason => simp [hok, Except.toOption] at hx
        | ok y => simpa [hok, Except.toOption, eq_comm] using hx
      exact ⟨q.2, hschema, dimensionFragment_readsOnly hok⟩

/-- A join that is put in was checked against the two relations of the short names. -/
theorem stated_join {d : DefinitionEvidence} {name : String} {j : JoinFragment}
    (h : (name, .join j) ∈ statedFragments lib relations d) :
    ∃ e source target, lib.parse j.on = some e ∧ relations.get name = some source ∧
      relations.get j.to_ = some target ∧ ∀ c ∈ e.columns,
        (c.table = j.to_ ∧ c.name ∈ target.columns.map (·.name)) ∨
          (c.table = name ∧ c.name ∈ source.columns.map (·.name)) := by
  have hd : d.entityType = .join := stated_kind h
  rw [statedFragments_join hd] at h
  obtain ⟨part, hpart, heq⟩ := List.mem_map.mp h
  obtain ⟨rfl, hj⟩ := Prod.mk.inj heq
  rw [← Fragment.join.inj hj]
  exact checkPart_eq_none (by simpa using List.mem_takeWhile_imp hpart)

end

/-! ## A run -/

/-- The fragments that the definitions of a run state for one relation. -/
def statedFor (lib : DefinitionReader) (relations : Dict RelationSchema)
    (ps : List PendingDefinition) (name : String) : List Fragment :=
  atRelation name <| (ps.filter fun p => !p.definition.isCandidate).flatMap fun p =>
    statedFragments lib relations p.definition

section
variable {lib : DefinitionReader} {relations : Dict RelationSchema}
  {invalid : List (String × String)} {ps : List PendingDefinition} {name : String}

theorem statedFor_append (ps qs : List PendingDefinition) :
    statedFor lib relations (ps ++ qs) name =
      statedFor lib relations ps name ++ statedFor lib relations qs name := by
  rw [statedFor, List.filter_append, List.flatMap_append, atRelation_append]
  rfl

theorem mem_statedFor {f : Fragment} : f ∈ statedFor lib relations ps name ↔
    ∃ p ∈ ps, p.definition.isCandidate = false ∧
      (name, f) ∈ statedFragments lib relations p.definition := by
  simp [statedFor, mem_atRelation, and_assoc]

theorem resolveStep_adds (r : Resolution) (p : PendingDefinition) (name : String) :
    ((resolveStep lib relations r p).buckets.forRelation name).contributed =
      (statedFor lib relations [p] name).foldl RelationDefinitions.add
        (r.buckets.forRelation name).contributed := by
  unfold resolveStep statedFor
  cases hcandidate : p.definition.isCandidate with
  | true => simp [hcandidate]
  | false =>
      simp only [hcandidate, Bool.false_eq_true, if_false, Bool.not_false, List.filter_cons_of_pos,
        List.filter_nil, List.flatMap_cons, List.flatMap_nil, List.append_nil]
      exact placeDefinition_adds p.definition name

theorem foldl_resolveStep_adds (ps : List PendingDefinition) (r : Resolution) (name : String) :
    ((ps.foldl (resolveStep lib relations) r).buckets.forRelation name).contributed =
      (statedFor lib relations ps name).foldl RelationDefinitions.add
        (r.buckets.forRelation name).contributed := by
  induction ps generalizing r with
  | nil => rfl
  | cons p ps ih =>
      rw [List.foldl_cons, ih, resolveStep_adds, ← List.foldl_append, ← statedFor_append]
      rfl

/-- **The draft of a relation** is what the definitions of the run state for it, put in one by
one. -/
theorem resolveDefinitions_contributed (invalid : List (String × String))
    (ps : List PendingDefinition) (name : String) :
    ((resolveDefinitions lib relations invalid ps).buckets.forRelation name).contributed =
      (statedFor lib relations ps name).foldl RelationDefinitions.add {} :=
  foldl_resolveStep_adds ps _ name

theorem mem_measures_resolveDefinitions (invalid : List (String × String)) {m : MeasureDraft} :
    m ∈ ((resolveDefinitions lib relations invalid ps).buckets.forRelation name).measures ↔
      ∃ pre post, (statedFor lib relations ps name).filterMap (·.measure?) = pre ++ m :: post ∧
        ∀ other ∈ pre, other.name ≠ m.name := by
  rw [← mem_foldl_keep, ← RelationDefinitions.measures_foldl_add (r := {}),
    ← resolveDefinitions_contributed invalid]
  rfl

theorem mem_dimensions_resolveDefinitions (invalid : List (String × String)) {f : DimensionDraft} :
    f ∈ ((resolveDefinitions lib relations invalid ps).buckets.forRelation name).dimensions ↔
      ∃ pre post, (statedFor lib relations ps name).filterMap (·.dimension?) = pre ++ f :: post ∧
        ∀ other ∈ pre, other.name ≠ f.name := by
  rw [← mem_foldl_keep, ← RelationDefinitions.dimensions_foldl_add (r := {}),
    ← resolveDefinitions_contributed invalid]
  rfl

theorem mem_joins_resolveDefinitions (invalid : List (String × String)) {j : JoinFragment} :
    j ∈ ((resolveDefinitions lib relations invalid ps).buckets.forRelation name).joins ↔
      .join j ∈ statedFor lib relations ps name := by
  have hmem : j ∈ (statedFor lib relations ps name).filterMap (·.join?) ↔
      .join j ∈ statedFor lib relations ps name := by
    rw [List.mem_filterMap]
    constructor
    · rintro ⟨f, hf, hj⟩
      cases f with
      | join j' => exact Option.some.inj hj ▸ hf
      | measure | dimension | grain | description => simp [Fragment.join?] at hj
    · exact fun h => ⟨_, h, rfl⟩
  rw [← hmem, ← mem_foldl_keep_id (l := (statedFor lib relations ps name).filterMap (·.join?)),
    ← RelationDefinitions.joins_foldl_add (r := {}),
    ← resolveDefinitions_contributed invalid]
  rfl

/-- A placed dimension was checked against the relation of the short name. -/
theorem checked_dimension {f : DimensionDraft} (h : f ∈ ((resolveDefinitions lib relations invalid
      ps).buckets.forRelation name).dimensions) :
    ∃ schema, relations.get name = some schema ∧ f.ReadsOnly lib schema := by
  obtain ⟨pre, post, hsplit, -⟩ := (mem_dimensions_resolveDefinitions invalid).mp h
  have hmem : f ∈ (statedFor lib relations ps name).filterMap (·.dimension?) := by simp [hsplit]
  obtain ⟨g, hg, hgf⟩ := List.mem_filterMap.mp hmem
  obtain rfl : g = .dimension f := by
    cases g with
    | dimension f' => rw [Option.some.inj hgf]
    | measure | join | grain | description => simp [Fragment.dimension?] at hgf
  obtain ⟨p, -, -, hstated⟩ := mem_statedFor.mp hg
  exact stated_dimension hstated

/-- A placed join was checked against the two relations of the short names. -/
theorem checked_join {j : JoinFragment} (h : j ∈ ((resolveDefinitions lib relations invalid
      ps).buckets.forRelation name).joins) :
    ∃ e source target, lib.parse j.on = some e ∧ relations.get name = some source ∧
      relations.get j.to_ = some target ∧ ∀ c ∈ e.columns,
        (c.table = j.to_ ∧ c.name ∈ target.columns.map (·.name)) ∨
          (c.table = name ∧ c.name ∈ source.columns.map (·.name)) := by
  obtain ⟨p, -, -, hstated⟩ := mem_statedFor.mp ((mem_joins_resolveDefinitions invalid).mp h)
  exact stated_join hstated

theorem grain_resolveDefinitions (invalid : List (String × String)) {columns : List String}
    (hne : columns ≠ [])
    (hmem : .grain columns ∈ statedFor lib relations ps name)
    (hall : ∀ other, .grain other ∈ statedFor lib relations ps name → other = columns) :
    ((resolveDefinitions lib relations invalid ps).buckets.forRelation name).grain = columns := by
  have h := RelationDefinitions.grain_foldl_add (r := {}) hne hall (.inr ⟨rfl, hmem⟩)
  rw [← resolveDefinitions_contributed invalid] at h
  exact h

theorem stated_of_grain
    (h : ((resolveDefinitions lib relations invalid ps).buckets.forRelation name).grain ≠ []) :
    .grain ((resolveDefinitions lib relations invalid ps).buckets.forRelation name).grain ∈
      statedFor lib relations ps name := by
  have hcases :=
    RelationDefinitions.grain_of_foldl_add (r := {}) (statedFor lib relations ps name)
  rw [← resolveDefinitions_contributed invalid] at hcases
  exact hcases.resolve_left h

theorem description_resolveDefinitions (invalid : List (String × String)) {text : String}
    (hmem : .description text ∈ statedFor lib relations ps name)
    (hall : ∀ other, .description other ∈ statedFor lib relations ps name → other = text) :
    ((resolveDefinitions lib relations invalid ps).buckets.forRelation name).description =
      some text := by
  have h := RelationDefinitions.description_foldl_add (r := {}) hall (.inr hmem)
  rw [← resolveDefinitions_contributed invalid] at h
  exact h

end

end Canonic
