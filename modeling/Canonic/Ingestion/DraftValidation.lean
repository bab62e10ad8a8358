import Canonic.Ingestion.PlacedFragments
import Canonic.Ingestion.Placement

set_option autoImplicit false

/-! # Drafts and the validation gate

A relation is drafted by `ingestion/builder.py` from its schema and the definitions placed on it,
and a draft is written only if `SemanticSource` accepts it. Without a drafter of guesses the draft
is a function of these two, and so is its acceptance. -/

namespace Canonic

/-! ## Aliases -/

/-- Names of which the shared ones are replaced are distinct when the replacements are, and none of
them is a name that is kept. -/
theorem nodup_replace_shared_iff {α : Type} (links : List α) (target stem : α → String) :
    (links.map fun a => if 1 < (links.map target).count (target a) then stem a
      else target a).Nodup ↔
      ((links.filter fun a => 1 < (links.map target).count (target a)).map stem).Nodup ∧
        ∀ a ∈ links, ∀ b ∈ links, 1 < (links.map target).count (target a) →
          ¬1 < (links.map target).count (target b) → stem a ≠ target b := by
  set shared : α → Bool := fun a => 1 < (links.map target).count (target a) with hshared
  have hperm := (List.filter_append_perm shared links).map fun a =>
    if 1 < (links.map target).count (target a) then stem a else target a
  have hleft : ((links.filter shared).map fun a =>
      if 1 < (links.map target).count (target a) then stem a else target a) =
        (links.filter shared).map stem :=
    List.map_congr_left fun a ha => if_pos (by simpa [hshared] using (List.mem_filter.mp ha).2)
  have hright : ((links.filter fun a => !shared a).map fun a =>
      if 1 < (links.map target).count (target a) then stem a else target a) =
        (links.filter fun a => !shared a).map target :=
    List.map_congr_left fun a ha =>
      if_neg (by simpa [hshared] using (List.mem_filter.mp ha).2)
  -- a name that is kept occurs once
  have hkept : ((links.filter fun a => !shared a).map target).Nodup := by
    rw [List.nodup_iff_count_le_one]
    intro t
    by_cases ht : t ∈ (links.filter fun a => !shared a).map target
    · obtain ⟨a, ha, rfl⟩ := List.mem_map.mp ht
      have hone : (links.map target).count (target a) ≤ 1 := by
        simpa [hshared] using (List.mem_filter.mp ha).2
      exact (List.Sublist.count_le _ (List.filter_sublist.map target)).trans hone
    · rw [List.count_eq_zero_of_not_mem ht]
      exact Nat.zero_le 1
  rw [← hperm.nodup_iff, List.map_append, hleft, hright, List.nodup_append]
  constructor
  · rintro ⟨hstems, -, hdisjoint⟩
    refine ⟨hstems, fun a ha b hb hsa hsb => ?_⟩
    exact hdisjoint _ (List.mem_map_of_mem (List.mem_filter.mpr ⟨ha, by simpa [hshared] using hsa⟩))
      _ (List.mem_map_of_mem (List.mem_filter.mpr ⟨hb, by simpa [hshared] using hsb⟩))
  · rintro ⟨hstems, hapart⟩
    refine ⟨hstems, hkept, fun x hx y hy => ?_⟩
    obtain ⟨a, ha, rfl⟩ := List.mem_map.mp hx
    obtain ⟨b, hb, rfl⟩ := List.mem_map.mp hy
    obtain ⟨ha, hsa⟩ := List.mem_filter.mp ha
    obtain ⟨hb, hsb⟩ := List.mem_filter.mp hb
    exact hapart a ha b hb (by simpa [hshared] using hsa) (by simpa [hshared] using hsb)

/-- A join before it has a name: the relation it leads to, and the column it starts from. -/
structure Link where
  target : String
  column : String
  deriving DecidableEq, Repr

/-- The column without its suffix, where something is left of it. -/
def Link.stem (l : Link) : String :=
  if sansKeySuffix l.column = "" then l.target else sansKeySuffix l.column

/-- The foreign keys that no placed join replaces, and the placed joins. -/
def linksOf (isWordChar : Char → Bool) (name : String) (foreignKeys : List ForeignKey)
    (modeled : List JoinFragment) : List Link :=
  let fks := foreignKeys.filter fun fk =>
    (lastComponent fk.references.relation, fkOn name fk) ∉ modeled.map fun j => (j.to_, j.on)
  (fks.map fun fk => ⟨lastComponent fk.references.relation,
      fk.columns.head?.getD (lastComponent fk.references.relation)⟩) ++
    modeled.map fun j => ⟨j.to_, (localColumn isWordChar name j.on).getD j.to_⟩

/-- The stems of joins to a relation that several lead to are distinct, and none is a relation that
a single join leads to. -/
structure StemsApart (links : List Link) : Prop where
  nodup : ((links.filter fun l => 1 < (links.map Link.target).count l.target).map Link.stem).Nodup
  ne_target : ∀ l ∈ links, ∀ l' ∈ links, 1 < (links.map Link.target).count l.target →
    ¬1 < (links.map Link.target).count l'.target → l.stem ≠ l'.target

/-- `Join.alias` of a fragment. -/
def JoinFragment.alias_ (j : JoinFragment) : String := (stated j.name).getD j.to_

theorem alias_of_name {j : JoinFragment} {l : Link} (hto : j.to_ = l.target) {shared : Prop}
    [Decidable shared]
    (hname : j.name = if shared then some (sansKeySuffix l.column) else none) :
    j.alias_ = if shared then l.stem else l.target := by
  rw [JoinFragment.alias_, hname, hto, Link.stem]
  by_cases h : shared
  · by_cases hempty : sansKeySuffix l.column = "" <;> simp [h, stated, Option.filter, hempty]
  · simp [h, stated]

theorem alias_buildJoins {isWordChar : Char → Bool} {name : String} {foreignKeys : List ForeignKey}
    {modeled : List JoinFragment} (hmodeled : ∀ j ∈ modeled, j.name = none) :
    (buildJoins isWordChar name foreignKeys [] modeled).map JoinFragment.alias_ =
      (linksOf isWordChar name foreignKeys modeled).map fun l =>
        if 1 < ((linksOf isWordChar name foreignKeys modeled).map Link.target).count l.target then
          l.stem else l.target := by
  have htargets : (linksOf isWordChar name foreignKeys modeled).map Link.target =
      (foreignKeys.filter fun fk => (lastComponent fk.references.relation, fkOn name fk) ∉
        modeled.map fun j => (j.to_, j.on)).map (fun fk => lastComponent fk.references.relation) ++
          [] ++ modeled.map (·.to_) := by
    simp [linksOf, Function.comp_def]
  rw [htargets]
  simp only [buildJoins, linksOf, List.map_append, List.map_map, List.map_nil, List.append_nil]
  congr 1
  · refine List.map_congr_left fun fk _ => ?_
    exact alias_of_name rfl (by simp [fkToJoin])
  · refine List.map_congr_left fun j hj => ?_
    have hto (needsAlias : Bool) : (modeledToJoin isWordChar name j needsAlias).to_ = j.to_ := by
      cases needsAlias <;> rfl
    have hname (needsAlias : Bool) : (modeledToJoin isWordChar name j needsAlias).name =
        if needsAlias then
          some (sansKeySuffix ((localColumn isWordChar name j.on).getD j.to_)) else none := by
      cases needsAlias
      · exact hmodeled j hj
      · rfl
    refine alias_of_name (hto _) ((hname _).trans ?_)
    simp

/-! ## The content of a draft -/

/-- A run without guesses: the null drafter, and a SQL reader that finds no column in `count(*)`,
types expressions by normalized types, and lists the columns of what it parses. -/
structure Deterministic (lib : BuilderLib) (reader : DefinitionReader) : Prop where
  drafter : lib.drafter = nullLLMDrafter
  columnsOf : ∀ text e, reader.parse text = some e → ∃ columns, lib.columnsOf text = .ok columns
  countStar : ReadsColumns reader.parse [] "count(*)"
  expressionType : ∀ text columns t, reader.expressionType text columns = some t →
    (NormalizedType.ofValue? t).isSome

/-- The grain, measures and dimensions drafted without guesses. -/
def draftedGrain (schema : RelationSchema) (ds : RelationDefinitions) : List String :=
  if schema.primaryKey = [] then ds.grain else schema.primaryKey

def draftedMeasures (schema : RelationSchema) (ds : RelationDefinitions) : List MeasureDraft :=
  if ds.measures.isEmpty then inferMeasures schema.columns else ds.measures

/-- The columns of dimensions, as they are compared. -/
local instance instLawfulBEqDraftColumn : LawfulBEq (Option String) := inferInstance

def draftedDimensions (schema : RelationSchema) (ds : RelationDefinitions) :
    List DimensionDraft :=
  ((inferDimensions schema.columns).filter fun d =>
    d.name ∉ ds.dimensions.map (·.name) ∧ ∀ c ∈ d.column, some c ∉ ds.dimensions.map (·.column)) ++
      ds.dimensions

/-- The fields of a draft, with its notes. -/
def draftedContent (isWordChar : Char → Bool) (schema : RelationSchema) (ds : RelationDefinitions)
    (notes : Content) : Content :=
  [("name", .str schema.name), ("connection", .str schema.connection),
    ("table", .str schema.relation), ("grain", .texts (draftedGrain schema ds)),
    ("columns", .arr (schema.columns.map (·.dump))),
    ("measures", .arr ((draftedMeasures schema ds).map (·.dump))),
    ("dimensions", .arr ((draftedDimensions schema ds).map (·.dump))),
    ("joins", .arr ((buildJoins isWordChar schema.name schema.foreignKeys [] ds.joins).map
      (·.dump))), ("meta", .obj notes)] ++ optionalField "description" (stated ds.description)

theorem grainOf_null (schema : RelationSchema) (ds : RelationDefinitions) :
    ∃ notes draftedBy confidence, grainOf nullLLMDrafter schema ds =
        .ok (draftedGrain schema ds, notes, draftedBy, confidence) ∧
      (∀ f ∈ notes, f.1 = "grain_draft" ∨ f.1 = "grain_reasoning") ∧
      (confidence = 1 ∨ confidence = 3 / 10) := by
  unfold grainOf draftedGrain
  by_cases hkey : schema.primaryKey = []
  · by_cases hgrain : ds.grain = []
    · refine ⟨[("grain_draft", .bool true)], .llm, 3 / 10, ?_, by simp, .inr rfl⟩
      simp [hkey, hgrain, nullLLMDrafter, stated, optionalField, Option.filter]
    · exact ⟨[], .deterministic, 1, by simp [hkey, hgrain], by simp, .inl rfl⟩
  · exact ⟨[], .deterministic, 1, by simp [hkey], by simp, .inl rfl⟩

theorem enrichDimensions_null (schema : RelationSchema) (dimensions : List DimensionDraft) :
    enrichDimensions nullLLMDrafter schema dimensions = .ok dimensions := by
  unfold enrichDimensions
  split
  next h => rw [List.isEmpty_iff.mp h]; rfl
  · have hsame : dimensions.map (enrichDimension []) = dimensions := List.map_id' dimensions
    simp [nullLLMDrafter, hsame]

theorem draftSchemaJoins_null (schema : RelationSchema) (candidates : List String)
    (others : Dict RelationSchema) :
    draftSchemaJoins nullLLMDrafter schema candidates others = .ok [] := by
  unfold draftSchemaJoins
  split
  · rfl
  · simp [nullLLMDrafter]

theorem exists_joinColumns (lib : BuilderLib) {joins : List JoinFragment}
    (h : ∀ j ∈ joins, ∃ columns, lib.columnsOf j.on = .ok columns) :
    ∃ covered, joinColumns lib joins = .ok covered := by
  unfold joinColumns
  obtain ⟨r, hr⟩ := exists_mapM_eq_ok (l := joins)
    (f := fun j => do return ((← lib.columnsOf j.on).filter fun c => c.1 ≠ j.to_).map (·.2))
    fun j hj => by
      obtain ⟨columns, hcolumns⟩ := h j hj
      exact ⟨_, by rw [hcolumns]; rfl⟩
  exact ⟨r.flatten, by rw [hr]; rfl⟩

/-- The fingerprints are read from the notes of a draft. -/
theorem readMeta_notes {source definition : Option String} {notes : Content}
    (hnotes : ∀ f ∈ notes, f.1 ≠ "definition_fingerprint") :
    (readMeta (.obj (("source_fingerprint", .text? source) ::
      (optionalField "definition_fingerprint" definition ++ notes)))).isSome := by
  have htext (value : Option String) :
      Json.orNull Json.asText (.text? value) = some value := by cases value <;> rfl
  have hnone : Dict.get notes "definition_fingerprint" = none := by
    cases hget : Dict.get notes "definition_fingerprint" with
    | none => rfl
    | some v => exact absurd rfl (hnotes _ (Dict.get_eq_some_mem hget))
  have hdefinition : readField? Json.asText (("source_fingerprint", .text? source) ::
      (optionalField "definition_fingerprint" definition ++ notes)) "definition_fingerprint" =
        some definition := by
    rw [readField?, readFieldD, Dict.get_cons, if_neg (by simp), Dict.get_append,
      get_optionalField, if_pos rfl, hnone]
    cases definition <;> rfl
  have hsource : readField? Json.asText (("source_fingerprint", .text? source) ::
      (optionalField "definition_fingerprint" definition ++ notes)) "source_fingerprint" =
        some source := by
    rw [readField?, readFieldD, Dict.get_cons, if_pos rfl]
    exact htext source
  simp [readMeta, hsource, hdefinition]

/-- **Without guesses a relation is always drafted**, with these fields. -/
theorem exists_buildRelationSchema {lib : BuilderLib} {reader : DefinitionReader}
    (hdet : Deterministic lib reader) (relations : Dict RelationSchema) (schema : RelationSchema)
    (ds : RelationDefinitions) (hjoins : ∀ j ∈ ds.joins, ∃ e, reader.parse j.on = some e) :
    ∃ p notes, buildRelationSchema lib relations schema ds = .ok p ∧
      p.content = draftedContent lib.isWordChar schema ds notes ∧
      (readMeta (.obj notes)).isSome := by
  obtain ⟨grainNotes, draftedBy, confidence, hgrain, hnotes, hconfidence⟩ := grainOf_null schema ds
  obtain ⟨covered, hcovered⟩ := exists_joinColumns lib fun j hj => by
    obtain ⟨e, he⟩ := hjoins j hj
    exact hdet.columnsOf j.on e he
  obtain ⟨c, hc⟩ : ∃ c, Confidence.check
      (draftConfidence confidence [] (!ds.reviewNotes.isEmpty)) = .ok c := by
    have hrange : 0 ≤ draftConfidence confidence [] (!ds.reviewNotes.isEmpty) ∧
        draftConfidence confidence [] (!ds.reviewNotes.isEmpty) ≤ 1 := by
      rcases hconfidence with rfl | rfl <;> cases ds.reviewNotes.isEmpty <;>
        norm_num [draftConfidence]
    exact ⟨_, dif_pos hrange⟩
  unfold buildRelationSchema
  simp only [hdet.drafter, hgrain, ok_bind, enrichDimensions_null, hcovered,
    draftSchemaJoins_null, hc]
  refine ⟨_, _, rfl, rfl, ?_⟩
  simp only [List.append_assoc]
  refine readMeta_notes fun f hf => ?_
  simp only [joinNotes, List.isEmpty_nil, if_true, List.nil_append, List.mem_append] at hf
  rcases hf with hf | hf
  · rcases hnotes f hf with h | h <;> simp [h]
  · split at hf
    · simp at hf
    · simp [List.mem_singleton.mp hf]

/-! ## Reading a draft -/

section
variable {isWordChar : Char → Bool} {schema : RelationSchema} {ds : RelationDefinitions}
  {notes : Content}

/-- What a draft is read as. -/
theorem readSource_draftedContent (hnotes : (readMeta (.obj notes)).isSome) {s : SourceFields} :
    readSource (draftedContent isWordChar schema ds notes) = some s ↔
      ∃ columns measures dimensions joins,
        List.Forall₂ (fun c k => readColumn c.dump = some k) schema.columns columns ∧
        List.Forall₂ (fun m k => readMeasure m.dump = some k) (draftedMeasures schema ds) measures ∧
        List.Forall₂ (fun d k => readDimension d.dump = some k) (draftedDimensions schema ds)
          dimensions ∧
        List.Forall₂ (fun j k => readJoin j.dump = some k)
          (buildJoins isWordChar schema.name schema.foreignKeys [] ds.joins) joins ∧
        s = ⟨schema.name, schema.connection, schema.relation, draftedGrain schema ds, columns,
          measures, dimensions, joins⟩ := by
  -- each field is read under its own key, and there is no other key
  have hkeys : ∀ f ∈ draftedContent isWordChar schema ds notes, f.1 ∈ ["name", "connection",
      "table", "grain", "columns", "measures", "dimensions", "joins", "filters", "segments",
      "finality", "meta", "description"] := by
    intro f hf
    rcases List.mem_append.mp hf with hf | hf
    · have hmem := List.mem_map_of_mem (f := (·.1)) hf
      simp only [List.map_cons, List.map_nil] at hmem
      revert hmem
      generalize f.1 = key
      revert key
      decide
    · simp [mem_optionalField hf]
  obtain ⟨m, hm⟩ := Option.isSome_iff_exists.mp hnotes
  have habsent (key : String) (h : key = "filters" ∨ key = "segments" ∨ key = "finality") :
      Dict.get (draftedContent isWordChar schema ds notes) key = none := by
    rcases h with rfl | rfl | rfl <;>
      simp [draftedContent, Dict.get_cons, get_optionalField]
  have hname : Dict.get (draftedContent isWordChar schema ds notes) "name" =
      some (.str schema.name) := by simp [draftedContent, Dict.get_cons]
  have hconnection : Dict.get (draftedContent isWordChar schema ds notes) "connection" =
      some (.str schema.connection) := by simp [draftedContent, Dict.get_cons]
  have htable : Dict.get (draftedContent isWordChar schema ds notes) "table" =
      some (.str schema.relation) := by simp [draftedContent, Dict.get_cons]
  have hgrain : Dict.get (draftedContent isWordChar schema ds notes) "grain" =
      some (.texts (draftedGrain schema ds)) := by simp [draftedContent, Dict.get_cons]
  have hdescription : readField? Json.asText (draftedContent isWordChar schema ds notes)
      "description" = some (stated ds.description) := by
    simp only [readField?, readFieldD, draftedContent, Dict.get_append, Dict.get_cons, get_nil,
      get_optionalField]
    cases stated ds.description <;> rfl
  have hfilters := habsent "filters" (.inl rfl)
  have hsegments := habsent "segments" (.inr (.inl rfl))
  have hfinality := habsent "finality" (.inr (.inr rfl))
  have hcolumns : Dict.get (draftedContent isWordChar schema ds notes) "columns" =
      some (.arr (schema.columns.map (·.dump))) := by simp [draftedContent, Dict.get_cons]
  have hmeasures : Dict.get (draftedContent isWordChar schema ds notes) "measures" =
      some (.arr ((draftedMeasures schema ds).map (·.dump))) := by
    simp [draftedContent, Dict.get_cons]
  have hdimensions : Dict.get (draftedContent isWordChar schema ds notes) "dimensions" =
      some (.arr ((draftedDimensions schema ds).map (·.dump))) := by
    simp [draftedContent, Dict.get_cons]
  have hjoins : Dict.get (draftedContent isWordChar schema ds notes) "joins" =
      some (.arr ((buildJoins isWordChar schema.name schema.foreignKeys [] ds.joins).map
        (·.dump))) := by simp [draftedContent, Dict.get_cons]
  have hmeta : Dict.get (draftedContent isWordChar schema ds notes) "meta" = some (.obj notes) := by
    simp [draftedContent, Dict.get_cons]
  simp only [readSource, Json.record, if_pos hkeys, Option.bind_eq_bind, Option.bind_some, hname,
    hconnection, htable, hgrain, hdescription, readFieldD, hfilters, hsegments, hfinality, hmeta,
    Option.elim_some, Option.elim_none, hm, readField, hcolumns, hmeasures, hdimensions, hjoins,
    Json.asText, asTexts_texts, Option.bind_eq_some_iff, asList_map_eq_some, Option.pure_def,
    Option.some.injEq]
  constructor
  · rintro ⟨columns, hc, measures, hms, dimensions, hd, joins, hj, rfl⟩
    exact ⟨columns, measures, dimensions, joins, hc, hms, hd, hj, rfl⟩
  · rintro ⟨columns, measures, dimensions, joins, hc, hms, hd, hj, rfl⟩
    exact ⟨columns, hc, measures, hms, dimensions, hd, joins, hj, rfl⟩

/-! ## What is inferred -/

theorem nodup_inferMeasures {columns : List ColumnInfo} (h : (columns.map (·.name)).Nodup) :
    ((inferMeasures columns).map (·.name)).Nodup := by
  rw [inferMeasures, List.map_cons, List.map_map, List.nodup_cons]
  constructor
  · intro hmem
    obtain ⟨c, -, hc⟩ := List.mem_map.mp hmem
    have hlists := congrArg String.toList hc
    simp [String.toList_append] at hlists
  · have htotals : ((columns.filter fun c => decide (c.type ∈ ["int", "float", "decimal"] ∧
        !isSurrogateKey c.name)).map (·.name)).Nodup :=
      h.sublist (List.filter_sublist.map _)
    have hinjective : Function.Injective fun name : String => "total_" ++ name := by
      intro a b hab
      have hlists := congrArg String.toList hab
      simpa [String.toList_append, String.toList_inj] using hlists
    have hmap := htotals.map hinjective
    rwa [List.map_map] at hmap

/-- An inferred dimension is one of the columns. -/
theorem mem_inferDimensions {columns : List ColumnInfo} {f : DimensionDraft}
    (h : f ∈ inferDimensions columns) :
    f.column = some f.name ∧ f.rest = [] ∧ f.name ∈ columns.map (·.name) := by
  obtain ⟨c, hc, rfl⟩ := List.mem_map.mp h
  exact ⟨rfl, rfl, List.mem_map_of_mem (List.mem_filter.mp hc).1⟩

theorem nodup_draftedDimensions (hnames : (schema.columns.map (·.name)).Nodup)
    (hds : ds.WellPlaced) : ((draftedDimensions schema ds).map (·.name)).Nodup := by
  rw [draftedDimensions, List.map_append, List.nodup_append]
  refine ⟨?_, hds.dimensions_nodup, fun x hx y hy hxy => ?_⟩
  · have hinferred : ((inferDimensions schema.columns).map (·.name)).Nodup := by
      rw [inferDimensions, List.map_map]
      exact hnames.sublist (List.filter_sublist.map _)
    exact hinferred.sublist (List.filter_sublist.map _)
  · obtain ⟨f, hf, rfl⟩ := List.mem_map.mp hx
    have hnot := of_decide_eq_true (List.mem_filter.mp hf).2
    exact hnot.1 (hxy ▸ hy)

theorem draftedDimensions_shaped (hds : ds.WellPlaced) :
    ∀ f ∈ draftedDimensions schema ds, f.Shaped := by
  intro f hf
  rcases List.mem_append.mp hf with hf | hf
  · obtain ⟨hcolumn, hrest, -⟩ := mem_inferDimensions (List.mem_filter.mp hf).1
    exact .column { entity := "", entityType := .dimension, nativeRef := "" } f.name hcolumn hrest
  · exact hds.dimensions_shaped f hf

/-- Inferred dimensions read declared columns, so a draft's dimensions do when the placed ones
do. -/
theorem draftedDimensions_readsOnly_iff {reader : DefinitionReader} :
    (∀ f ∈ draftedDimensions schema ds, f.ReadsOnly reader schema) ↔
      ∀ f ∈ ds.dimensions, f.ReadsOnly reader schema := by
  constructor
  · exact fun h f hf => h f (List.mem_append_right _ hf)
  · intro h f hf
    rcases List.mem_append.mp hf with hf | hf
    · obtain ⟨hcolumn, hrest, hname⟩ := mem_inferDimensions (List.mem_filter.mp hf).1
      refine ⟨fun c hc => ?_, fun text ht => ?_⟩
      · rw [hcolumn] at hc
        exact Option.some.inj hc ▸ hname
      · simp [hrest] at ht
    · exact h f hf

/-! ## Which drafts are accepted -/

/-- The measures of a draft: those that were placed, or a sum of each number that is no key. -/
theorem draftedMeasures_readColumns_iff {parse : String → Option Sql.Expr} {columns : List String}
    (hcount : ReadsColumns parse [] "count(*)") :
    (∀ m ∈ draftedMeasures schema ds, ReadsColumns parse columns m.expr) ↔
      (∀ m ∈ ds.measures, ReadsColumns parse columns m.expr) ∧
        (ds.measures = [] → ∀ c ∈ schema.columns, c.type ∈ ["int", "float", "decimal"] →
          isSurrogateKey c.name = false →
            ReadsColumns parse columns ("sum(" ++ c.name ++ ")")) := by
  unfold draftedMeasures
  by_cases hempty : ds.measures = []
  · obtain ⟨parsed, hparse, hno⟩ := hcount
    have hstar : ReadsColumns parse columns "count(*)" :=
      ⟨parsed, hparse, fun c hc => absurd (hno c hc) List.not_mem_nil⟩
    simp only [hempty, List.isEmpty_nil, if_true, inferMeasures, List.forall_mem_cons, hstar,
      true_and, List.forall_mem_map, List.mem_filter, Bool.not_eq_eq_eq_not, Bool.not_true,
      decide_eq_true_eq, and_imp, List.not_mem_nil, false_implies, implies_true, true_implies]
  · have hsome : ds.measures.isEmpty = false := by simpa using hempty
    simp [hsome, hempty]

/-- **When a draft is accepted.** The types are normalized. Where definitions supply the grain and
the measures, these refer to columns that exist; where they do not, the sums do. Dimensions that
were checked against another relation of the name refer to columns of this one. The stems of joins
are apart. -/
structure Draftable (reader : DefinitionReader) (isWordChar : Char → Bool)
    (relations : Dict RelationSchema) (schema : RelationSchema) (ds : RelationDefinitions) :
    Prop where
  types : ∀ c ∈ schema.columns, (NormalizedType.ofValue? c.type).isSome
  grain : schema.primaryKey = [] → ∀ g ∈ ds.grain, g ∈ schema.columns.map (·.name)
  measures : ∀ m ∈ ds.measures, ReadsColumns reader.parse (schema.columns.map (·.name)) m.expr
  totals : ds.measures = [] → ∀ c ∈ schema.columns, c.type ∈ ["int", "float", "decimal"] →
    isSurrogateKey c.name = false →
      ReadsColumns reader.parse (schema.columns.map (·.name)) ("sum(" ++ c.name ++ ")")
  dimensions : relations.get schema.name ≠ some schema →
    ∀ f ∈ ds.dimensions, f.ReadsOnly reader schema
  joins : StemsApart (linksOf isWordChar schema.name schema.foreignKeys ds.joins)

/-- The dimensions of a source that was read from a draft. -/
theorem dimensions_valid_iff {reader : DefinitionReader} {drafts : List DimensionDraft}
    {dimensions : List Dimension} {columns : List Column}
    (hread : List.Forall₂ (fun d k => readDimension d.dump = some k) drafts dimensions)
    (hshaped : ∀ f ∈ drafts, f.Shaped)
    (hcolumns : columns.map (·.name) = schema.columns.map (·.name)) :
    drafts.map (·.name) = dimensions.map (·.name) ∧
      ((∀ k ∈ dimensions, (∀ name ∈ k.column, ∃ c,
          columns.find? (fun c => c.name == name) = some c ∧ (k.jsonPath.isSome → c.type = .json)) ∧
        ∀ e ∈ k.expr, ReadsColumns reader.parse (columns.map (·.name)) e) ↔
      ∀ f ∈ drafts, f.ReadsOnly reader schema) := by
  induction hread with
  | nil => simp
  | @cons f k drafts dimensions hf hrest ih =>
      obtain ⟨hnames, hvalid⟩ := ih fun f' hf' => hshaped f' (List.mem_cons_of_mem f hf')
      obtain ⟨k', hk', hname, hcolumn, hpath, hexpr⟩ :=
        readDimension_dump (hshaped f List.mem_cons_self)
      obtain rfl : k = k' := Option.some.inj (hf.symm.trans hk')
      have hfind (name : String) : (∃ c, columns.find? (fun c => c.name == name) = some c) ↔
          name ∈ schema.columns.map (·.name) := by
        rw [← hcolumns, ← Option.isSome_iff_exists, List.find?_isSome]
        simp
      refine ⟨by rw [List.map_cons, List.map_cons, hname, hnames], ?_⟩
      rw [List.forall_mem_cons, List.forall_mem_cons, hvalid]
      refine and_congr_left fun _ => ?_
      simp only [hpath, Option.isSome_none, Bool.false_eq_true, false_implies, and_true, hfind]
      constructor
      · rintro ⟨hdeclared, hreads⟩
        refine ⟨fun c hc => hdeclared c (hcolumn.trans hc), fun text ht => ?_⟩
        rw [← hcolumns]
        exact hreads text ((hexpr text).mpr ht)
      · intro h
        refine ⟨fun c hc => h.column c (hcolumn.symm.trans hc), fun e he => ?_⟩
        rw [hcolumns]
        exact h.expr e ((hexpr e).mp he)

/-- The measures of a source that was read from a draft. -/
theorem measures_eq_of_read {drafts : List MeasureDraft} {measures : List Measure}
    (hread : List.Forall₂ (fun m k => readMeasure m.dump = some k) drafts measures) :
    drafts.map (·.name) = measures.map (·.name) ∧ drafts.map (·.expr) = measures.map (·.expr) := by
  constructor <;> refine map_eq_map_of_forall₂ hread fun m k hk => ?_ <;>
    · rw [readMeasure_dump, Option.map_eq_some_iff] at hk
      obtain ⟨a, -, rfl⟩ := hk
      rfl

theorem joins_eq_of_read {drafts : List JoinFragment} {joins : List Join}
    (hread : List.Forall₂ (fun j k => readJoin j.dump = some k) drafts joins) :
    drafts.map JoinFragment.alias_ = joins.map Join.alias_ := by
  refine map_eq_map_of_forall₂ hread fun j k hk => ?_
  rw [readJoin_dump, Option.map_eq_some_iff] at hk
  obtain ⟨r, -, rfl⟩ := hk
  rw [JoinFragment.alias_, Join.alias_]
  cases j.name with
  | none => rfl
  | some n => by_cases hn : n = "" <;> simp [stated, Option.filter, hn]

theorem columns_eq_of_read {columns : List Column}
    (hread : List.Forall₂ (fun c k => readColumn c.dump = some k) schema.columns columns) :
    schema.columns.map (·.name) = columns.map (·.name) := by
  refine map_eq_map_of_forall₂ hread fun c k hk => ?_
  rw [readColumn_dump, Option.map_eq_some_iff] at hk
  obtain ⟨t, -, rfl⟩ := hk
  rfl

/-- Everything but the columns of a draft can be read, and these where their types are
normalized. -/
theorem exists_readSource (hds : ds.WellPlaced) (hnotes : (readMeta (.obj notes)).isSome) :
    (∃ s, readSource (draftedContent isWordChar schema ds notes) = some s) ↔
      ∀ c ∈ schema.columns, (NormalizedType.ofValue? c.type).isSome := by
  have hcolumn (c : ColumnInfo) : (∃ k, readColumn c.dump = some k) ↔
      (NormalizedType.ofValue? c.type).isSome := by
    rw [readColumn_dump, ← Option.isSome_iff_exists, Option.isSome_map]
  constructor
  · rintro ⟨s, hs⟩ c hc
    obtain ⟨columns, -, -, -, hcolumns, -⟩ := (readSource_draftedContent hnotes).mp hs
    obtain ⟨k, -, hk⟩ := forall₂_mem_left hcolumns hc
    exact (hcolumn c).mp ⟨k, hk⟩
  · intro htypes
    have hmeasure : ∀ m ∈ draftedMeasures schema ds, ∃ k, readMeasure m.dump = some k := by
      intro m hm
      rw [readMeasure_dump, ← Option.isSome_iff_exists, Option.isSome_map]
      rw [draftedMeasures] at hm
      split at hm
      · rcases List.mem_cons.mp hm with rfl | hm
        · rfl
        · obtain ⟨c, -, rfl⟩ := List.mem_map.mp hm
          rfl
      · exact hds.measures_typed m hm
    have hdimension : ∀ f ∈ draftedDimensions schema ds, ∃ k, readDimension f.dump = some k := by
      intro f hf
      obtain ⟨k, hk, -⟩ := readDimension_dump (draftedDimensions_shaped hds f hf)
      exact ⟨k, hk⟩
    have hjoin : ∀ j ∈ buildJoins isWordChar schema.name schema.foreignKeys [] ds.joins,
        ∃ k, readJoin j.dump = some k := by
      intro j hj
      rw [readJoin_dump, ← Option.isSome_iff_exists, Option.isSome_map]
      simp only [buildJoins, List.map_nil, List.append_nil, List.mem_append, List.mem_map] at hj
      rcases hj with ⟨fk, -, rfl⟩ | ⟨j, hj, rfl⟩
      · rfl
      · have hsame (needsAlias : Bool) :
            (modeledToJoin isWordChar schema.name j needsAlias).relationship = j.relationship := by
          cases needsAlias <;> rfl
        rw [hsame]
        exact hds.joins_typed j hj
    obtain ⟨columns, hc⟩ := exists_forall₂_of_forall fun c hc => (hcolumn c).mpr (htypes c hc)
    obtain ⟨measures, hm⟩ := exists_forall₂_of_forall hmeasure
    obtain ⟨dimensions, hd⟩ := exists_forall₂_of_forall hdimension
    obtain ⟨joins, hj⟩ := exists_forall₂_of_forall hjoin
    exact ⟨_, (readSource_draftedContent hnotes).mpr
      ⟨columns, measures, dimensions, joins, hc, hm, hd, hj, rfl⟩⟩

/-- The references of a draft hold exactly when its parts refer to columns that exist and the stems
of its joins are apart. -/
theorem valid_draftedContent_iff {reader : DefinitionReader} (hds : ds.WellPlaced)
    (hnotes : (readMeta (.obj notes)).isSome) (hnames : (schema.columns.map (·.name)).Nodup)
    {s : SourceFields} (hs : readSource (draftedContent isWordChar schema ds notes) = some s) :
    s.Valid reader.parse ↔
      (∀ g ∈ draftedGrain schema ds, g ∈ schema.columns.map (·.name)) ∧
      (∀ m ∈ draftedMeasures schema ds,
        ReadsColumns reader.parse (schema.columns.map (·.name)) m.expr) ∧
      (∀ f ∈ ds.dimensions, f.ReadsOnly reader schema) ∧
      StemsApart (linksOf isWordChar schema.name schema.foreignKeys ds.joins) := by
  obtain ⟨columns, measures, dimensions, joins, hc, hm, hd, hj, rfl⟩ :=
    (readSource_draftedContent hnotes).mp hs
  have hcolumns := columns_eq_of_read hc
  obtain ⟨hmnames, hmexprs⟩ := measures_eq_of_read hm
  obtain ⟨hdnames, hdvalid⟩ := @dimensions_valid_iff _ reader _ _ _ hd
    (draftedDimensions_shaped hds) hcolumns.symm
  have hmeasures : (∀ k ∈ measures, ReadsColumns reader.parse (columns.map (·.name)) k.expr) ↔
      ∀ m ∈ draftedMeasures schema ds,
        ReadsColumns reader.parse (schema.columns.map (·.name)) m.expr := by
    have hall := List.forall_mem_map (f := Measure.expr) (l := measures)
      (P := ReadsColumns reader.parse (columns.map (·.name)))
    have hexprs : measures.map Measure.expr = (draftedMeasures schema ds).map (·.expr) :=
      hmexprs.symm
    rw [← hall, hexprs, List.forall_mem_map, ← hcolumns]
  have haliases : (joins.map Join.alias_).Nodup ↔
      StemsApart (linksOf isWordChar schema.name schema.foreignKeys ds.joins) := by
    rw [← joins_eq_of_read hj, alias_buildJoins hds.joins_unnamed, nodup_replace_shared_iff]
    exact ⟨fun h => ⟨h.1, h.2⟩, fun h => ⟨h.nodup, h.ne_target⟩⟩
  have hmnodup : (measures.map (·.name)).Nodup := by
    rw [← hmnames, draftedMeasures]
    split
    · exact nodup_inferMeasures hnames
    · exact hds.measures_nodup
  rw [← draftedDimensions_readsOnly_iff, ← hdvalid, ← hmeasures, ← haliases]
  constructor
  · intro h
    refine ⟨fun g hg => hcolumns ▸ h.grain_declared g hg, h.measures_read,
      fun k hk => ⟨h.dimensions_declared k hk, h.dimensions_read k hk⟩, h.joins_nodup⟩
  · rintro ⟨hgrain, hread, hdims, hjoins⟩
    refine ⟨hcolumns ▸ hnames, hmnodup, hdnames ▸ nodup_draftedDimensions hnames hds, hjoins,
      fun g hg => hcolumns ▸ hgrain g hg, fun k hk => (hdims k hk).1, fun k hk => (hdims k hk).2,
      hread⟩

end

/-- **Drafts and the gate.** Without guesses, a relation with distinct columns that contain its
primary key is drafted from any definitions of the run, and its draft is accepted exactly when it is
`Draftable`. -/
theorem buildRelationSchema_accepted_iff {lib : BuilderLib} {reader : DefinitionReader}
    (hdet : Deterministic lib reader) (relations : Dict RelationSchema)
    (invalid : List (String × String)) {ps : List PendingDefinition}
    (hps : ∀ p ∈ ps, p.definition.Typed) (schema : RelationSchema)
    (hnames : (schema.columns.map (·.name)).Nodup)
    (hkey : ∀ c ∈ schema.primaryKey, c ∈ schema.columns.map (·.name)) :
    let ds := (resolveDefinitions reader relations invalid ps).buckets.forRelation schema.name
    ∃ p, buildRelationSchema lib relations schema ds = .ok p ∧
      ((SemanticSource.modelValidate reader.parse p.content).isOk ↔
        Draftable reader lib.isWordChar relations schema ds) := by
  intro ds
  have hds : ds.WellPlaced := resolveDefinitions_wellPlaced hdet.expressionType hps schema.name
  obtain ⟨p, notes, hp, hcontent, hnotes⟩ := exists_buildRelationSchema hdet relations schema
    ds fun j hj => by
      obtain ⟨e, -, -, he, -⟩ := checked_join hj
      exact ⟨e, he⟩
  -- dimensions checked against this relation refer to its columns
  have hdimensions : (∀ f ∈ ds.dimensions, f.ReadsOnly reader schema) ↔
      (relations.get schema.name ≠ some schema →
        ∀ f ∈ ds.dimensions, f.ReadsOnly reader schema) := by
    refine ⟨fun h _ => h, fun h => ?_⟩
    by_cases hsame : relations.get schema.name = some schema
    · intro f hf
      obtain ⟨schema', hget, hreads⟩ := checked_dimension hf
      obtain rfl : schema = schema' := Option.some.inj (hsame.symm.trans hget)
      exact hreads
    · exact h hsame
  have hgrain : (∀ g ∈ draftedGrain schema ds, g ∈ schema.columns.map (·.name)) ↔
      (schema.primaryKey = [] → ∀ g ∈ ds.grain, g ∈ schema.columns.map (·.name)) := by
    unfold draftedGrain
    by_cases hempty : schema.primaryKey = []
    · simp [hempty]
    · rw [if_neg hempty]
      exact ⟨fun _ h => absurd h hempty, fun _ => hkey⟩
  have hread := @exists_readSource lib.isWordChar schema ds notes hds hnotes
  refine ⟨p, hp, ?_⟩
  rw [modelValidate_isOk, hcontent]
  constructor
  · rintro ⟨s, hs, hvalid⟩
    obtain ⟨hg, hm, hd, hj⟩ := (valid_draftedContent_iff hds hnotes hnames hs).mp hvalid
    obtain ⟨hplaced, htotals⟩ := (draftedMeasures_readColumns_iff hdet.countStar).mp hm
    exact ⟨hread.mp ⟨s, hs⟩, hgrain.mp hg, hplaced, htotals,
      hdimensions.mp hd, hj⟩
  · intro h
    obtain ⟨s, hs⟩ := hread.mpr h.types
    exact ⟨s, hs, (valid_draftedContent_iff hds hnotes hnames hs).mpr ⟨hgrain.mpr h.grain,
      (draftedMeasures_readColumns_iff hdet.countStar).mpr ⟨h.measures, h.totals⟩,
      hdimensions.mpr h.dimensions, h.joins⟩⟩

/-! ### Two keys of one customer -/

private def keyedReader : DefinitionReader where
  parse text := if text = "count(*)" then some (.node (.agg .count) [.node .star []]) else none
  columnSql c := c.name
  expressionType _ _ := none

private def keyedLib : BuilderLib where
  py := .plain
  schema _ := raise "ValidationError"
  usage _ := raise "ValidationError"
  doc _ := .error "Field required"
  definitions _ _ := .ok { forRelation := fun _ => {} }
  columnsOf _ := .ok []
  definitionDigest _ := ""
  titleDigest _ := ""
  isWordChar c := c.isAlphanum || c == '_'
  drafter := nullLLMDrafter

private theorem keyedLib_deterministic : Deterministic keyedLib keyedReader where
  drafter := rfl
  columnsOf _ _ _ := ⟨[], rfl⟩
  countStar := ⟨_, rfl, by decide⟩
  expressionType _ _ _ h := by simp [keyedReader] at h

/-- Orders that refer to their customers by two columns. -/
private def keyedOrders (first second : String) : RelationSchema where
  connection := "wh"
  relation := "main.orders"
  columns := [{ name := "id", type := "int" }, { name := first, type := "int" },
    { name := second, type := "int" }]
  primaryKey := ["id"]
  foreignKeys := [⟨[first], ⟨"main.customers", ["id"]⟩⟩, ⟨[second], ⟨"main.customers", ["key"]⟩⟩]
  acquisitionTier := .live

private def keyedDraft (first second : String) : Reads Proposal :=
  let relations := [("orders", keyedOrders first second)]
  buildRelationSchema keyedLib relations (keyedOrders first second)
    ((resolveDefinitions keyedReader relations [] []).buckets.forRelation "orders")

/-- The joins along `customer_id` and `customer_key` are both called `customer`. -/
theorem buildRelationSchema_accepted_iff_counterexample :
    let schema := keyedOrders "customer_id" "customer_key"
    (schema.columns.map (·.name)).Nodup ∧
      (∀ c ∈ schema.primaryKey, c ∈ schema.columns.map (·.name)) ∧
      (∀ fk ∈ schema.foreignKeys, ∀ c ∈ fk.columns, c ∈ schema.columns.map (·.name)) ∧
      ∃ p, keyedDraft "customer_id" "customer_key" = .ok p ∧
        (!(SemanticSource.modelValidate keyedReader.parse p.content).isOk) = true :=
  ⟨by decide, by decide, by decide, exists_ok_of_any (by decide)⟩

/-- A referrer is another customer, and the draft is accepted. -/
theorem buildRelationSchema_accepted_iff_referrer :
    ∃ p, keyedDraft "customer_id" "referrer_id" = .ok p ∧
      (SemanticSource.modelValidate keyedReader.parse p.content).isOk := by
  obtain ⟨p, hp, haccepted⟩ := buildRelationSchema_accepted_iff keyedLib_deterministic
    [("orders", keyedOrders "customer_id" "referrer_id")] [] (fun _ h => absurd h List.not_mem_nil)
    (keyedOrders "customer_id" "referrer_id") (by decide) (by decide)
  have hkeys : ∀ c ∈ (keyedOrders "customer_id" "referrer_id").columns,
      isSurrogateKey c.name = true := by decide
  refine ⟨p, hp, haccepted.mpr ⟨by decide, ?_, ?_, ?_, ?_, ⟨by decide, by decide⟩⟩⟩
  · exact fun h => absurd h (by decide)
  · exact fun m hm => absurd hm List.not_mem_nil
  · exact fun _ c hc _ hnot => absurd (hkeys c hc) (by simp [hnot])
  · exact fun _ f hf => absurd hf List.not_mem_nil

end Canonic
