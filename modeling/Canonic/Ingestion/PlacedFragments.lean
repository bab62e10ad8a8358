import Canonic.Ingestion.Definitions
import Canonic.Semantic.Reading

set_option autoImplicit false

/-! # Placed fragments

What `ingestion/definitions.py` places on a relation is well formed: names do not repeat, and each
fragment reads back as the part of a source it is going to be. -/

namespace Canonic

/-! ## Placed definitions -/

/-- The enumerated fields of a definition have values of their enumerations, which the model of the
evidence sees to. -/
structure DefinitionEvidence.Typed (d : DefinitionEvidence) : Prop where
  additivity : ∀ a ∈ d.additivity, (Additivity.ofValue? a).isSome
  relationships : ∀ j ∈ d.joins, (Relationship.ofValue? j.relationship).isSome

/-- A placed dimension is a column, or an expression with its type. -/
inductive DimensionDraft.Shaped (f : DimensionDraft) : Prop where
  | column (d : DefinitionEvidence) (c : String) (column_eq : f.column = some c)
      (rest_eq : f.rest = describedFields d)
  | expr (d : DefinitionEvidence) (expr type : String) (column_eq : f.column = none)
      (rest_eq : f.rest = [("expr", .str expr), ("type", .str type)] ++ describedFields d)
      (typed : (NormalizedType.ofValue? type).isSome)

/-- What is placed on a relation has names of its own and fields of the right types; a placed join
has no name yet. -/
structure RelationDefinitions.WellPlaced (r : RelationDefinitions) : Prop where
  measures_nodup : (r.measures.map (·.name)).Nodup
  measures_typed : ∀ m ∈ r.measures, (Additivity.ofValue? m.additivity).isSome
  dimensions_nodup : (r.dimensions.map (·.name)).Nodup
  dimensions_shaped : ∀ f ∈ r.dimensions, f.Shaped
  joins_unnamed : ∀ j ∈ r.joins, j.name = none
  joins_typed : ∀ j ∈ r.joins, (Relationship.ofValue? j.relationship).isSome

namespace DefinitionBuckets

def WellPlaced (b : DefinitionBuckets) : Prop := ∀ name, (b.forRelation name).WellPlaced

theorem WellPlaced.modify {b : DefinitionBuckets} (hb : b.WellPlaced) {name : String}
    {f : RelationDefinitions → RelationDefinitions}
    (h : (b.forRelation name).WellPlaced → (f (b.forRelation name)).WellPlaced) :
    (b.modify name f).WellPlaced := by
  intro other
  by_cases hne : other = name
  · subst hne
    rw [forRelation_modify_self]
    exact h (hb other)
  · rw [forRelation_modify_ne b hne]
    exact hb other

theorem WellPlaced.note {b : DefinitionBuckets} (hb : b.WellPlaced) (name : String)
    (notes : List String) : (b.note name notes).WellPlaced :=
  hb.modify fun h => ⟨h.measures_nodup, h.measures_typed, h.dimensions_nodup, h.dimensions_shaped,
    h.joins_unnamed, h.joins_typed⟩

theorem WellPlaced.stateAliases {b : DefinitionBuckets} (hb : b.WellPlaced) (measure : String)
    (aliases : List String) : (b.stateAliases measure aliases).WellPlaced := by
  intro name
  rw [forRelation_stateAliases]
  exact hb name

end DefinitionBuckets

/-- A name that is not found may be added. -/
theorem nodup_map_append_of_find?_eq_none {α : Type} {name : α → String} {l : List α} {a : α}
    (hl : (l.map name).Nodup) (h : (l.find? fun b => name b == name a) = none) :
    ((l ++ [a]).map name).Nodup := by
  rw [List.map_append, List.map_singleton, List.nodup_append]
  refine ⟨hl, List.nodup_singleton _, fun x hx y hy => ?_⟩
  obtain ⟨b, hb, rfl⟩ := List.mem_map.mp hx
  rw [List.mem_singleton] at hy
  subst hy
  simpa using List.find?_eq_none.mp h b hb

section
variable {lib : DefinitionReader} {relations : Dict RelationSchema} {b : DefinitionBuckets}
  {d : DefinitionEvidence}

theorem placeMeasure_wellPlaced (hb : b.WellPlaced) (hd : d.Typed) :
    (placeMeasure relations b d).2.WellPlaced := by
  unfold placeMeasure
  split
  · exact hb
  next additivity hadditivity =>
    split
    · exact hb
    next name _ _ =>
      dsimp only
      split
      · split
        · exact hb
        · exact hb.note _ _
      next hfind =>
        refine ((hb.modify fun h => ?_).stateAliases _ _).note _ _
        refine ⟨nodup_map_append_of_find?_eq_none h.measures_nodup hfind, fun m hm => ?_,
          h.dimensions_nodup, h.dimensions_shaped, h.joins_unnamed, h.joins_typed⟩
        rcases List.mem_append.mp hm with hm | hm
        · exact h.measures_typed m hm
        · rw [List.mem_singleton.mp hm]
          exact hd.additivity additivity hadditivity

theorem dimensionFragment_shaped {name : String} {schema : RelationSchema} {f : DimensionDraft}
    (htypes : ∀ text columns t, lib.expressionType text columns = some t →
      (NormalizedType.ofValue? t).isSome)
    (h : dimensionFragment lib d name schema = .ok f) : f.Shaped := by
  unfold dimensionFragment at h
  dsimp only at h
  split at h
  next column _ =>
    split at h
    · rw [← Except.ok.inj h]
      exact .column d column rfl rfl
    · simp at h
  · split at h
    · simp at h
    next expr _ =>
      split at h
      · simp at h
      · split at h
        · simp at h
        · split at h
          · simp at h
          next type htype =>
            rw [← Except.ok.inj h]
            exact .expr d expr type rfl rfl (htypes _ _ _ htype)

theorem placeDimension_wellPlaced
    (htypes : ∀ text columns t, lib.expressionType text columns = some t →
      (NormalizedType.ofValue? t).isSome)
    (hb : b.WellPlaced) : (placeDimension lib relations b d).2.WellPlaced := by
  unfold placeDimension
  split
  · exact hb
  next name schema _ =>
    split
    · exact hb
    next fragment hfragment =>
      split
      · split
        · exact hb
        · exact hb.note _ _
      next hfind =>
        refine hb.modify fun h => ?_
        rw [← dimensionFragment_name hfragment] at hfind
        refine ⟨h.measures_nodup, h.measures_typed,
          nodup_map_append_of_find?_eq_none h.dimensions_nodup hfind, fun f hf => ?_,
          h.joins_unnamed, h.joins_typed⟩
        rcases List.mem_append.mp hf with hf | hf
        · exact h.dimensions_shaped f hf
        · rw [List.mem_singleton.mp hf]
          exact dimensionFragment_shaped htypes hfragment

theorem addPart_wellPlaced {p : JoinSpec × String} (hb : b.WellPlaced)
    (hp : (Relationship.ofValue? p.1.relationship).isSome) : (addPart b d p).WellPlaced := by
  refine (hb.modify fun h => ?_).note _ _
  split
  · exact h
  · refine ⟨h.measures_nodup, h.measures_typed, h.dimensions_nodup, h.dimensions_shaped,
      fun j hj => ?_, fun j hj => ?_⟩
    · rcases List.mem_append.mp hj with hj | hj
      · exact h.joins_unnamed j hj
      · rw [List.mem_singleton.mp hj]
        rfl
    · rcases List.mem_append.mp hj with hj | hj
      · exact h.joins_typed j hj
      · rw [List.mem_singleton.mp hj]
        exact hp

theorem placeParts_wellPlaced {ps : List (JoinSpec × String)} (hb : b.WellPlaced)
    (hps : ∀ p ∈ ps, (Relationship.ofValue? p.1.relationship).isSome) :
    (placeParts lib relations d b ps).2.WellPlaced := by
  induction ps generalizing b with
  | nil => exact hb
  | cons p ps ih =>
      rw [placeParts]
      split
      · exact hb
      · exact ih (addPart_wellPlaced hb (hps p List.mem_cons_self))
          fun q hq => hps q (List.mem_cons_of_mem p hq)

theorem foldl_placeGrain_wellPlaced (grain : List String) {refs : List String}
    (hb : b.WellPlaced) : (refs.foldl (placeGrain grain) b).WellPlaced := by
  induction refs generalizing b with
  | nil => exact hb
  | cons r refs ih =>
      refine ih (hb.modify fun h => ?_)
      split
      · exact ⟨h.measures_nodup, h.measures_typed, h.dimensions_nodup, h.dimensions_shaped,
          h.joins_unnamed, h.joins_typed⟩
      · exact h

/-- One definition keeps what is placed well placed. -/
theorem placeDefinition_wellPlaced
    (htypes : ∀ text columns t, lib.expressionType text columns = some t →
      (NormalizedType.ofValue? t).isSome)
    (hb : b.WellPlaced) (hd : d.Typed) :
    (placeDefinition lib relations b d).2.WellPlaced := by
  unfold placeDefinition
  split
  · exact placeMeasure_wellPlaced hb hd
  · exact placeDimension_wellPlaced htypes hb
  · refine placeParts_wellPlaced hb fun p hp => ?_
    obtain ⟨j, hj, hjp⟩ := List.mem_filterMap.mp hp
    obtain ⟨on, -, rfl⟩ := Option.map_eq_some_iff.mp hjp
    exact hd.relationships j hj
  · exact foldl_placeGrain_wellPlaced d.grain hb
  · dsimp only
    split
    · exact hb.modify fun h => ⟨h.measures_nodup, h.measures_typed, h.dimensions_nodup,
        h.dimensions_shaped, h.joins_unnamed, h.joins_typed⟩
    · exact hb
  · exact hb

/-- **A run keeps what is placed well placed.** -/
theorem resolveDefinitions_wellPlaced {invalid : List (String × String)}
    {ps : List PendingDefinition}
    (htypes : ∀ text columns t, lib.expressionType text columns = some t →
      (NormalizedType.ofValue? t).isSome)
    (hps : ∀ p ∈ ps, p.definition.Typed) :
    (resolveDefinitions lib relations invalid ps).buckets.WellPlaced := by
  have hrun (r : Resolution) (hr : r.buckets.WellPlaced) :
      (ps.foldl (resolveStep lib relations) r).buckets.WellPlaced := by
    induction ps generalizing r with
    | nil => exact hr
    | cons p ps ih =>
        refine ih (fun q hq => hps q (List.mem_cons_of_mem p hq)) _ ?_
        unfold resolveStep
        split
        · exact hr
        · exact placeDefinition_wellPlaced htypes hr (hps p List.mem_cons_self)
  exact hrun _ fun name => ⟨List.nodup_nil, by simp [DefinitionBuckets.forRelation, Dict.get],
    List.nodup_nil, by simp [DefinitionBuckets.forRelation, Dict.get],
    by simp [DefinitionBuckets.forRelation, Dict.get],
    by simp [DefinitionBuckets.forRelation, Dict.get]⟩

end

/-! ## Reading the parts of a draft -/

theorem asList_map_eq_some {α β : Type} {read : Json → Option β} {dump : α → Json} {l : List α}
    {r : List β} : Json.asList read (.arr (l.map dump)) = some r ↔
      List.Forall₂ (fun a b => read (dump a) = some b) l r := by
  rw [Json.asList]
  induction l generalizing r with
  | nil => simp [eq_comm]
  | cons a l ih =>
      rw [List.map_cons, List.mapM_cons]
      simp only [Option.bind_eq_bind, Option.bind_eq_some_iff, Option.pure_def, Option.some.injEq,
        ih, List.forall₂_cons_left_iff]
      constructor
      · rintro ⟨b, hb, bs, hbs, rfl⟩
        exact ⟨b, bs, hb, hbs, rfl⟩
      · rintro ⟨b, bs, hb, hbs, rfl⟩
        exact ⟨b, hb, bs, hbs, rfl⟩

/-- A list is read when each of its elements is. -/
theorem exists_forall₂_of_forall {α β : Type} {P : α → β → Prop} {l : List α}
    (h : ∀ a ∈ l, ∃ b, P a b) : ∃ r, List.Forall₂ P l r := by
  induction l with
  | nil => exact ⟨[], .nil⟩
  | cons a l ih =>
      obtain ⟨b, hb⟩ := h a List.mem_cons_self
      obtain ⟨r, hr⟩ := ih fun a' ha => h a' (List.mem_cons_of_mem a ha)
      exact ⟨b :: r, .cons hb hr⟩

theorem map_eq_map_of_forall₂ {α β γ : Type} {P : α → β → Prop} {f : α → γ} {g : β → γ}
    {l : List α} {r : List β} (h : List.Forall₂ P l r) (hfg : ∀ a b, P a b → f a = g b) :
    l.map f = r.map g := by
  induction h with
  | nil => rfl
  | cons hab _ ih => rw [List.map_cons, List.map_cons, hfg _ _ hab, ih]

def ColumnInfo.dump (c : ColumnInfo) : Json :=
  .obj [("name", .str c.name), ("type", .str c.type), ("nullable", .bool c.nullable)]

theorem readColumn_dump (c : ColumnInfo) :
    readColumn c.dump = (NormalizedType.ofValue? c.type).map fun t => ⟨c.name, t, c.nullable⟩ := by
  simp [readColumn, ColumnInfo.dump, Json.record, readField, readFieldD, Dict.get, List.lookup,
    Json.asText, Json.asBool, Option.map_eq_bind]

theorem readMeasure_dump (m : MeasureDraft) : readMeasure m.dump =
    (Additivity.ofValue? m.additivity).map fun a => ⟨m.name, m.expr, a, []⟩ := by
  simp [readMeasure, MeasureDraft.dump, Json.record, readField, readFieldD, Dict.get, List.lookup,
    Json.asText, Option.map_eq_bind]

theorem readJoin_dump (j : JoinFragment) : readJoin j.dump =
    (Relationship.ofValue? j.relationship).map fun r => ⟨j.to_, j.on, r, j.name⟩ := by
  cases hname : j.name with
  | none =>
    simp [readJoin, JoinFragment.dump, hname, optionalField, Json.record, readField, readField?,
      readFieldD, Dict.get, List.lookup, Json.asText, Option.map_eq_bind]
  | some n =>
    simp [readJoin, JoinFragment.dump, hname, optionalField, Json.record, readField, readField?,
      readFieldD, Dict.get, List.lookup, Json.asText, Json.orNull, Option.map_eq_bind]

theorem asTexts_texts (texts : List String) :
    Json.asList Json.asText (.texts texts) = some texts := by
  rw [Json.texts, asList_map_eq_some]
  exact List.forall₂_same.mpr fun _ _ => rfl

@[simp] theorem get_nil (key : String) : Dict.get ([] : Content) key = none := rfl

theorem get_singleton (name : String) (value : Json) (key : String) :
    Dict.get [(name, value)] key = if key = name then some value else none := by
  rw [Dict.get_cons]
  by_cases h : key = name
  · rw [if_pos h, if_pos h.symm]
  · rw [if_neg h, if_neg (Ne.symm h)]
    rfl

theorem get_optionalField (name : String) (value : Option String) (key : String) :
    Dict.get (optionalField name value) key = if key = name then value.map .str else none := by
  cases value with
  | none => simp [optionalField, Dict.get]
  | some v => exact get_singleton name (.str v) key

theorem get_describedFields (d : DefinitionEvidence) (key : String) :
    Dict.get (describedFields d) key =
      if key = "description" then (stated d.description).map .str
      else if key = "aliases" ∧ d.aliases ≠ [] then some (.texts d.aliases) else none := by
  rw [describedFields, Dict.get_append, get_optionalField]
  by_cases hkey : key = "description"
  · subst hkey
    cases stated d.description with
    | none => by_cases h : d.aliases = [] <;> simp [h, Dict.get]
    | some text => simp
  · by_cases h : d.aliases = []
    · simp [hkey, h, Dict.get]
    · simp [hkey, h, get_singleton]

theorem mem_optionalField {name : String} {value : Option String} {f : String × Json}
    (h : f ∈ optionalField name value) : f.1 = name :=
  keys_optionalField (List.mem_map_of_mem h)

theorem mem_describedFields {d : DefinitionEvidence} {f : String × Json}
    (h : f ∈ describedFields d) : f.1 = "description" ∨ f.1 = "aliases" := by
  rcases List.mem_append.mp h with h | h
  · exact .inl (mem_optionalField h)
  · split at h
    · simp at h
    · exact .inr (by rw [List.mem_singleton.mp h])

theorem bind_eq_some {α β : Type} {x : Option α} {f : α → Option β} {a : α} {b : β}
    (hx : x = some a) (hf : f a = some b) : (x >>= f) = some b := by
  rw [hx]
  exact hf

/-- A dimension of which every field is found. -/
theorem readDimension_eq_some {fields : Content} {name : String} {column expr : Option String}
    {type : Option NormalizedType} {description : Option String} {aliases : List String}
    (hkeys : ∀ f ∈ fields, f.1 ∈ ["name", "column", "expr", "json_path", "type", "granularity",
      "time_grain", "time_format", "label", "description", "aliases"])
    (hname : readField Json.asText fields "name" = some name)
    (hcolumn : readField? Json.asText fields "column" = some column)
    (hexpr : readField? Json.asText fields "expr" = some expr)
    (htype : readField? (fun v => v.asText.bind NormalizedType.ofValue?) fields "type" = some type)
    (hdescription : readField? Json.asText fields "description" = some description)
    (haliases : readFieldD (Json.asList Json.asText) [] fields "aliases" = some aliases)
    (hnone : ∀ key ∈ ["json_path", "granularity", "time_grain", "time_format", "label"],
      fields.get key = none)
    (hxor : column.isNone ≠ expr.isNone) (htyped : expr.isSome → type.isSome) :
    ∃ k, readDimension (.obj fields) = some k ∧ k.name = name ∧ k.column = column ∧
      k.jsonPath = none ∧ k.expr = expr := by
  have habsent {α : Type} (read : Json → Option α) (key : String)
      (hkey : key ∈ ["json_path", "granularity", "time_grain", "time_format", "label"]) :
      readField? read fields key = some none := by
    rw [readField?, readFieldD, hnone key hkey]
    rfl
  have htyped' : (expr.isSome || (none : Option (List String)).isSome) → type.isSome := by
    simpa using htyped
  refine ⟨{ name, column, expr, jsonPath := none, type, aliases
            column_xor_expr := hxor
            jsonPath_column := by simp
            derived_type := htyped' }, ?_, rfl, rfl, rfl, rfl⟩
  rw [readDimension]
  refine bind_eq_some (if_pos hkeys) (bind_eq_some hname (bind_eq_some hcolumn (bind_eq_some hexpr
    (bind_eq_some (habsent _ "json_path" (by decide)) (bind_eq_some htype
      (bind_eq_some (habsent _ "granularity" (by decide))
        (bind_eq_some (habsent _ "time_grain" (by decide))
          (bind_eq_some (habsent _ "time_format" (by decide))
            (bind_eq_some (habsent _ "label" (by decide)) (bind_eq_some hdescription
              (bind_eq_some haliases ?_)))))))))))
  rw [dif_pos ⟨hxor, by simp, htyped'⟩, if_pos (by simp [isTimeGrain, isBucketed])]
  rfl

/-- The fields of a dimension with a column, or with an expression and its type. -/
theorem readDimension_fields {fields : Content} {name : String} {column expr type : Option String}
    {d : DefinitionEvidence}
    (hfields : fields = [("name", .str name)] ++ optionalField "column" column ++
      (optionalField "expr" expr ++ optionalField "type" type ++ describedFields d))
    (hxor : column.isNone ≠ expr.isNone) (htyped : expr.isSome → type.isSome)
    (hvalue : ∀ t ∈ type, (NormalizedType.ofValue? t).isSome) :
    ∃ k, readDimension (.obj fields) = some k ∧ k.name = name ∧ k.column = column ∧
      k.jsonPath = none ∧ k.expr = expr := by
  -- a field that is not stated is not written
  have hget (key : String) : Dict.get fields key =
      if key = "name" then some (.str name)
      else if key = "column" then column.map .str
      else if key = "expr" then expr.map .str
      else if key = "type" then type.map .str
      else Dict.get (describedFields d) key := by
    simp only [hfields, Dict.get_append, get_singleton, get_optionalField]
    by_cases hname : key = "name"
    · simp [hname]
    · by_cases hc : key = "column"
      · simp [hc, get_describedFields]
      · by_cases he : key = "expr"
        · simp [he, get_describedFields]
        · by_cases ht : key = "type" <;> simp [hname, hc, he, ht, get_describedFields]
  have hkeys : ∀ p ∈ fields, p.1 ∈ ["name", "column", "expr", "json_path", "type", "granularity",
      "time_grain", "time_format", "label", "description", "aliases"] := by
    intro p hp
    simp only [hfields, List.mem_append, List.mem_singleton] at hp
    rcases hp with (rfl | hp) | (hp | hp) | hp
    · simp
    · simp [mem_optionalField hp]
    · simp [mem_optionalField hp]
    · simp [mem_optionalField hp]
    · rcases mem_describedFields hp with h | h <;> simp [h]
  have htext (key : String) (value : Option String) (h : Dict.get fields key = value.map .str) :
      readField? Json.asText fields key = some value := by
    rw [readField?, readFieldD, h]
    cases value <;> rfl
  have hdescription := htext "description" (stated d.description)
    (by simp [hget, get_describedFields])
  have haliases : readFieldD (Json.asList Json.asText) [] fields "aliases" = some d.aliases := by
    rw [readFieldD, hget, if_neg (by decide), if_neg (by decide), if_neg (by decide),
      if_neg (by decide), get_describedFields, if_neg (by decide)]
    by_cases ha : d.aliases = []
    · simp [ha]
    · simpa [ha] using asTexts_texts d.aliases
  obtain ⟨t, ht, htype⟩ : ∃ t : Option NormalizedType, t.isSome = type.isSome ∧
      readField? (fun v => v.asText.bind NormalizedType.ofValue?) fields "type" = some t := by
    rw [readField?, readFieldD, hget]
    cases type with
    | none => exact ⟨none, rfl, by simp⟩
    | some text =>
        obtain ⟨t, ht⟩ := Option.isSome_iff_exists.mp (hvalue text rfl)
        exact ⟨some t, rfl, by simp [Json.orNull, Json.asText, ht]⟩
  exact readDimension_eq_some hkeys (by simp [readField, hget, Json.asText])
    (htext "column" column (by simp [hget])) (htext "expr" expr (by simp [hget])) htype
    hdescription haliases (by simp [hget, get_describedFields]) hxor (fun h => ht ▸ htyped h)

/-- **A placed dimension is read back**: its name, its column, and its expression if it has one. -/
theorem readDimension_dump {f : DimensionDraft} (hf : f.Shaped) :
    ∃ k, readDimension f.dump = some k ∧ k.name = f.name ∧ k.column = f.column ∧
      k.jsonPath = none ∧ ∀ e, k.expr = some e ↔ ("expr", Json.str e) ∈ f.rest := by
  rcases hf with ⟨d, c, hcolumn, hrest⟩ | ⟨d, expr, type, hcolumn, hrest, htype⟩
  · obtain ⟨k, hk, hname, hkcolumn, hpath, hexpr⟩ := @readDimension_fields _ f.name (some c) none
      none d rfl (by simp) (by simp) (by simp)
    refine ⟨k, ?_, hname, hkcolumn.trans hcolumn.symm, hpath, fun e => ?_⟩
    · rw [DimensionDraft.dump, hcolumn, hrest]
      exact hk
    · rw [hexpr, hrest]
      simp [expr_not_mem_describedFields]
  · obtain ⟨k, hk, hname, hkcolumn, hpath, hexpr⟩ := @readDimension_fields _ f.name none (some expr)
      (some type) d rfl (by simp) (by simp) (by simpa using htype)
    refine ⟨k, ?_, hname, hkcolumn.trans hcolumn.symm, hpath, fun e => ?_⟩
    · rw [DimensionDraft.dump, hcolumn, hrest]
      exact hk
    · rw [hexpr, hrest]
      simp [expr_not_mem_describedFields, eq_comm]

end Canonic
