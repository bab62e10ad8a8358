import Canonic.Except
import Canonic.Json
import Canonic.Semantic.TimeFormat

set_option autoImplicit false

/-! # Reading semantic sources

`SemanticSource.model_validate`: the models of `semantic/models.py` read from the fields of a file,
and then the references between them. A record has the fields of its model and no others; values are
taken as they stand, and of `meta` only the fingerprints are looked at. -/

namespace Canonic

/-! ## Enumerations -/

def NormalizedType.all : List NormalizedType :=
  [.string, .int, .decimal, .float, .bool, .date, .timestamp, .json]

def NormalizedType.ofValue? (text : String) : Option NormalizedType :=
  NormalizedType.all.find? fun t => t.value == text

def Additivity.ofValue? (text : String) : Option Additivity :=
  [Additivity.additive, .semiAdditive, .nonAdditive].find? fun a => a.value == text

def Relationship.value : Relationship → String
  | oneToOne => "one_to_one" | manyToOne => "many_to_one"
  | oneToMany => "one_to_many" | manyToMany => "many_to_many"

def Relationship.ofValue? (text : String) : Option Relationship :=
  [Relationship.oneToOne, .manyToOne, .oneToMany, .manyToMany].find? fun r => r.value == text

def PeriodGrain.ofValue? (text : String) : Option PeriodGrain :=
  [PeriodGrain.hour, .day, .week, .month, .quarter, .year].find? fun g => g.value == text

/-! ## Fields -/

/-- The fields of a record that has no others. -/
def Json.record (allowed : List String) : Json → Option Content
  | .obj fields => if ∀ f ∈ fields, f.1 ∈ allowed then some fields else none
  | _ => none

def Json.asText : Json → Option String
  | .str s => some s
  | _ => none

/-- A field that has to be there. -/
def readField {α : Type} (read : Json → Option α) (fields : Content) (key : String) : Option α :=
  (fields.get key).bind read

/-- A field with a default. -/
def readFieldD {α : Type} (read : Json → Option α) (default : α) (fields : Content)
    (key : String) : Option α :=
  (fields.get key).elim (some default) read

/-- A value or `None`. -/
def Json.orNull {α : Type} (read : Json → Option α) : Json → Option (Option α)
  | .null => some none
  | value => (read value).map some

/-- A field that may be absent or `None`. -/
def readField? {α : Type} (read : Json → Option α) (fields : Content) (key : String) :
    Option (Option α) :=
  readFieldD (Json.orNull read) none fields key

def Json.asBool : Json → Option Bool
  | .bool b => some b
  | _ => none

def Json.asList {α : Type} (read : Json → Option α) : Json → Option (List α)
  | .arr items => items.mapM read
  | _ => none

/-! ## Models -/

def readColumn (value : Json) : Option Column := do
  let fields ← value.record ["name", "type", "nullable"]
  let name ← readField Json.asText fields "name"
  let type ← (readField Json.asText fields "type").bind NormalizedType.ofValue?
  let nullable ← readFieldD Json.asBool true fields "nullable"
  return { name, type, nullable }

def readMeasure (value : Json) : Option Measure := do
  let fields ← value.record ["name", "expr", "additivity", "semi_additive_over"]
  let name ← readField Json.asText fields "name"
  let expr ← readField Json.asText fields "expr"
  let additivity ← readFieldD (fun v => v.asText.bind Additivity.ofValue?) .additive fields
    "additivity"
  let semiAdditiveOver ← readFieldD (Json.asList Json.asText) [] fields "semi_additive_over"
  return { name, expr, additivity, semiAdditiveOver }

/-- `_JSON_KEY_FORBIDDEN`: control characters, quotes and the backslash. -/
def isForbiddenInKey (c : Char) : Bool := c.toNat < 32 || c.toNat ∈ [127, 39, 34, 92]

/-- `_validate_json_path`, for a path without an expression beside it. -/
def isJsonPath (path : List String) : Bool :=
  !path.isEmpty && path.all fun segment => segment ≠ "" && !segment.toList.any isForbiddenInKey

/-- `_validate_time_grain`. -/
def isTimeGrain (timeGrain timeFormat : Option String) : Bool :=
  match timeGrain with
  | none => timeFormat.isNone
  | some text =>
      match PeriodGrain.ofValue? text with
      | none => false
      | some grain => timeFormat.all fun format => (TimeFormat.compile format grain).isOk

/-- A bucketed value is a time. -/
def isBucketed (derived : Bool) (granularity : Option String) (type : Option NormalizedType) :
    Bool :=
  !derived || granularity.isNone || type.any NormalizedType.isTime

def readDimension (value : Json) : Option Dimension := do
  let fields ← value.record ["name", "column", "expr", "json_path", "type", "granularity",
    "time_grain", "time_format", "label", "description", "aliases"]
  let name ← readField Json.asText fields "name"
  let column ← readField? Json.asText fields "column"
  let expr ← readField? Json.asText fields "expr"
  let jsonPath ← readField? (Json.asList Json.asText) fields "json_path"
  let type ← readField? (fun v => v.asText.bind NormalizedType.ofValue?) fields "type"
  let granularity ← readField? Json.asText fields "granularity"
  let timeGrain ← readField? Json.asText fields "time_grain"
  let timeFormat ← readField? Json.asText fields "time_format"
  let label ← readField? Json.asText fields "label"
  let _ ← readField? Json.asText fields "description"
  let aliases ← readFieldD (Json.asList Json.asText) [] fields "aliases"
  if h : column.isNone ≠ expr.isNone ∧ (jsonPath.isSome → expr.isNone) ∧
      ((expr.isSome || jsonPath.isSome) → type.isSome) then
    if jsonPath.all isJsonPath && isTimeGrain timeGrain timeFormat &&
        isBucketed (expr.isSome || jsonPath.isSome) granularity type then
      return { name, column, expr, jsonPath, type, granularity, timeGrain, timeFormat, label,
               aliases
               column_xor_expr := h.1
               jsonPath_column := h.2.1
               derived_type := h.2.2 }
    else none
  else none

def readJoin (value : Json) : Option Join := do
  let fields ← value.record ["to", "on", "relationship", "name"]
  let to_ ← readField Json.asText fields "to"
  let on ← readField Json.asText fields "on"
  let relationship ← (readField Json.asText fields "relationship").bind Relationship.ofValue?
  let name ← readField? Json.asText fields "name"
  return { to_, on, relationship, name }

/-- A named predicate, and a watermark: nothing refers to them here. -/
def readFilter (value : Json) : Option (String × String) := do
  let fields ← value.record ["name", "expr"]
  return (← readField Json.asText fields "name", ← readField Json.asText fields "expr")

def readFinality (value : Json) : Option (Option String) := do
  readField? Json.asText (← value.record ["watermark"]) "watermark"

/-- The fingerprints of `meta`, which may have any fields. -/
def readMeta : Json → Option (Option String × Option String)
  | .obj fields => do
      return (← readField? Json.asText fields "source_fingerprint",
        ← readField? Json.asText fields "definition_fingerprint")
  | _ => none

/-- The fields of a source, each well formed on its own. -/
structure SourceFields where
  name : String
  connection : String
  table : String
  grain : List String
  columns : List Column
  measures : List Measure := []
  dimensions : List Dimension := []
  joins : List Join := []
  deriving DecidableEq

def readSource (content : Content) : Option SourceFields := do
  let fields ← (Json.obj content).record ["name", "connection", "table", "grain", "columns",
    "measures", "dimensions", "joins", "filters", "segments", "finality", "meta", "description"]
  let name ← readField Json.asText fields "name"
  let connection ← readField Json.asText fields "connection"
  let table ← readField Json.asText fields "table"
  let grain ← readField (Json.asList Json.asText) fields "grain"
  let columns ← readField (Json.asList readColumn) fields "columns"
  let measures ← readFieldD (Json.asList readMeasure) [] fields "measures"
  let dimensions ← readFieldD (Json.asList readDimension) [] fields "dimensions"
  let joins ← readFieldD (Json.asList readJoin) [] fields "joins"
  let _ ← readFieldD (Json.asList readFilter) [] fields "filters"
  let _ ← readFieldD (Json.asList some) [] fields "segments"
  let _ ← readFieldD readFinality none fields "finality"
  let _ ← readFieldD readMeta (none, none) fields "meta"
  let _ ← readField? Json.asText fields "description"
  return { name, connection, table, grain, columns, measures, dimensions, joins }

/-! ## References -/

/-- A step of the path to a field. -/
inductive PathPart where
  | key (name : String)
  | index (i : Nat)
  deriving DecidableEq, Repr

/-- A failure that concerns one field. -/
structure SemanticValidationError where
  path : List PathPart
  message : String
  deriving DecidableEq, Repr

/-- The outcome of a check of references. -/
abbrev Referred := Except SemanticValidationError

/-- `_reject_duplicates`, from the position `i` on. -/
def rejectDuplicates (yamlKey kind : String) : Nat → List String → List String → Referred Unit
  | _, _, [] => .ok ()
  | i, seen, n :: ns =>
      if n ∈ seen then
        .error ⟨[.key yamlKey, .index i], s!"duplicate {kind} name {pyRepr n}"⟩
      else rejectDuplicates yamlKey kind (i + 1) (n :: seen) ns

section
variable (parse : String → Option Sql.Expr)

/-- The columns an expression refers to, each of them declared. What the SQL library says of a text
that does not parse is left out of the message. -/
def checkColumns (columns : List String) (path : List PathPart) (what expr : String) :
    Referred Unit :=
  match parse expr with
  | none => .error ⟨path, s!"cannot parse expression {pyRepr expr}"⟩
  | some parsed => (sortedSet (parsed.columns.map (·.name))).forM fun ref =>
      if ref ∈ columns then .ok ()
      else .error ⟨path, s!"{what} references undeclared column {pyRepr ref}"⟩

def checkGrain (columns : List String) (g : String × Nat) : Referred Unit :=
  if g.1 ∈ columns then .ok ()
  else .error ⟨[.key "grain", .index g.2], s!"grain column {pyRepr g.1} is not a declared column"⟩

def checkDimension (columns : List Column) (d : Dimension × Nat) : Referred Unit :=
  match d.1.column with
  | some name =>
      match columns.find? fun c => c.name == name with
      | none => .error ⟨[.key "dimensions", .index d.2, .key "column"],
          s!"dimension {pyRepr d.1.name} references undeclared column {pyRepr name}"⟩
      | some c =>
          if d.1.jsonPath.isSome ∧ c.type ≠ .json then
            .error ⟨[.key "dimensions", .index d.2, .key "json_path"],
              s!"dimension {pyRepr d.1.name} sets 'json_path' on column {pyRepr name} of type " ++
                s!"{pyRepr c.type.value}; it must be a json column"⟩
          else .ok ()
  | none => d.1.expr.elim (.ok ()) (checkColumns parse (columns.map (·.name))
      [.key "dimensions", .index d.2, .key "expr"] s!"dimension {pyRepr d.1.name}")

def checkMeasure (columns : List String) (m : Measure × Nat) : Referred Unit :=
  checkColumns parse columns [.key "measures", .index m.2, .key "expr"]
    s!"measure {pyRepr m.1.name}" m.1.expr

/-- `_validate_references`. -/
def validateReferences (s : SourceFields) : Referred Unit := do
  let columns := s.columns.map (·.name)
  rejectDuplicates "columns" "column" 0 [] columns
  rejectDuplicates "measures" "measure" 0 [] (s.measures.map (·.name))
  rejectDuplicates "dimensions" "dimension" 0 [] (s.dimensions.map (·.name))
  rejectDuplicates "joins" "join alias" 0 [] (s.joins.map Join.alias_)
  s.grain.zipIdx.forM (checkGrain columns)
  s.dimensions.zipIdx.forM (checkDimension parse s.columns)
  s.measures.zipIdx.forM (checkMeasure parse columns)

/-- A text that parses, to references of these columns only. -/
def ReadsColumns (columns : List String) (expr : String) : Prop :=
  ∃ parsed, parse expr = some parsed ∧ ∀ c ∈ parsed.columns, c.name ∈ columns

/-- The references of a source hold: names are distinct and what is referred to is declared. -/
structure SourceFields.Valid (s : SourceFields) : Prop where
  columns_nodup : (s.columns.map (·.name)).Nodup
  measures_nodup : (s.measures.map (·.name)).Nodup
  dimensions_nodup : (s.dimensions.map (·.name)).Nodup
  joins_nodup : (s.joins.map Join.alias_).Nodup
  grain_declared : ∀ g ∈ s.grain, g ∈ s.columns.map (·.name)
  dimensions_declared : ∀ d ∈ s.dimensions, ∀ name ∈ d.column, ∃ c,
    s.columns.find? (fun c => c.name == name) = some c ∧ (d.jsonPath.isSome → c.type = .json)
  dimensions_read : ∀ d ∈ s.dimensions, ∀ e ∈ d.expr,
    ReadsColumns parse (s.columns.map (·.name)) e
  measures_read : ∀ m ∈ s.measures, ReadsColumns parse (s.columns.map (·.name)) m.expr

/-! ## What the checks accept -/

theorem rejectDuplicates_eq_ok {yamlKey kind : String} {i : Nat} {seen names : List String} :
    rejectDuplicates yamlKey kind i seen names = .ok () ↔
      names.Nodup ∧ ∀ n ∈ names, n ∉ seen := by
  induction names generalizing i seen with
  | nil => simp [rejectDuplicates]
  | cons n ns ih =>
      rw [rejectDuplicates]
      by_cases hn : n ∈ seen
      · simp [hn]
      · rw [if_neg hn, ih, List.nodup_cons]
        constructor
        · rintro ⟨hns, hseen⟩
          refine ⟨⟨fun hmem => hseen n hmem List.mem_cons_self, hns⟩, fun m hm => ?_⟩
          rcases List.mem_cons.mp hm with rfl | hm
          · exact hn
          · exact fun h => hseen m hm (List.mem_cons_of_mem n h)
        · rintro ⟨⟨hnot, hns⟩, hseen⟩
          refine ⟨hns, fun m hm h => ?_⟩
          rcases List.mem_cons.mp h with rfl | h
          · exact hnot hm
          · exact hseen m (List.mem_cons_of_mem n hm) h

variable {parse}

theorem forM_eq_ok_iff {α ε : Type} {f : α → Except ε Unit} {l : List α} :
    l.forM f = .ok () ↔ ∀ a ∈ l, f a = .ok () :=
  ⟨forM_eq_ok, forM_ok_of_forall⟩

/-- A check and what follows it. -/
theorem check_bind_eq_ok {ε β : Type} {x : Except ε Unit} {f : Unit → Except ε β} {b : β} :
    (x >>= f) = .ok b ↔ x = .ok () ∧ f () = .ok b := by
  rw [bind_eq_ok]
  exact ⟨fun ⟨_, h⟩ => h, fun h => ⟨(), h⟩⟩

/-- A check of every element that does not depend on its position. -/
theorem forM_zipIdx_eq_ok {α ε : Type} {f : α × Nat → Except ε Unit} {P : α → Prop} {l : List α}
    (h : ∀ a ∈ l, ∀ i, f (a, i) = .ok () ↔ P a) : l.zipIdx.forM f = .ok () ↔ ∀ a ∈ l, P a := by
  rw [forM_eq_ok_iff]
  constructor
  · intro hall a ha
    rw [← List.zipIdx_map_fst 0 l] at ha
    obtain ⟨⟨b, i⟩, hmem, rfl⟩ := List.mem_map.mp ha
    exact (h b (List.fst_mem_of_mem_zipIdx hmem) i).mp (hall (b, i) hmem)
  · rintro hall ⟨a, i⟩ hmem
    have ha := List.fst_mem_of_mem_zipIdx hmem
    exact (h a ha i).mpr (hall a ha)

theorem checkColumns_eq_ok {columns : List String} {path : List PathPart} {what expr : String} :
    checkColumns parse columns path what expr = .ok () ↔ ReadsColumns parse columns expr := by
  unfold checkColumns ReadsColumns
  cases parse expr with
  | none => simp
  | some parsed =>
      have hone (ref : String) : ((if ref ∈ columns then .ok () else
          .error ⟨path, s!"{what} references undeclared column {pyRepr ref}"⟩ :
            Referred Unit) = .ok ()) ↔ ref ∈ columns := by
        by_cases href : ref ∈ columns <;> simp [href]
      simp only [forM_eq_ok_iff, hone, mem_sortedSet, List.mem_map, Option.some.injEq,
        exists_eq_left']
      exact ⟨fun h c hc => h c.name ⟨c, hc, rfl⟩, fun h ref ⟨c, hc, href⟩ => href ▸ h c hc⟩

theorem checkDimension_eq_ok {columns : List Column} {d : Dimension} {i : Nat} :
    checkDimension parse columns (d, i) = .ok () ↔
      (∀ name ∈ d.column, ∃ c, columns.find? (fun c => c.name == name) = some c ∧
        (d.jsonPath.isSome → c.type = .json)) ∧
      ∀ e ∈ d.expr, ReadsColumns parse (columns.map (·.name)) e := by
  unfold checkDimension
  have hxor := d.column_xor_expr
  cases hcolumn : d.column with
  | none =>
      cases hexpr : d.expr with
      | none => simp [hcolumn, hexpr] at hxor
      | some e => simp [checkColumns_eq_ok]
  | some name =>
      have hexpr : d.expr = none := by
        cases hexpr : d.expr with
        | none => rfl
        | some e => simp [hcolumn, hexpr] at hxor
      cases hfind : columns.find? fun c => c.name == name with
      | none => simp [hexpr, hfind]
      | some c => simp [hexpr, hfind]

/-- **References.** The check accepts exactly the fields whose references hold. -/
theorem validateReferences_eq_ok {s : SourceFields} :
    validateReferences parse s = .ok () ↔ s.Valid parse := by
  have hgrain : s.grain.zipIdx.forM (checkGrain (s.columns.map (·.name))) = .ok () ↔
      ∀ g ∈ s.grain, g ∈ s.columns.map (·.name) :=
    forM_zipIdx_eq_ok fun g _ i => by
      unfold checkGrain
      by_cases hg : g ∈ s.columns.map (·.name) <;> simp [hg]
  have hdimensions := @forM_zipIdx_eq_ok _ _ (checkDimension parse s.columns) _ s.dimensions
    fun d _ i => checkDimension_eq_ok
  have hmeasures : s.measures.zipIdx.forM (checkMeasure parse (s.columns.map (·.name))) = .ok () ↔
      ∀ m ∈ s.measures, ReadsColumns parse (s.columns.map (·.name)) m.expr :=
    forM_zipIdx_eq_ok fun m _ i => checkColumns_eq_ok
  unfold validateReferences
  simp only [check_bind_eq_ok, rejectDuplicates_eq_ok, hgrain, hdimensions, hmeasures,
    List.not_mem_nil, not_false_eq_true, implies_true, and_true]
  constructor
  · rintro ⟨hc, hm, hd, hj, hg, hdim, hmeas⟩
    exact ⟨hc, hm, hd, hj, hg, fun d h => (hdim d h).1, fun d h => (hdim d h).2, hmeas⟩
  · intro h
    exact ⟨h.columns_nodup, h.measures_nodup, h.dimensions_nodup, h.joins_nodup, h.grain_declared,
      fun d hd => ⟨h.dimensions_declared d hd, h.dimensions_read d hd⟩, h.measures_read⟩

/-- Fields whose references hold are a source. -/
def SourceFields.toSource (s : SourceFields) (h : s.Valid parse) : SemanticSource where
  name := s.name
  connection := s.connection
  table := s.table
  grain := s.grain
  columns := s.columns
  measures := s.measures
  dimensions := s.dimensions
  joins := s.joins
  columns_nodup := h.columns_nodup
  measures_nodup := h.measures_nodup
  dimensions_nodup := h.dimensions_nodup
  joins_nodup := h.joins_nodup
  grain_declared := h.grain_declared
  dimensions_declared d hd name hname := by
    obtain ⟨c, hc, -⟩ := h.dimensions_declared d hd name hname
    exact List.mem_map.mpr ⟨c, List.mem_of_find?_eq_some hc, by simpa using List.find?_some hc⟩

variable (parse)

/-- Why a content is no source: a field that is malformed on its own, or a reference. -/
inductive ModelError where
  | malformed
  | reference (e : SemanticValidationError)
  deriving DecidableEq, Repr

/-- `SemanticSource.model_validate`. -/
def SemanticSource.modelValidate (content : Content) : Except ModelError SemanticSource :=
  match readSource content with
  | none => .error .malformed
  | some s =>
      match h : validateReferences parse s with
      | .error e => .error (.reference e)
      | .ok () => .ok (s.toSource (validateReferences_eq_ok.mp h))

variable {parse}

/-- **A content is accepted** exactly when its fields are well formed and its references hold. -/
theorem modelValidate_isOk {content : Content} :
    (SemanticSource.modelValidate parse content).isOk ↔
      ∃ s, readSource content = some s ∧ s.Valid parse := by
  unfold SemanticSource.modelValidate
  cases hread : readSource content with
  | none => simp [Except.isOk, Except.toBool]
  | some s =>
      simp only [Option.some.injEq, exists_eq_left']
      rw [← validateReferences_eq_ok]
      split
      next e h => simp [h, Except.isOk, Except.toBool]
      next h => simp [h, Except.isOk, Except.toBool]

end

end Canonic
