import Canonic.Ingestion.Builder
import Canonic.Sql.Traverse

set_option autoImplicit false

/-! # Placing definitions

`ingestion/definitions.py`: modeling definitions folded into the fragments of the relations they are
about. A definition is checked against the introspected schema and either placed or given a reason.
Relations are known by their short names. -/

namespace Canonic

/-! ## Definitions -/

inductive DefinitionEntityType where
  | measure | dimension | model | join | entity | metric
  deriving DecidableEq, Repr

def DefinitionEntityType.value : DefinitionEntityType → String
  | measure => "measure" | dimension => "dimension" | model => "model"
  | join => "join" | entity => "entity" | metric => "metric"

/-- One part of a join, with the predicate where the source states one. -/
structure JoinSpec where
  left : String
  right : String
  relationship : String
  on : Option String := none
  deriving DecidableEq, Repr

/-- A definition of a modeling artifact. -/
structure DefinitionEvidence where
  entity : String
  entityType : DefinitionEntityType
  expr : Option String := none
  column : Option String := none
  additivity : Option String := none
  references : List String := []
  grain : List String := []
  joins : List JoinSpec := []
  description : Option String := none
  aliases : List String := []
  reviewFlags : List String := []
  /-- Whether it carries a proposed binding, and is no matter of the drafts. -/
  isCandidate : Bool := false
  nativeRef : String
  deriving DecidableEq, Repr

/-- What is read by the SQL library. -/
structure DefinitionReader where
  /-- `sqlglot.parse_one(text)`. -/
  parse : String → Option Sql.Expr
  /-- `column.sql()`. -/
  columnSql : Sql.Column → String
  /-- `_expression_type`. -/
  expressionType : String → List ColumnInfo → Option String

/-- The fragments of the relations so far, and the aliases stated for measures. -/
structure DefinitionBuckets where
  resolved : Dict RelationDefinitions := []
  measureAliases : Dict (List String) := []

namespace DefinitionBuckets

/-- `for_relation`. -/
def forRelation (b : DefinitionBuckets) (name : String) : RelationDefinitions :=
  (b.resolved.get name).getD {}

/-- A change of the fragments of one relation. -/
def modify (b : DefinitionBuckets) (name : String)
    (f : RelationDefinitions → RelationDefinitions) : DefinitionBuckets :=
  { b with resolved := b.resolved.set name (f (b.forRelation name)) }

/-- A note that lowers the confidence of a draft. -/
def note (b : DefinitionBuckets) (name : String) (notes : List String) : DefinitionBuckets :=
  b.modify name fun d => { d with reviewNotes := d.reviewNotes ++ notes }

/-- The aliases of a measure, unless some were stated before. -/
def stateAliases (b : DefinitionBuckets) (measure : String) (aliases : List String) :
    DefinitionBuckets :=
  if aliases.isEmpty || b.measureAliases.has measure then b
  else { b with measureAliases := b.measureAliases.set measure aliases }

@[simp] theorem forRelation_stateAliases (b : DefinitionBuckets) (measure : String)
    (aliases : List String) (name : String) :
    (b.stateAliases measure aliases).forRelation name = b.forRelation name := by
  unfold stateAliases
  split <;> rfl

@[simp] theorem forRelation_modify_self (b : DefinitionBuckets) (name : String)
    (f : RelationDefinitions → RelationDefinitions) :
    (b.modify name f).forRelation name = f (b.forRelation name) := by
  simp [modify, forRelation, Dict.get_set]

theorem forRelation_modify_ne (b : DefinitionBuckets) {name other : String} (h : other ≠ name)
    (f : RelationDefinitions → RelationDefinitions) :
    (b.modify name f).forRelation other = b.forRelation other := by
  simp [modify, forRelation, Dict.get_set, h]

end DefinitionBuckets

/-! ## Placing one definition -/

section
variable (lib : DefinitionReader) (relations : Dict RelationSchema)

/-- How a definition is named in a reason. -/
def DefinitionEvidence.label (d : DefinitionEvidence) : String :=
  s!"{d.entityType.value} {pyRepr d.entity} ({d.nativeRef})"

/-- `_single_relation`: the short name of the relation, and its schema. -/
def singleRelation (d : DefinitionEvidence) : Except String (String × RelationSchema) :=
  match d.references with
  | [reference] =>
      let name := lastComponent reference
      match relations.get name with
      | some schema => .ok (name, schema)
      | none => .error s!"{d.label}: no introspected relation {pyRepr name} in this run"
  | _ => .error s!"{d.label} does not name exactly one relation"

/-- The fragment of a measure. -/
def measureFragment (d : DefinitionEvidence) (additivity : String) : MeasureDraft :=
  ⟨d.entity, (stated d.expr).getD d.entity, additivity⟩

/-- `_place_measure`. -/
def placeMeasure (b : DefinitionBuckets) (d : DefinitionEvidence) :
    Option String × DefinitionBuckets :=
  match d.additivity with
  | none => (some s!"{d.label} has unknown additivity; declare it by hand to use it", b)
  | some additivity =>
      match singleRelation relations d with
      | .error reason => (some reason, b)
      | .ok (name, _) =>
          let entry := measureFragment d additivity
          match (b.forRelation name).measures.find? (·.name == d.entity) with
          -- the same entry once more is placed already
          | some existing =>
              if existing = entry then (none, b)
              else (some (s!"{d.label} conflicts with an earlier definition of the same measure " ++
                  s!"on {pyRepr name}"),
                b.note name [s!"measure {d.entity}: conflicting definitions"])
          | none =>
              let placed := b.modify name fun r => { r with measures := r.measures ++ [entry] }
              (none, (placed.stateAliases d.entity d.aliases).note name
                (d.reviewFlags.map fun f => s!"measure {d.entity}: {f}"))

/-- `_bare_column`. -/
def bareColumnName (expr : Option String) : Option String :=
  match (stated expr).bind lib.parse with
  | some (.column c) => some c.name
  | _ => none

/-- The description and the aliases a dimension states. -/
def describedFields (d : DefinitionEvidence) : Content :=
  optionalField "description" (stated d.description) ++
    if d.aliases.isEmpty then [] else [("aliases", .texts d.aliases)]

/-- The fragment of a dimension on a relation, or why there is none. -/
def dimensionFragment (d : DefinitionEvidence) (name : String) (schema : RelationSchema) :
    Except String DimensionDraft :=
  let columns := schema.columns.map (·.name)
  match (stated d.column).or (bareColumnName lib d.expr) with
  | some column =>
      if column ∈ columns then .ok ⟨d.entity, some column, describedFields d⟩
      else .error s!"{d.label}: column {pyRepr column} is not on {pyRepr name}"
  | none =>
      match stated d.expr with
      | none => .error s!"{d.label} has neither a column nor an expression"
      | some expr =>
          match lib.parse expr with
          | none => .error s!"{d.label}: expression does not parse"
          | some parsed =>
              let missing := sortedSet ((parsed.columns.map (·.name)).filter (· ∉ columns))
              if missing ≠ [] then
                .error s!"{d.label}: columns {pyReprList missing} are not on {pyRepr name}"
              else
                match lib.expressionType expr schema.columns with
                | none => .error (s!"{d.label}: the expression's type cannot be inferred; " ++
                    "declare it by hand")
                | some type => .ok ⟨d.entity, none,
                    [("expr", .str expr), ("type", .str type)] ++ describedFields d⟩

/-- `_place_dimension`. -/
def placeDimension (b : DefinitionBuckets) (d : DefinitionEvidence) :
    Option String × DefinitionBuckets :=
  match singleRelation relations d with
  | .error reason => (some reason, b)
  | .ok (name, schema) =>
      match dimensionFragment lib d name schema with
      | .error reason => (some reason, b)
      | .ok fragment =>
          match (b.forRelation name).dimensions.find? (·.name == d.entity) with
          | some existing =>
              if existing = fragment then (none, b)
              else (some (s!"{d.label} conflicts with an earlier definition of the same " ++
                  s!"dimension on {pyRepr name}"),
                b.note name [s!"dimension {d.entity}: conflicting definitions"])
          | none =>
              (none, b.modify name fun r => { r with dimensions := r.dimensions ++ [fragment] })

/-- What is wrong with one column of a join predicate. -/
def predicateProblem (left right : String) (source target : RelationSchema) (c : Sql.Column) :
    Option String :=
  let side := if c.table = right then some target else if c.table = left then some source else none
  match side with
  | none => some
      s!"join predicate column {pyRepr (lib.columnSql c)} is not qualified by either side"
  | some schema =>
      if c.name ∈ schema.columns.map (·.name) then none
      else some s!"join predicate column {pyRepr (lib.columnSql c)} does not exist"

/-- `_check_predicate`. -/
def checkPredicate (on left right : String) (source target : RelationSchema) : Option String :=
  match lib.parse on with
  | none => some s!"join predicate {pyRepr on} does not parse"
  | some parsed => parsed.columns.findSome? (predicateProblem lib left right source target)

/-- The parts of a join that state their predicate. -/
def DefinitionEvidence.parts (d : DefinitionEvidence) : List (JoinSpec × String) :=
  d.joins.filterMap fun j => (stated j.on).map fun on => (j, on)

def joinFragment (p : JoinSpec × String) : JoinFragment :=
  { to_ := p.1.right, on := p.2, relationship := p.1.relationship }

/-- One part of a join, checked against both relations. -/
def checkPart (d : DefinitionEvidence) (p : JoinSpec × String) : Option String :=
  match relations.get p.1.left, relations.get p.1.right with
  | none, _ => some s!"{d.label}: no introspected relation {pyRepr p.1.left} in this run"
  | some _, none => some s!"{d.label}: no introspected relation {pyRepr p.1.right} in this run"
  | some source, some target =>
      if source.connection ≠ target.connection then
        some (s!"{d.label} crosses connections {pyRepr source.connection} and " ++
          pyRepr target.connection)
      else (checkPredicate lib p.2 p.1.left p.1.right source target).map fun problem =>
        s!"{d.label}: {problem}"

/-- One part of a join that passed. -/
def addPart (b : DefinitionBuckets) (d : DefinitionEvidence) (p : JoinSpec × String) :
    DefinitionBuckets :=
  let placed := b.modify p.1.left fun r =>
    if joinFragment p ∈ r.joins then r else { r with joins := r.joins ++ [joinFragment p] }
  placed.note p.1.left (d.reviewFlags.map fun f => s!"join {d.entity}: {f}")

/-- The loop of `_place_join`: each part is placed before the next one is looked at. -/
def placeParts (d : DefinitionEvidence) :
    DefinitionBuckets → List (JoinSpec × String) → Option String × DefinitionBuckets
  | b, [] => (none, b)
  | b, p :: ps =>
      match checkPart lib relations d p with
      | some reason => (some reason, b)
      | none => placeParts d (addPart b d p) ps

/-- One relation of an entity: the first grain stays. -/
def placeGrain (grain : List String) (b : DefinitionBuckets) (reference : String) :
    DefinitionBuckets :=
  b.modify (lastComponent reference) fun r =>
    if !grain.isEmpty && r.grain.isEmpty then { r with grain := grain } else r

/-- `_place`. -/
def placeDefinition (b : DefinitionBuckets) (d : DefinitionEvidence) :
    Option String × DefinitionBuckets :=
  match d.entityType with
  | .measure => placeMeasure relations b d
  | .dimension => placeDimension lib relations b d
  | .join => placeParts lib relations d b d.parts
  | .entity => (none, d.references.foldl (placeGrain d.grain) b)
  | .model => (none, match stated d.description with
      | some text => b.modify (lastComponent d.entity) fun r => { r with description := some text }
      | none => b)
  | .metric => (none, b)

/-! ## Placing every definition -/

/-- A definition with the source of its evidence. -/
structure PendingDefinition where
  source : String
  definition : DefinitionEvidence

/-- What became of the definitions of a run. -/
structure Resolution where
  buckets : DefinitionBuckets := {}
  unplaced : List (String × String) := []
  candidates : List PendingDefinition := []

/-- One round of `resolve`. -/
def resolveStep (r : Resolution) (p : PendingDefinition) : Resolution :=
  if p.definition.isCandidate then { r with candidates := r.candidates ++ [p] }
  else
    let placed := placeDefinition lib relations r.buckets p.definition
    { r with
      buckets := placed.2
      unplaced := r.unplaced ++ placed.1.toList.map fun reason => (p.source, reason) }

/-- `resolve`, after the definitions whose payload was invalid. -/
def resolveDefinitions (invalid : List (String × String)) (ps : List PendingDefinition) :
    Resolution :=
  ps.foldl (resolveStep lib relations) { unplaced := invalid }

end

/-! ## What is checked -/

/-- A dimension reads declared columns only. -/
structure DimensionDraft.ReadsOnly (lib : DefinitionReader) (schema : RelationSchema)
    (f : DimensionDraft) : Prop where
  column : ∀ c, f.column = some c → c ∈ schema.columns.map (·.name)
  expr : ∀ text, ("expr", Json.str text) ∈ f.rest → ∃ e, lib.parse text = some e ∧
    ∀ c ∈ e.columns, c.name ∈ schema.columns.map (·.name)

section
variable {lib : DefinitionReader} {relations : Dict RelationSchema}

theorem singleRelation_eq_ok {d : DefinitionEvidence} {p : String × RelationSchema}
    (h : singleRelation relations d = .ok p) :
    ∃ r, d.references = [r] ∧ p.1 = lastComponent r ∧ relations.get p.1 = some p.2 := by
  unfold singleRelation at h
  split at h
  next r href =>
    dsimp only at h
    split at h
    next schema hschema =>
      obtain rfl := Except.ok.inj h
      exact ⟨r, href, rfl, hschema⟩
    · simp at h
  · simp at h

theorem expr_not_mem_describedFields (d : DefinitionEvidence) (value : Json) :
    ("expr", value) ∉ describedFields d := by
  intro h
  rcases List.mem_append.mp h with h | h
  · unfold optionalField at h
    cases hs : stated d.description <;> simp [hs] at h
  · split at h <;> simp at h

theorem dimensionFragment_name {d : DefinitionEvidence} {name : String}
    {schema : RelationSchema} {f : DimensionDraft}
    (h : dimensionFragment lib d name schema = .ok f) : f.name = d.entity := by
  unfold dimensionFragment at h
  dsimp only at h
  split at h
  · split at h
    · rw [← Except.ok.inj h]
    · simp at h
  · split at h
    · simp at h
    · split at h
      · simp at h
      · split at h
        · simp at h
        · split at h
          · simp at h
          · rw [← Except.ok.inj h]

/-- **A dimension is checked before it is placed.** -/
theorem dimensionFragment_readsOnly {d : DefinitionEvidence} {name : String}
    {schema : RelationSchema} {f : DimensionDraft}
    (h : dimensionFragment lib d name schema = .ok f) : f.ReadsOnly lib schema := by
  unfold dimensionFragment at h
  dsimp only at h
  split at h
  next column _ =>
    split at h
    next hcolumn =>
      obtain rfl := Except.ok.inj h
      refine ⟨fun c hc => ?_, fun text ht => absurd ht (expr_not_mem_describedFields d _)⟩
      obtain rfl := Option.some.inj hc
      exact hcolumn
    · simp at h
  · split at h
    · simp at h
    next expr _ =>
      split at h
      · simp at h
      next parsed hparse =>
        split at h
        · simp at h
        next hmissing =>
          split at h
          · simp at h
          · obtain rfl := Except.ok.inj h
            refine ⟨fun c hc => by simp at hc, fun text ht => ?_⟩
            obtain rfl : text = expr := by
              rcases List.mem_append.mp ht with ht | ht
              · simpa using ht
              · exact absurd ht (expr_not_mem_describedFields d _)
            refine ⟨parsed, hparse, fun c hc => ?_⟩
            by_contra hn
            have hmem : c.name ∈ sortedSet ((parsed.columns.map (·.name)).filter
                (· ∉ schema.columns.map (·.name))) :=
              mem_sortedSet.mpr (List.mem_filter.mpr
                ⟨List.mem_map_of_mem hc, decide_eq_true hn⟩)
            exact hmissing (List.ne_nil_of_mem hmem)

end

end Canonic
