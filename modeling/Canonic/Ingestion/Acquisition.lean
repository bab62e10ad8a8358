import Canonic.Ingestion.Probe

set_option autoImplicit false

/-! # The acquisition ladder

`connectors/acquisition.py`: the schemas of a connection are taken from live introspection first,
then from DDL, from a schema file and from semantic sources, in this order. A schema from below is
only taken for a relation that has none yet, and it is compared with the live relation before.

`acquire_outcome` says what comes out: for every relation the schema that is highest on the ladder,
or the error of the first schema that the live relation contradicts; what no step had is reported.
-/

namespace Canonic

/-! ## Schemas from below -/

/-- A schema with its `last_validated_at`. -/
structure StampedSchema where
  schema : RelationSchema
  lastValidatedAt : Option Int := none

/-- The relation a schema is of. -/
def StampedSchema.relation (s : StampedSchema) : String := s.schema.relation

/-- The types of DDL columns that `_DDL_TYPE_MAP` knows, and the others. -/
inductive DdlType where
  | tinyint | smallint | int | bigint | decimal | float | double | boolean | char | varchar | text
  | uuid | date | timestamp | timestamptz | datetime | json | jsonb
  | other (name : String)
  deriving DecidableEq, Repr

/-- `_DDL_TYPE_MAP`. -/
def normalizedTypeOf : DdlType → Option String
  | .tinyint | .smallint | .int | .bigint => some "int"
  | .decimal => some "decimal"
  | .float | .double => some "float"
  | .boolean => some "bool"
  | .char | .varchar | .text | .uuid => some "string"
  | .date => some "date"
  | .timestamp | .timestamptz | .datetime => some "timestamp"
  | .json | .jsonb => some "json"
  | .other _ => none

/-- `_normalize_ddl_type`. -/
def normalizeDdlType (kind : Option DdlType) : String := (kind.bind normalizedTypeOf).getD "json"

/-- A column of a `CREATE TABLE`, with its constraints. -/
structure ColumnDef where
  name : String
  kind : Option DdlType
  notNull : Bool := false
  primaryKey : Bool := false

/-- A `CREATE TABLE` with a column list; the other statements are skipped. -/
structure CreateTable where
  db : String
  name : String
  columns : List ColumnDef
  /-- The columns of its `PRIMARY KEY` clauses. -/
  primaryKey : List String := []

/-- One table of `relations_from_ddl`. -/
def CreateTable.schema (hash : Json → String) (connection : String) (t : CreateTable) :
    RelationSchema :=
  let primaryKey := t.primaryKey ++ (t.columns.filter (·.primaryKey)).map (·.name)
  let columns := (t.columns.zipIdx 1).map fun c =>
    { name := c.1.name, type := normalizeDdlType c.1.kind,
      nullable := !(c.1.notNull || decide (c.1.name ∈ primaryKey)), position := some c.2 :
        ColumnInfo }
  { connection := connection
    relation := if t.db.isEmpty then t.name else t.db ++ "." ++ t.name
    kind := .table, columns := columns, primaryKey := primaryKey, acquisitionTier := .declarative
    sourceFingerprint := some (computeFingerprint hash columns primaryKey []) }

/-- `relations_from_ddl`. -/
def relationsFromDdl (hash : Json → String) (tables : List CreateTable) (connection : String) :
    List StampedSchema := tables.map fun t => { schema := t.schema hash connection }

/-- `relations_from_schema_yaml`: the tier and the fingerprint of the file do not count. -/
def relationsFromSchemaYaml (hash : Json → String) (docs : List StampedSchema) :
    List StampedSchema :=
  docs.map fun d => { d with schema := { d.schema with
    acquisitionTier := .declarative
    sourceFingerprint :=
      some (computeFingerprint hash d.schema.columns d.schema.primaryKey d.schema.foreignKeys) } }

/-- `relations_from_semantic_sources`. -/
def relationsFromSemanticSources (hash : Json → String) (sources : List SemanticSource) :
    List StampedSchema :=
  sources.map fun s =>
    let columns := s.columns.map fun c =>
      { name := c.name, type := c.type.value, nullable := c.nullable : ColumnInfo }
    { schema := {
        connection := s.connection, relation := s.table, kind := .table, columns := columns
        primaryKey := s.grain, acquisitionTier := .handAuthored
        sourceFingerprint := some (computeFingerprint hash columns s.grain []) } }

/-! ## The ladder -/

/-- What `acquire` raises. -/
inductive AcquireError where
  | value (message : String)
  | schemaMismatch (message : String)
  deriving DecidableEq, Repr

/-- The connector of a ladder and what it calls besides. -/
structure Ladder where
  /-- `introspect_schema`; `none` is a connector without the capability. -/
  introspect : Option (Except String (List StampedSchema))
  connector : Connector
  /-- The digest of a payload's text. -/
  hash : Json → String
  /-- The time a schema is probed at. -/
  now : RelationSchema → Int

/-- The arguments of `acquire`. DDL that does not parse and a file that is not a schema raise. -/
structure AcquireRequest where
  connection : Option String := none
  expectedRelations : Option (List String) := none
  ddl : Option (Except String (List CreateTable)) := none
  schemaYaml : Option (Except String (List StampedSchema)) := none
  semanticSources : List SemanticSource := []
  probe : Bool := true

/-- `AcquisitionResult`, with the relations of its gap report. -/
structure AcquisitionResult where
  schemas : List StampedSchema
  missingRelations : List String

/-- The schemas below introspection, from the top. -/
def AcquireRequest.supplements (req : AcquireRequest) (hash : Json → String) :
    Except AcquireError (List StampedSchema) := do
  let fromDdl ← match req.ddl, req.connection with
    | none, _ => .ok []
    | some _, none => .error (.value "connection is required to acquire schema from DDL")
    | some (.error message), some _ => .error (.value message)
    | some (.ok tables), some connection => .ok (relationsFromDdl hash tables connection)
  let fromYaml ← match req.schemaYaml with
    | none => .ok []
    | some (.error message) => .error (.value message)
    | some (.ok docs) => .ok (relationsFromSchemaYaml hash docs)
  return fromDdl ++ fromYaml ++ relationsFromSemanticSources hash req.semanticSources

namespace Ladder

variable (l : Ladder)

/-- The live schemas; a catalog that is blocked has none. -/
def live : List StampedSchema :=
  match l.introspect with
  | some (.ok schemas) => schemas
  | _ => []

/-- The stamped copy of a schema that matches. -/
def validated (s : StampedSchema) : StampedSchema where
  schema := { s.schema with
    sourceFingerprint :=
      some (computeFingerprint l.hash s.schema.columns s.schema.primaryKey s.schema.foreignKeys) }
  lastValidatedAt := some (l.now s.schema)

/-- The loop over the supplements. -/
def climb (probe : Bool) : Dict StampedSchema → List StampedSchema →
    Except AcquireError (Dict StampedSchema)
  | acquired, [] => .ok acquired
  | acquired, s :: supplements =>
      if acquired.has s.relation then climb probe acquired supplements
      else if probe then
        let result := probeSchema l.connector s.schema
        if result.ok then climb probe (Dict.set acquired s.relation (l.validated s)) supplements
        else .error (.schemaMismatch result.diff)
      else climb probe (Dict.set acquired s.relation s) supplements

/-- `AcquisitionLadder.acquire`. -/
def acquire (req : AcquireRequest) : Except AcquireError AcquisitionResult := do
  let supplements ← req.supplements l.hash
  let acquired ← l.climb req.probe (Dict.indexBy StampedSchema.relation l.live) supplements
  let relations := acquired.map (·.1)
  return { schemas := (sortedSet relations).filterMap acquired.get
           missingRelations := sortedSet
             ((req.expectedRelations.getD []).filter fun r => !acquired.has r) }

end Ladder

/-! ## The probe -/

/-- The live relation has every declared column, with the declared type. -/
def Observed (connector : Connector) (schema : RelationSchema) : Prop :=
  ∃ columns, connector schema.relation = .ok columns ∧
    ∀ name type, (typesOf schema.columns).get name = some type →
      (typesOf columns).get name = some type

theorem sortedSet_eq_nil {xs : List String} : sortedSet xs = [] ↔ xs = [] := by
  simp only [List.eq_nil_iff_forall_not_mem, mem_sortedSet]

/-- A probe passes exactly if the declared columns are observed. -/
theorem probeSchema_ok_iff {connector : Connector} {schema : RelationSchema} :
    (probeSchema connector schema).ok = true ↔ Observed connector schema := by
  unfold probeSchema Observed
  cases hobserved : connector schema.relation with
  | error e => simp
  | ok columns =>
      simp only [Except.ok.injEq, exists_eq_left', Bool.and_eq_true, List.isEmpty_iff,
        sortedSet_eq_nil, List.filter_eq_nil_iff, List.filterMap_eq_nil_iff, mem_sortedSet,
        List.mem_filter, Bool.not_eq_true', Bool.not_eq_false]
      constructor
      · rintro ⟨hhas, hsame⟩ name type hget
        have hmem := Dict.has_iff.mp (Dict.has_of_get hget)
        obtain ⟨observed, hother⟩ := Dict.get_isSome_of_mem (Dict.has_iff.mp (hhas name hmem))
        have htypes := hsame name ⟨hmem, hhas name hmem⟩
        simp only [Dict.getD, hget, hother, Option.getD_some] at htypes
        rw [hother]
        by_contra hne
        have hdiff : ¬ type = observed := fun heq => hne (by rw [heq])
        simp [hdiff] at htypes
      · intro hall
        refine ⟨fun name hmem => ?_, fun name hmem => ?_⟩
        · obtain ⟨type, hget⟩ := Dict.get_isSome_of_mem hmem
          exact Dict.has_of_get (hall name type hget)
        · obtain ⟨type, hget⟩ := Dict.get_isSome_of_mem hmem.1
          simp [Dict.getD, hget, hall name type hget]

/-! ## Claims -/

/-- A supplement is the first for its relation, and the relation is not among those taken. -/
structure Claims (taken : List String) (supplements : List StampedSchema) (i : Nat)
    (s : StampedSchema) : Prop where
  at_ : supplements[i]? = some s
  free : s.relation ∉ taken
  first : ∀ j < i, ∀ s', supplements[j]? = some s' → s'.relation ≠ s.relation

/-- The claims behind the first supplement, once its relation is taken. -/
theorem claims_succ {taken taken' : List String} {s₀ : StampedSchema}
    {supplements : List StampedSchema} {i : Nat} {s : StampedSchema}
    (htaken : ∀ r, r ∈ taken' ↔ r ∈ taken ∨ r = s₀.relation) :
    Claims taken (s₀ :: supplements) (i + 1) s ↔ Claims taken' supplements i s := by
  constructor
  · intro h
    refine ⟨by simpa using h.at_, fun hmem => ?_, fun j hj s' hs' => ?_⟩
    · rcases (htaken _).mp hmem with hold | heq
      · exact h.free hold
      · exact h.first 0 (by omega) s₀ rfl heq.symm
    · exact h.first (j + 1) (by omega) s' (by simpa using hs')
  · intro h
    have hfree := fun hr => h.free ((htaken _).mpr hr)
    refine ⟨by simpa using h.at_, fun hmem => hfree (Or.inl hmem), fun j hj s' hs' => ?_⟩
    cases j with
    | zero =>
        obtain rfl : s₀ = s' := by simpa using hs'
        exact fun heq => hfree (Or.inr heq.symm)
    | succ j => exact h.first j (by omega) s' (by simpa using hs')

/-- The first supplement claims its relation unless it is taken. -/
theorem claims_zero {taken : List String} {s₀ s : StampedSchema}
    {supplements : List StampedSchema} :
    Claims taken (s₀ :: supplements) 0 s ↔ s = s₀ ∧ s₀.relation ∉ taken := by
  constructor
  · intro h
    obtain rfl : s₀ = s := by simpa using h.at_
    exact ⟨rfl, h.free⟩
  · rintro ⟨rfl, hfree⟩
    exact ⟨rfl, hfree, fun j hj => absurd hj (Nat.not_lt_zero j)⟩

/-! ## The loop -/

/-- The keys after an assignment. -/
theorem Dict.mem_keys_set {α : Type} {d : Dict α} {k : String} {v : α} (r : String) :
    r ∈ (Dict.set d k v).map (·.1) ↔ r ∈ d.map (·.1) ∨ r = k := by
  simp only [List.mem_map, Prod.exists, exists_and_right, exists_eq_right, Dict.mem_set]
  constructor
  · rintro ⟨x, ⟨rfl, -⟩ | ⟨-, hmem⟩⟩
    · exact Or.inr rfl
    · exact Or.inl ⟨x, hmem⟩
  · rintro (⟨x, hmem⟩ | rfl)
    · by_cases hk : r = k
      · exact ⟨v, Or.inl ⟨hk, rfl⟩⟩
      · exact ⟨x, Or.inr ⟨hk, hmem⟩⟩
    · exact ⟨v, Or.inl ⟨rfl, rfl⟩⟩

/-- The keys of a dictionary are those it has a value for. -/
theorem Dict.mem_keys_iff {α : Type} {d : Dict α} {r : String} :
    r ∈ d.map (·.1) ↔ ∃ v, d.get r = some v :=
  ⟨Dict.get_isSome_of_mem, fun ⟨_, h⟩ => Dict.has_iff.mp (Dict.has_of_get h)⟩

namespace Ladder

variable {l : Ladder}

/-- What is acquired of a supplement. -/
def kept (l : Ladder) (probe : Bool) (s : StampedSchema) : StampedSchema :=
  if probe then l.validated s else s

@[simp] theorem kept_relation (probe : Bool) (s : StampedSchema) :
    (l.kept probe s).relation = s.relation := by
  cases probe <;> rfl

/-- The claims of a loop that ends are observed; a loop that raises does so at the first claim that
is not. -/
inductive Climbed (l : Ladder) (probe : Bool) (acquired : Dict StampedSchema)
    (supplements : List StampedSchema) : Except AcquireError (Dict StampedSchema) → Prop where
  | ended (acquired' : Dict StampedSchema)
      (observed : probe = true → ∀ i s, Claims (acquired.map (·.1)) supplements i s →
        Observed l.connector s.schema)
      (get : ∀ r, acquired'.get r = (acquired.get r).or
        ((supplements.find? fun s => s.relation == r).map (l.kept probe))) :
      Climbed l probe acquired supplements (.ok acquired')
  | refuted (i : Nat) (s : StampedSchema) (probed : probe = true)
      (claims : Claims (acquired.map (·.1)) supplements i s)
      (unobserved : ¬ Observed l.connector s.schema)
      (earlier : ∀ j < i, ∀ s', Claims (acquired.map (·.1)) supplements j s' →
        Observed l.connector s'.schema) :
      Climbed l probe acquired supplements
        (.error (.schemaMismatch (probeSchema l.connector s.schema).diff))

/-- The loop behind a supplement whose relation is acquired, or is acquired by it. -/
theorem Climbed.cons {probe : Bool} {acquired acquired' : Dict StampedSchema} {s₀ : StampedSchema}
    {supplements : List StampedSchema} {out : Except AcquireError (Dict StampedSchema)}
    (htaken : ∀ r, r ∈ acquired'.map (·.1) ↔ r ∈ acquired.map (·.1) ∨ r = s₀.relation)
    (hfirst : probe = true → s₀.relation ∉ acquired.map (·.1) → Observed l.connector s₀.schema)
    (hget : ∀ r, acquired'.get r = (acquired.get r).or
      (if s₀.relation = r then some (l.kept probe s₀) else none))
    (h : Climbed l probe acquired' supplements out) :
    Climbed l probe acquired (s₀ :: supplements) out := by
  cases h with
  | ended final observed get =>
      -- the claims behind it are those of the loop that goes on
      refine .ended final (fun hprobe i s hs => ?_) fun r => ?_
      · cases i with
        | zero =>
            obtain ⟨rfl, hfree⟩ := claims_zero.mp hs
            exact hfirst hprobe hfree
        | succ i => exact observed hprobe i s ((claims_succ htaken).mp hs)
      · rw [get, hget, Option.or_assoc, List.find?_cons]
        by_cases hr : s₀.relation = r
        · simp [hr]
        · have hbeq : (s₀.relation == r) = false := by simpa using hr
          simp [hr, hbeq]
  | refuted i s probed claims unobserved earlier =>
      refine .refuted (i + 1) s probed ((claims_succ htaken).mpr claims) unobserved
        fun j hj s' hs' => ?_
      cases j with
      | zero =>
          obtain ⟨rfl, hfree⟩ := claims_zero.mp hs'
          exact hfirst probed hfree
      | succ j => exact earlier j (by omega) s' ((claims_succ htaken).mp hs')

theorem climb_climbed (probe : Bool) (acquired : Dict StampedSchema)
    (supplements : List StampedSchema) :
    Climbed l probe acquired supplements (l.climb probe acquired supplements) := by
  induction supplements generalizing acquired with
  | nil =>
      exact .ended acquired (fun _ i s hs => absurd hs.at_ (by simp)) fun r => by simp
  | cons s supplements ih =>
      rw [climb]
      by_cases hhas : acquired.has s.relation = true
      · rw [if_pos hhas]
        have hmem := Dict.has_iff.mp hhas
        obtain ⟨x, hx⟩ := Dict.get_isSome_of_mem hmem
        refine (ih acquired).cons (fun r => ?_) (fun _ hfree => absurd hmem hfree) fun r => ?_
        · exact ⟨Or.inl, fun h => h.elim id fun heq => heq ▸ hmem⟩
        · by_cases hr : s.relation = r
          · subst hr
            rw [hx]
            rfl
          · simp [hr]
      rw [if_neg hhas]
      have hfree : acquired.get s.relation = none := by
        cases hget : acquired.get s.relation with
        | none => rfl
        | some x => exact absurd (Dict.has_of_get hget) hhas
      -- a supplement is entered only where its relation is not there yet
      have hget : ∀ r, (Dict.set acquired s.relation (l.kept probe s)).get r =
          (acquired.get r).or (if s.relation = r then some (l.kept probe s) else none) := by
        intro r
        rw [Dict.get_set]
        by_cases hr : s.relation = r
        · subst hr
          simp [hfree]
        · simp [hr, Ne.symm hr]
      cases probe with
      | false =>
          rw [if_neg Bool.false_ne_true]
          exact (ih _).cons Dict.mem_keys_set (fun h => by cases h) hget
      | true =>
          rw [if_pos rfl]
          dsimp only
          by_cases hok : (probeSchema l.connector s.schema).ok = true
          · rw [if_pos hok]
            exact (ih _).cons Dict.mem_keys_set (fun _ _ => probeSchema_ok_iff.mp hok) hget
          · rw [if_neg hok]
            refine .refuted 0 s rfl (claims_zero.mpr ⟨rfl, fun hmem => ?_⟩)
              (fun h => hok (probeSchema_ok_iff.mpr h)) fun j hj => absurd hj (Nat.not_lt_zero j)
            exact hhas (Dict.has_iff.mpr hmem)

/-! ## What is acquired -/

/-- The highest schema of a relation on the ladder: the last live one, else the first supplement. -/
def highest (l : Ladder) (probe : Bool) (supplements : List StampedSchema) (r : String) :
    Option StampedSchema :=
  (l.live.filter fun s => s.relation = r).getLast?.or
    ((supplements.find? fun s => s.relation == r).map (l.kept probe))

/-- The result of a request: of every relation the highest schema, by the names of the relations,
and the expected relations no step of the ladder has. -/
structure Acquires (l : Ladder) (req : AcquireRequest) (supplements : List StampedSchema)
    (out : AcquisitionResult) : Prop where
  sorted : (out.schemas.map (·.relation)).Pairwise (· < ·)
  schemas : ∀ s, s ∈ out.schemas ↔ l.highest req.probe supplements s.relation = some s
  missing_sorted : out.missingRelations.Pairwise (· < ·)
  missing : ∀ r, r ∈ out.missingRelations ↔
    r ∈ req.expectedRelations.getD [] ∧ r ∉ out.schemas.map (·.relation)

theorem highest_relation {probe : Bool} {supplements : List StampedSchema} {r : String}
    {s : StampedSchema} (h : l.highest probe supplements r = some s) : s.relation = r := by
  rcases Option.or_eq_some_iff.mp h with hlive | ⟨-, hbelow⟩
  · simpa using (List.mem_filter.mp (List.mem_of_getLast? hlive)).2
  · obtain ⟨s', hs', rfl⟩ := Option.map_eq_some_iff.mp hbelow
    simpa using List.find?_some hs'

theorem mem_keys_live {r : String} :
    r ∈ (Dict.indexBy StampedSchema.relation l.live).map (·.1) ↔
      r ∈ l.live.map (·.relation) := by
  rw [Dict.mem_keys_iff, List.mem_map]
  constructor
  · rintro ⟨s, hs⟩
    rw [Dict.get_indexBy] at hs
    obtain ⟨hmem, hr⟩ := List.mem_filter.mp (List.mem_of_getLast? hs)
    exact ⟨s, hmem, by simpa using hr⟩
  · rintro ⟨s, hmem, hr⟩
    have hne : (l.live.filter fun s => s.relation = r) ≠ [] :=
      List.ne_nil_of_mem (List.mem_filter.mpr ⟨hmem, by simpa using hr⟩)
    exact ⟨_, (Dict.get_indexBy _ _ _).trans (List.getLast?_eq_getLast_of_ne_nil hne)⟩

/-- Schemas read by the names of their relations have these names. -/
theorem map_relation_filterMap {acquired : Dict StampedSchema} {rs : List String}
    (h : ∀ r ∈ rs, ∃ s, acquired.get r = some s ∧ s.relation = r) :
    (rs.filterMap acquired.get).map (·.relation) = rs := by
  induction rs with
  | nil => rfl
  | cons r rs ih =>
      obtain ⟨s, hs, hr⟩ := h r List.mem_cons_self
      rw [List.filterMap_cons_some hs, List.map_cons, hr,
        ih fun r' hr' => h r' (List.mem_cons_of_mem r hr')]

/-- The result that is read off a dictionary with the highest schema of every relation. -/
theorem acquires_of_get {req : AcquireRequest} {supplements : List StampedSchema}
    {acquired : Dict StampedSchema}
    (hget : ∀ r, acquired.get r = l.highest req.probe supplements r) :
    l.Acquires req supplements
      { schemas := (sortedSet (acquired.map (·.1))).filterMap acquired.get
        missingRelations := sortedSet
          ((req.expectedRelations.getD []).filter fun r => !acquired.has r) } := by
  have hrelations : ((sortedSet (acquired.map (·.1))).filterMap acquired.get).map (·.relation) =
      sortedSet (acquired.map (·.1)) := by
    refine map_relation_filterMap fun r hr => ?_
    obtain ⟨s, hs⟩ := Dict.mem_keys_iff.mp (mem_sortedSet.mp hr)
    exact ⟨s, hs, highest_relation ((hget r).symm.trans hs)⟩
  refine ⟨?_, fun s => ?_, pairwise_lt_sortedSet _, fun r => ?_⟩
  · rw [hrelations]
    exact pairwise_lt_sortedSet _
  · rw [List.mem_filterMap]
    constructor
    · rintro ⟨r, -, hr⟩
      have hhighest := (hget r).symm.trans hr
      rwa [highest_relation hhighest]
    · intro hs
      have hread := (hget s.relation).trans hs
      exact ⟨s.relation, mem_sortedSet.mpr (Dict.mem_keys_iff.mpr ⟨s, hread⟩), hread⟩
  · dsimp only
    rw [hrelations, mem_sortedSet, mem_sortedSet, List.mem_filter, ← Dict.has_iff]
    simp

end Ladder

/-- What `acquire` does. It raises where the arguments do; else it raises the mismatch of the first
supplement that claims a relation and is not observed, if it is to probe; else it has the highest
schema of every relation, all of those from below observed, and reports every expected relation that
is not among them. -/
theorem acquire_outcome (l : Ladder) (req : AcquireRequest) :
    (∃ e, req.supplements l.hash = .error e ∧ l.acquire req = .error e) ∨
      ∃ supplements, req.supplements l.hash = .ok supplements ∧
        ((∃ out, l.acquire req = .ok out ∧ l.Acquires req supplements out ∧
            (req.probe = true → ∀ i s, Claims (l.live.map (·.relation)) supplements i s →
              Observed l.connector s.schema)) ∨
          ∃ i s, req.probe = true ∧ Claims (l.live.map (·.relation)) supplements i s ∧
            ¬ Observed l.connector s.schema ∧
            (∀ j < i, ∀ s', Claims (l.live.map (·.relation)) supplements j s' →
              Observed l.connector s'.schema) ∧
            l.acquire req = .error (.schemaMismatch (probeSchema l.connector s.schema).diff)) := by
  cases hsupplements : req.supplements l.hash with
  | error e => exact Or.inl ⟨e, rfl, by rw [Ladder.acquire, hsupplements]; rfl⟩
  | ok supplements =>
      refine Or.inr ⟨supplements, rfl, ?_⟩
      -- the ladder starts from the live relations
      have hclaims : ∀ {i : Nat} {s : StampedSchema},
          Claims ((Dict.indexBy StampedSchema.relation l.live).map (·.1)) supplements i s ↔
            Claims (l.live.map (·.relation)) supplements i s := fun {i s} =>
        ⟨fun h => ⟨h.at_, fun hm => h.free (Ladder.mem_keys_live.mpr hm), h.first⟩,
          fun h => ⟨h.at_, fun hm => h.free (Ladder.mem_keys_live.mp hm), h.first⟩⟩
      have hclimbed := Ladder.climb_climbed (l := l) req.probe
        (Dict.indexBy StampedSchema.relation l.live) supplements
      cases hclimb : l.climb req.probe (Dict.indexBy StampedSchema.relation l.live) supplements with
      | error e =>
          have hraised : l.acquire req = .error e := by
            rw [Ladder.acquire, hsupplements]
            simp only [ok_bind, hclimb]
            rfl
          rw [hclimb] at hclimbed
          cases hclimbed with
          | refuted i s probed claims unobserved earlier =>
              exact Or.inr ⟨i, s, probed, hclaims.mp claims, unobserved,
                fun j hj s' hs' => earlier j hj s' (hclaims.mpr hs'), hraised⟩
      | ok acquired =>
          have hreturned : l.acquire req = .ok
              { schemas := (sortedSet (acquired.map (·.1))).filterMap acquired.get
                missingRelations := sortedSet
                  ((req.expectedRelations.getD []).filter fun r => !acquired.has r) } := by
            rw [Ladder.acquire, hsupplements]
            simp only [ok_bind, hclimb]
            rfl
          rw [hclimb] at hclimbed
          cases hclimbed with
          | ended _ observed get =>
              refine Or.inl ⟨_, hreturned, Ladder.acquires_of_get fun r => ?_,
                fun hprobe i s hs => observed hprobe i s (hclaims.mpr hs)⟩
              rw [get, Dict.get_indexBy]
              rfl

end Canonic
