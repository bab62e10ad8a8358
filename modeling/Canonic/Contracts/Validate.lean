import Canonic.Contracts.Resolver
import Canonic.Compiler.Names

set_option autoImplicit false

/-! # Cross-surface validation

`contracts/validate.py`: the contracts of a project are checked against each other and against its
semantic sources before anything is served. `loadMetricBindings` is the loader's own check that no
two active bindings share a name or alias.

Every check is a step that raises or passes; `validateContracts` runs them in the order of the
source, so the message is that of the first violation. Line numbers are not part of a message
here: they come from the YAML text, which the checks do not see. -/

namespace Canonic

/-- What validation raises. -/
inductive ContractFailure where
  /-- A `ContractError`. -/
  | contract (message : String)
  /-- An error of a function that validation calls, passed through. -/
  | raised (error : Err)
  deriving DecidableEq, Repr

/-- The outcome of a check. -/
abbrev Checked := Except ContractFailure

def reject {α : Type} (message : String) : Checked α := .error (.contract message)

/-- What validation uses of the libraries around it. -/
structure ContractLib where
  lib : Lib
  py : PyLib
  /-- Whether `ZoneInfo(tz)` finds the time zone. -/
  knownZone : String → Bool
  /-- Whether the watermark grammar (`_WATERMARK_RE`) accepts a text. -/
  isWatermark : String → Bool

/-- The contract files of a project; each binding with its path, in the order of the paths. -/
structure ContractFiles where
  metrics : List (String × MetricBinding) := []
  guardrails : List Guardrail := []
  finality : List FinalityRule := []
  assertions : List Assertion := []
  tenancy : Option TenancyPolicy := none
  roles : Option RolePolicy := none

/-- The resolver over the same files. -/
def ContractFiles.resolver (files : ContractFiles) : ContractResolver where
  bindings := files.metrics.map (·.2)
  guardrails := files.guardrails
  finality := files.finality
  tenancy := files.tenancy
  roles := files.roles

/-! ## Loading the bindings -/

/-- Enter the names of one active binding. -/
def registerNames (path : String) : Dict String → List String → Checked (Dict String)
  | seen, [] => .ok seen
  | seen, name :: names =>
      match seen.get name with
      | some other =>
          reject s!"duplicate active metric name/alias {pyRepr name}: {other} and {path}"
      | none => registerNames path (seen ++ [(name, path)]) names

/-- Enter one file; a deprecated binding registers nothing. -/
def registerBinding (seen : Dict String) (file : String × MetricBinding) : Checked (Dict String) :=
  if file.2.active then registerNames file.1 seen file.2.names else .ok seen

/-- `load_metric_bindings`. -/
def loadMetricBindings (files : ContractFiles) : Checked (List MetricBinding) := do
  let _ ← files.metrics.foldlM registerBinding []
  return files.metrics.map (·.2)

/-- `active_by_name.get(name)`: bindings by metric name, aliases left out. -/
def activeByName (bindings : List MetricBinding) (name : String) : Option MetricBinding :=
  (bindings.filter fun b => b.active && b.metric == name).getLast?

/-! ## Source-bound kinds -/

/-- The source a binding names. -/
def boundSource (ss : Sources) (b : MetricBinding) (source : String) : Checked SemanticSource :=
  match ss.get source with
  | some s => .ok s
  | none => reject (s!"metric {pyRepr b.metric}: canonical.source {pyRepr source} " ++
      "does not match any semantic source")

/-- The measure a binding names on its source. -/
def boundMeasure (b : MetricBinding) (s : SemanticSource) (measure : String) : Checked Measure :=
  match s.findMeasure measure with
  | some m => .ok m
  | none => reject (s!"metric {pyRepr b.metric}: canonical.measure {pyRepr measure} " ++
      s!"is not declared on source {pyRepr s.name}")

def Additivity.repr : Additivity → String
  | additive => "<Additivity.ADDITIVE: 'additive'>"
  | semiAdditive => "<Additivity.SEMI_ADDITIVE: 'semi_additive'>"
  | nonAdditive => "<Additivity.NON_ADDITIVE: 'non_additive'>"

def SemanticSource.dimensionNames (s : SemanticSource) : List String := s.dimensions.map (·.name)

def SemanticSource.columnNames (s : SemanticSource) : List String := s.columns.map (·.name)

/-- The check of a `single` binding. -/
def validateSingleBinding (ss : Sources) (b : MetricBinding) (source measure : String) :
    Checked Unit := do
  let s ← boundSource ss b source
  let _ ← boundMeasure b s measure

/-- `_validate_semi_additive_binding`. -/
def validateSemiAdditiveBinding (ss : Sources) (b : MetricBinding)
    (source measure collapseDimension : String) : Checked Unit := do
  let s ← boundSource ss b source
  let m ← boundMeasure b s measure
  if m.additivity ≠ .additive then
    reject (s!"metric {pyRepr b.metric}: base measure {source}.{pyRepr measure} must be " ++
      s!"additive for a semi_additive binding (got {m.additivity.repr})")
  else if collapseDimension ∉ s.dimensionNames then
    reject (s!"metric {pyRepr b.metric}: collapse_dimension {pyRepr collapseDimension} is not " ++
      s!"declared as a dimension on source {pyRepr source}")
  else
    s.grain.forM fun column =>
      if column = collapseDimension ∨ column ∈ s.dimensionNames then .ok ()
      else reject (s!"metric {pyRepr b.metric}: grain column {pyRepr column} of source " ++
        s!"{pyRepr source} is not declared as a dimension (required to build the 'last/first " ++
        "per entity' partition key for every query, including scalar ones)")

/-- `_validate_recompute_at_grain_binding`. The quantile is in range by the model's own check. -/
def validateRecomputeBinding (ss : Sources) (b : MetricBinding) (source field column : String) :
    Checked Unit := do
  let s ← boundSource ss b source
  if column ∈ s.columnNames ∨ column ∈ s.dimensionNames then .ok ()
  else reject (s!"metric {pyRepr b.metric}: {field} {pyRepr column} is not declared as a column " ++
    s!"or dimension on source {pyRepr source}")

/-- `_validate_opaque_binding`. -/
def validateOpaqueBinding (ss : Sources) (b : MetricBinding) (source measure : String)
    (nativeGrain : List String) : Checked Unit := do
  let s ← boundSource ss b source
  let _ ← boundMeasure b s measure
  nativeGrain.forM fun column =>
    if column ∈ s.dimensionNames then .ok ()
    else reject (s!"metric {pyRepr b.metric}: native_grain column {pyRepr column} is not " ++
      s!"declared as a dimension on source {pyRepr source}")

/-- `_find_dimension` from a source, over its own alias tree. -/
def findFrom (ss : Sources) (source name : String) : Checked (Option (String × Dimension)) :=
  (findDimension ss name source (some (buildAliasTree ss source))).mapError .raised

/-- `sources_by_name[alias_to_source.get(alias, alias)]`. -/
def ownerOf (ss : Sources) (source alias_ : String) : Checked SemanticSource :=
  (ss.getKey ((buildAliasTree ss source).getD alias_ alias_)).mapError .raised

/-- The type of the one plain column a dimension is backed by. -/
def soleColumnType (lib : Lib) (dim : Dimension) (owner : SemanticSource) :
    Option NormalizedType :=
  match dim.backingColumns lib, dim.jsonPath with
  | [c], none => owner.columnType c
  | _, _ => none

/-- `_ORDERABLE_TYPES`. -/
def isOrderable : Option NormalizedType → Bool
  | some .date | some .timestamp | some .int | some .decimal | some .float => true
  | _ => false

/-- One `order_by` entry: the alias and dimension it resolves to, of an orderable type. -/
def resolveOrder (ss : Sources) (b : MetricBinding) (source : String) (frame : CumulativeBinding)
    (name : String) : Checked (String × String × Dimension) := do
  match findDimension ss name source (some (buildAliasTree ss source)) with
  | .error (.ambiguous message cs) =>
      reject (s!"metric {pyRepr b.metric}: order_by dimension {pyRepr name} is ambiguous: " ++
        (Err.ambiguous message cs).message)
  | .error e => .error (.raised e)
  | .ok none =>
      reject (s!"metric {pyRepr b.metric}: order_by dimension {pyRepr name} is not reachable " ++
        s!"from source {pyRepr source}")
  | .ok (some (alias_, dim)) =>
      let owner ← ownerOf ss source alias_
      let type := dim.valueType owner.columns
      if !isOrderable type && !frame.needsDaySpine then
        reject (s!"metric {pyRepr b.metric}: order_by dimension {pyRepr name} has type " ++
          (type.elim "None" fun t => pyRepr t.value) ++ "; order dimensions must be date, " ++
          "timestamp, int, decimal or float")
      else return (name, alias_, dim)

/-- No two order dimensions bucket one column. -/
def checkOrderColumns (b : MetricBinding) :
    List ((String × String) × String) → List (String × String × Dimension) → Checked Unit
  | _, [] => .ok ()
  | seen, (name, alias_, dim) :: rest =>
      match dim.isDerived, dim.column with
      | false, some column =>
          match seen.lookup (alias_, column) with
          | some other =>
              if other ≠ name then
                reject (s!"metric {pyRepr b.metric}: order_by dimensions {pyRepr other} and " ++
                  s!"{pyRepr name} are both backed by column {pyRepr column}; keep only the " ++
                  "finer one")
              else checkOrderColumns b seen rest
          | none => checkOrderColumns b (seen ++ [((alias_, column), name)]) rest
      | _, _ => checkOrderColumns b seen rest

/-- The place of a grain among the period grains. -/
def grainIndex (grain : String) : Checked Nat :=
  match periodGrains.findIdx? (· == grain) with
  | some i => .ok i
  | none => .error (.raised (.internal "ValueError: tuple.index(x): x not in tuple"))

/-- `_validate_day_axis`. -/
def validateDayAxis (lib : Lib) (b : MetricBinding) (frame : CumulativeBinding) (name : String)
    (dim : Dimension) (owner : SemanticSource) : Checked Unit := do
  if !((soleColumnType lib dim owner).elim false NormalizedType.isTime) then
    reject (s!"metric {pyRepr b.metric}: order_by dimension {pyRepr name} must be backed by " ++
      "exactly one date or timestamp column for a window, grain_to_date or period_agg")
  else
    match frame.grainToDate, dim.periodGrain with
    | some toDate, some grain =>
        let i ← grainIndex toDate.value
        let j ← grainIndex grain
        if i < j then
          reject (s!"metric {pyRepr b.metric}: grain_to_date {pyRepr toDate.value} is finer " ++
            s!"than order_by dimension {pyRepr name}, which is per {grain}")
        else .ok ()
    | _, _ => .ok ()

/-- `_validate_cumulative_binding`. -/
def validateCumulativeBinding (lib : Lib) (ss : Sources) (b : MetricBinding)
    (source measure : String) (frame : CumulativeBinding) : Checked Unit := do
  let s ← boundSource ss b source
  let m ← boundMeasure b s measure
  if m.additivity ≠ .additive ∨ ¬ m.isP0Compilable lib then
    reject (s!"metric {pyRepr b.metric}: base measure {source}.{pyRepr measure} must be " ++
      "additive and use sum, count, min or max for a cumulative binding")
  else
    let resolved ← frame.orderBy.mapM (resolveOrder ss b source frame)
    checkOrderColumns b [] resolved
    match frame.needsDaySpine, resolved with
    | true, (name, alias_, dim) :: _ =>
        let owner ← ownerOf ss source alias_
        validateDayAxis lib b frame name dim owner
    | _, _ => .ok ()

/-! ## Kinds computed from other metrics -/

/-- `_require_active`. -/
def requireActive (bindings : List MetricBinding) (b : MetricBinding) (label name : String) :
    Checked MetricBinding :=
  match activeByName bindings name with
  | some found => .ok found
  | none => reject (s!"metric {pyRepr b.metric}: {label} {pyRepr name} does not resolve to an " ++
      "active metric binding")

/-- `_check_composite_cycle`. The path holds distinct names, and only an active metric has
children, so the fuel of a call is never used up. -/
def checkCompositeCycle (bindings : List MetricBinding) :
    Nat → String → List String → Checked Unit
  | 0, _, _ => .ok ()
  | n + 1, metric, path =>
      match activeByName bindings metric with
      | none => .ok ()
      | some b => b.canonical.of.dependencyNames.forM fun child =>
          if child ∈ path then
            reject ("composite metric " ++ pyRepr (path.headD "") ++ " has a cyclic dependency: " ++
              " → ".intercalate (path ++ [child]))
          else checkCompositeCycle bindings n child (path ++ [child])

/-- The cycle check of one binding. -/
def checkCycleFrom (bindings : List MetricBinding) (b : MetricBinding) : Checked Unit :=
  checkCompositeCycle bindings (bindings.length + 2) b.metric [b.metric]

/-- One component of a ratio or weighted average. -/
def validateComponent (bindings : List MetricBinding) (b : MetricBinding) (label name : String) :
    Checked Unit := do
  let found ← requireActive bindings b label name
  match found.canonical.of.kind with
  | .opaque_ =>
      reject (s!"metric {pyRepr b.metric}: {label} {pyRepr name} has kind opaque; opaque " ++
        "metrics are grain-locked and cannot be used as components in a composite metric " ++
        "(§4.1, S7 AC1)")
  | .cumulative =>
      reject (s!"metric {pyRepr b.metric}: {label} {pyRepr name} has kind cumulative; a running " ++
        "total cannot be used as a component in a composite metric")
  | .offset | .derived | .conversion =>
      reject (s!"metric {pyRepr b.metric}: {label} {pyRepr name} has kind " ++
        s!"{found.canonical.of.kind.value}; write the ratio as a derived metric instead")
  | _ => .ok ()

/-- `_validate_composite_binding`. -/
def validateCompositeBinding (bindings : List MetricBinding) (b : MetricBinding) :
    Checked Unit := do
  b.canonical.of.components.forM fun c => validateComponent bindings b c.1 c.2
  checkCycleFrom bindings b

/-- `_leaf_sources`: the sources a binding reads. It runs after the cycle check, so the fuel
suffices. -/
def metricLeafSources (bindings : List MetricBinding) : Nat → MetricBinding → List String
  | 0, _ => []
  | n + 1, b =>
      match b.canonical.of.sourceBound with
      | some (source, _) => if source = "" then [] else [source]
      | none => b.canonical.of.dependencyNames.flatMap fun name =>
          ((activeByName bindings name).map (metricLeafSources bindings n)).getD []

/-- `_leaf_sources` of a binding. -/
def leafSourcesOf (bindings : List MetricBinding) (b : MetricBinding) : List String :=
  metricLeafSources bindings (bindings.length + 1) b

/-- `_validate_numerator_parts`. -/
def validateNumeratorParts (ss : Sources) (bindings : List MetricBinding) (b : MetricBinding) :
    Checked Unit :=
  match b.canonical.numeratorParts, b.canonical.of.components with
  | some parts, (label, numerator) :: _ =>
      let sources := ((activeByName bindings numerator).map (leafSourcesOf bindings)).getD []
      let reachable := sources.flatMap fun s => (buildAliasTree ss s).map (·.2)
      parts.forM fun part => do
        let found ← requireActive bindings b "numerator_parts entry" part
        match found.canonical.of with
        | .single source _ =>
            if source ∈ reachable then .ok ()
            else reject (s!"metric {pyRepr b.metric}: numerator_parts entry {pyRepr part} reads " ++
              s!"source {pyRepr source}, which is not reachable from the source of {label} " ++
              s!"{pyRepr numerator}")
        | kind => reject (s!"metric {pyRepr b.metric}: numerator_parts entry {pyRepr part} has " ++
            s!"kind {kind.kind.value}; every part must be a metric of kind single")
  | _, _ => .ok ()

/-- `_offset_columns`: the columns that the offsets at or under a binding shift. -/
def offsetColumns (lib : Lib) (ss : Sources) (bindings : List MetricBinding) :
    Nat → MetricBinding → Checked (List (String × String))
  | 0, _ => .ok []
  | n + 1, b => do
      let own ← match b.canonical.of with
        | .offset _ timeDimension _ => (leafSourcesOf bindings b).mapM fun source => do
            match ← findFrom ss source timeDimension with
            | none => return []
            | some (alias_, dim) =>
                let owner := (buildAliasTree ss source).getD alias_ alias_
                return (dim.backingColumns lib).map fun c => (owner, c)
        | _ => return []
      let nested ← (b.canonical.of.dependencyNames.filterMap (activeByName bindings)).mapM
        fun child => if child = b then return [] else offsetColumns lib ss bindings n child
      return own.flatten ++ nested.flatten

/-- The column an offset shifts on one source of its base. -/
def offsetColumn (lib : Lib) (ss : Sources) (b : MetricBinding)
    (base timeDimension source : String) :
    Checked (List (String × String)) := do
  match ← findFrom ss source timeDimension with
  | none =>
      reject (s!"metric {pyRepr b.metric}: time_dimension {pyRepr timeDimension} is not " ++
        s!"reachable from source {pyRepr source}, which base {pyRepr base} reads")
  | some (alias_, dim) =>
      let owner ← ownerOf ss source alias_
      if (soleColumnType lib dim owner).elim false NormalizedType.isTime then
        return (dim.backingColumns lib).map fun c => (owner.name, c)
      else reject (s!"metric {pyRepr b.metric}: time_dimension {pyRepr timeDimension} must be " ++
        "backed by exactly one date or timestamp column")

/-- `_validate_offset_binding`. -/
def validateOffsetBinding (lib : Lib) (ss : Sources) (bindings : List MetricBinding)
    (b : MetricBinding) (base timeDimension : String) : Checked Unit := do
  let found ← requireActive bindings b "base" base
  checkCycleFrom bindings b
  match found.canonical.of with
  | .opaque_ .. =>
      reject (s!"metric {pyRepr b.metric}: base {pyRepr base} has kind opaque, which is served " ++
        "only at its native grain and cannot be shifted")
  | .conversion .. =>
      reject (s!"metric {pyRepr b.metric}: base {pyRepr base} has kind conversion, which cannot " ++
        "be shifted yet")
  | kind =>
      let daySpine := match kind with
        | .cumulative _ _ frame => frame.needsDaySpine
        | _ => false
      if daySpine then
        reject (s!"metric {pyRepr b.metric}: base {pyRepr base} is a cumulative metric " ++
          "evaluated per calendar day (window, grain_to_date or period_agg), which cannot be " ++
          "shifted yet")
      else
        let own ← (sortedSet (leafSourcesOf bindings found)).mapM
          (offsetColumn lib ss b base timeDimension)
        -- the offsets below have to move the column that this one moves
        let nested ← offsetColumns lib ss bindings (bindings.length + 1) found
        if nested.all (· ∈ own.flatten) then .ok ()
        else reject (s!"metric {pyRepr b.metric}: base {pyRepr base} already contains an offset " ++
          "on another time column; two offsets can only be combined on the same column")

/-- `_validate_derived_binding`. -/
def validateDerivedBinding (bindings : List MetricBinding) (b : MetricBinding)
    (inputs : List DerivedInput) : Checked Unit := do
  inputs.forM fun i => do
    let _ ← requireActive bindings b "input" i.metric
  checkCycleFrom bindings b

/-- `_counts`: a `SUM` or `COUNT` at the top of a measure. -/
def countsOrSums (lib : Lib) (expr : String) : Bool :=
  match (lib.parseOne (some .postgres) expr).bind asAgg with
  | some (.sum, _) | some (.count, _) => true
  | _ => false

/-- One side of a conversion binding. -/
structure ConversionSide where
  label : String
  metric : String
  side : String
  entity : String
  time : String
  properties : List String
  isConversion : Bool

/-- The two sides of a conversion. -/
def conversionSides (base conversion : String) (p : ConversionParams) :
    ConversionSide × ConversionSide :=
  (⟨"base_metric", base, "base", p.entity.base, p.baseTime,
      p.constantProperties.map (·.base), false⟩,
   ⟨"conversion_metric", conversion, "conversion", p.entity.conversion, p.conversionTime,
      p.constantProperties.map (·.conversion), true⟩)

/-- A side's columns are its source's own, and its time is one. The type of the time column is
returned. -/
def validateSideColumns (b : MetricBinding) (s : SemanticSource) (side : ConversionSide) :
    Checked (Option NormalizedType) := do
  ((s!"entity {side.side}", side.entity) :: (s!"{side.side}_time", side.time) ::
    side.properties.map fun c => (s!"constant_properties {side.side}", c)).forM fun field =>
      if (s.ownColumn field.2).isSome then .ok ()
      else reject (s!"metric {pyRepr b.metric}: {field.1} {pyRepr field.2} is not a column, or " ++
        s!"a dimension backed by one column, of source {pyRepr s.name}")
  match s.ownColumn side.time with
  | none => .error (.raised (.internal "AssertionError"))
  | some column =>
      if column.type.isTime then return some column.type
      else reject (s!"metric {pyRepr b.metric}: {side.side}_time {pyRepr side.time} must be a " ++
        "date or timestamp column")

/-- One round of the loop over the sides: the time type, or `none` where the loop returns because
the metric's own check will fail. -/
def validateSide (lib : Lib) (ss : Sources) (bindings : List MetricBinding) (b : MetricBinding)
    (side : ConversionSide) : Checked (Option NormalizedType) := do
  let found ← requireActive bindings b side.label side.metric
  match found.canonical.of with
  | .single source measure =>
      match ss.get source with
      | none => return none
      | some s =>
          if side.isConversion then
            match s.findMeasure measure with
            | none => return none
            | some m =>
                if m.additivity = .additive ∧ countsOrSums lib m.expr then
                  validateSideColumns b s side
                else reject (s!"metric {pyRepr b.metric}: conversion_metric " ++
                  s!"{pyRepr side.metric} must sum or count an additive measure, for which no " ++
                  "conversion is 0")
          else validateSideColumns b s side
  | .distinctCount source distinctOn _ =>
      match ss.get source with
      | none => return none
      | some s =>
          if side.isConversion && (s.ownColumn distinctOn).isNone then
            reject (s!"metric {pyRepr b.metric}: conversion_metric {pyRepr side.metric} counts " ++
              s!"{pyRepr distinctOn}, which is not a column of source {pyRepr s.name}")
          else validateSideColumns b s side
  | kind => reject (s!"metric {pyRepr b.metric}: {side.label} {pyRepr side.metric} has kind " ++
      s!"{kind.kind.value}; a conversion reads metrics of kind single or distinct_count")

/-- `_validate_conversion_binding`. -/
def validateConversionBinding (lib : Lib) (ss : Sources) (bindings : List MetricBinding)
    (b : MetricBinding) (base conversion : String) (p : ConversionParams) : Checked Unit := do
  let sides := conversionSides base conversion p
  match ← validateSide lib ss bindings b sides.1 with
  | none => .ok ()
  | some baseType =>
      match ← validateSide lib ss bindings b sides.2 with
      | none => .ok ()
      | some conversionType =>
          match p.window with
          | some w =>
              if w.unit.rank < DurationUnit.day.rank ∧ .date ∈ [baseType, conversionType] then
                reject (s!"metric {pyRepr b.metric}: a window of {w.text} needs timestamps on " ++
                  "both sides, and a time column is a date")
              else .ok ()
          | none => .ok ()

/-! ## One binding -/

/-- `_validate_population_filter`. -/
def validatePopulationFilter (lib : Lib) (ss : Sources) (bindings : List MetricBinding)
    (b : MetricBinding) : Checked Unit :=
  match b.canonical.populationFilter with
  | none => .ok ()
  | some filter =>
      match lib.parseOne (some .postgres) filter with
      | none => reject (s!"metric {pyRepr b.metric}: population_filter {pyRepr filter} is not " ++
          "valid SQL")
      | some parsed =>
          (sortedSet (leafSourcesOf bindings b)).forM fun leaf =>
            let declared := ((ss.get leaf).map fun s => s.columnNames ++ s.dimensionNames).getD []
            (sortedSet (parsed.columns.map (·.name))).forM fun name =>
              if name ∈ declared then .ok ()
              else reject (s!"metric {pyRepr b.metric}: population_filter references " ++
                s!"{pyRepr name} which is not declared as a column or dimension on leaf source " ++
                s!"{pyRepr leaf}")

/-- The check of a binding's kind. -/
def validateKind (lib : Lib) (ss : Sources) (bindings : List MetricBinding) (b : MetricBinding) :
    Checked Unit :=
  match b.canonical.of with
  | .single source measure => validateSingleBinding ss b source measure
  | .semiAdditive source measure dim _ => validateSemiAdditiveBinding ss b source measure dim
  | .distinctCount source column _ => validateRecomputeBinding ss b source "distinct_on" column
  | .percentile source column _ _ => validateRecomputeBinding ss b source "column" column
  | .opaque_ source measure grain => validateOpaqueBinding ss b source measure grain
  | .cumulative source measure frame => validateCumulativeBinding lib ss b source measure frame
  | .offset base dim _ => validateOffsetBinding lib ss bindings b base dim
  | .derived _ inputs => validateDerivedBinding bindings b inputs
  | .conversion base conv p => validateConversionBinding lib ss bindings b base conv p
  | .ratio _ _ | .weightedAvg _ _ => do
      validateCompositeBinding bindings b
      validateNumeratorParts ss bindings b

/-- The checks of one binding; a deprecated one is not checked. -/
def validateBinding (lib : Lib) (ss : Sources) (bindings : List MetricBinding)
    (b : MetricBinding) : Checked Unit :=
  if b.active then do
    validateKind lib ss bindings b
    validatePopulationFilter lib ss bindings b
  else .ok ()

/-! ## The other surfaces -/

/-- The target of a guardrail exists. -/
def validateGuardrail (ss : Sources) (bindings : List MetricBinding) (g : Guardrail) :
    Checked Unit :=
  match g.appliesTo with
  | .source source measure =>
      match ss.get source with
      | none => reject (s!"guardrail {pyRepr g.id}: applies_to.source {pyRepr source} does not " ++
          "match any semantic source")
      | some s =>
          match measure with
          | none => .ok ()
          | some m =>
              if (s.findMeasure m).isSome then .ok ()
              else reject (s!"guardrail {pyRepr g.id}: applies_to.measure {pyRepr m} is not " ++
                s!"declared on source {pyRepr source}")
  | .metric m =>
      if (activeByName bindings m).isSome then .ok ()
      else reject (s!"guardrail {pyRepr g.id}: applies_to.metric {pyRepr m} does not resolve to " ++
        "an active metric binding")

/-- A `restrict_source` guardrail on a metric needs a finality rule. -/
def validateRestriction (finality : List FinalityRule) (g : Guardrail) : Checked Unit :=
  match g.kind, g.appliesTo with
  | .restrictSource _, .metric m =>
      if m ∈ finality.map (·.metric) then .ok ()
      else reject (s!"guardrail {pyRepr g.id}: restrict_source guardrail targets metric " ++
        s!"{pyRepr m} which has no finality rule — watermark cannot be evaluated")
  | _, _ => .ok ()

/-- `validate_finality_rule`, the check that there is one final realization left to the model. -/
def validateFinalityRule (clib : ContractLib) (ss : Sources) (rule : FinalityRule) :
    Except String Unit := do
  rule.realizations.forM fun r =>
    if (ss.get r.source).isSome then .ok ()
    else .error s!"realization source {pyRepr r.source} is not declared in semantics"
  match rule.final with
  | none => .ok ()
  | some final =>
      let watermark := final.watermark.getD ""
      let tz := final.tz.getD ""
      if watermark = "" then
        .error (s!"'final' realization (source {pyRepr final.source}) requires a 'watermark' " ++
          "expression")
      else if tz = "" then
        .error s!"'final' realization (source {pyRepr final.source}) requires a 'tz' value"
      else if !clib.knownZone tz then .error s!"unknown timezone {pyRepr tz}"
      else if !clib.isWatermark watermark then
        .error (s!"watermark expression {pyRepr watermark} does not match the supported " ++
          "grammar; expected 'business_day' optionally followed by '± N day[s]'")
      else .ok ()

/-- The checks of one finality rule. -/
def validateFinality (clib : ContractLib) (ss : Sources) (bindings : List MetricBinding)
    (rule : FinalityRule) : Checked Unit :=
  if (activeByName bindings rule.metric).isNone then
    reject (s!"finality rule for metric {pyRepr rule.metric} does not resolve to an active binding")
  else (validateFinalityRule clib ss rule).mapError fun message =>
    .contract s!"finality rule for metric {pyRepr rule.metric}: {message}"

/-- The checks of one assertion; one that is not executable yet is skipped. -/
def validateAssertion (clib : ContractLib) (activeNames : List String) (a : Assertion) :
    Checked Unit :=
  if a.isExecutable then do
    let metrics := a.metrics clib.py
    metrics.forM fun m =>
      if m ∈ activeNames then .ok ()
      else reject (s!"assertion {pyRepr a.id}: query metric {pyRepr m} does not resolve to an " ++
        "active metric binding")
    let dimensions := a.query.getD "dimensions" (.arr [])
    let listed := match dimensions with
      | .arr xs => xs
      | _ => []
    (a.values.map (·.1)).forM fun column =>
      if column ∈ metrics ∨ .str column ∈ listed then .ok ()
      else reject (s!"assertion {pyRepr a.id}: expected value {pyRepr column} is not an output " ++
        s!"column of the query (metrics: {pyReprList (metrics.insertionSort (· ≤ ·))}, " ++
        s!"dimensions: {pyReprList ((listed.map clib.py.str).insertionSort (· ≤ ·))})")
    match dimensions.truthy, a.rows with
    | false, some rows =>
        if 1 < rows then
          reject (s!"assertion {pyRepr a.id}: query has no dimensions so it returns one row, " ++
            s!"but expect.rows is {rows}")
        else .ok ()
    | _, _ => .ok ()
  else .ok ()

/-- `_validate_tenancy_policy`; a hole in the policy is only logged under `warn`. -/
def validateTenancyPolicy (ss : Sources) (path : String) (t : TenancyPolicy) : Checked Unit := do
  t.scopedSources.zipIdx.forM fun p =>
    match ss.get p.1.source with
    | none => reject (s!"{path}: tenancy policy scoped_sources[{p.2}].source " ++
        s!"{pyRepr p.1.source} does not match any semantic source")
    | some s =>
        if s.hasColumn p.1.column then .ok ()
        else reject (s!"{path}: tenancy policy scope column {pyRepr p.1.column} is not declared " ++
          s!"as a column on source {pyRepr p.1.source}")
  let declared := t.scopedSources.map (·.source) ++ t.sharedSources
  let undeclared := sortedSet ((ss.list.map (·.name)).filter (· ∉ declared))
  if undeclared.isEmpty ∨ t.undeclaredSource = .warn then .ok ()
  else reject (s!"{path}: undeclared_source is 'deny' but source(s) {pyReprList undeclared} " ++
    "appear in neither scoped_sources nor shared_sources")

/-- One list of a role's metric policy. -/
def validateRoleNames (activeNames : List String) (path role list : String)
    (names : List String) : Checked Unit :=
  names.forM fun name =>
    if name = "*" ∨ name ∈ activeNames then .ok ()
    else reject (s!"{path}: role {pyRepr role} metrics.{list} names {pyRepr name} which does " ++
      "not resolve to an active metric binding")

/-- `_validate_role_policy`. -/
def validateRolePolicy (activeNames : List String) (path : String) (p : RolePolicy) :
    Checked Unit :=
  p.roles.forM fun role => do
    let metrics := role.2.metrics.getD {}
    validateRoleNames activeNames path role.1 "allow" (metrics.allow.getD [])
    validateRoleNames activeNames path role.1 "deny" metrics.deny

/-- `validate_contracts`, over the loaded sources and the contract files of a project. -/
def validateContracts (clib : ContractLib) (ss : Sources) (files : ContractFiles) :
    Checked Unit := do
  let bindings ← loadMetricBindings files
  let activeNames := (bindings.filter (·.active)).flatMap (·.names)
  bindings.forM (validateBinding clib.lib ss bindings)
  files.guardrails.forM (validateGuardrail ss bindings)
  files.guardrails.forM (validateRestriction files.finality)
  files.finality.forM (validateFinality clib ss bindings)
  files.assertions.forM (validateAssertion clib activeNames)
  match files.tenancy with
  | some t => validateTenancyPolicy ss "contracts/policies/tenancy.yaml" t
  | none => .ok ()
  match files.roles with
  | some p => validateRolePolicy activeNames "contracts/policies/roles.yaml" p
  | none => .ok ()

end Canonic
