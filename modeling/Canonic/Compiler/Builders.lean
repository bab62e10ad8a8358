import Canonic.Compiler.Conditions

set_option autoImplicit false

/-! # Query builders

`_helpers.py`: the `SELECT`s of a leaf. A leaf reads its owner and the planned joins, all of them
`LEFT JOIN`s, under one `WHERE`. Where a join multiplies the owner's rows, an inner query first
keeps one row for each value of the owner's grain. A leaf under a finality rule is a `UNION ALL`
with one branch for each realization source, and each branch plans its own joins. -/

namespace Canonic

open Sql (Expr Query FromItem Projection)

/-! ## Masking -/

/-- The masked columns of a leaf, by alias and column. -/
abbrev DimMask := List ((String × String) × MaskStrategy)

/-- `_resolve_dim_mask`: a rule names a source, and applies to every alias of it. -/
def resolveDimMask (tree : Dict String) (masking : List MaskingRule) : DimMask :=
  let byColumn : Dict MaskStrategy := masking.foldl (fun d r => d.set r.column r.strategy) []
  tree.flatMap fun p => byColumn.filterMap fun rule =>
    match splitRole rule.1 with
    | some (source, column) =>
        if source = p.2 then some ((p.1, column), rule.2) else none
    | none => none

/-- `_dim_mask_strategy`: the first masked column that the dimension reads. -/
def dimMaskStrategy (lib : Lib) (mask : DimMask) (source : String) (dim : Dimension) :
    Option MaskStrategy :=
  (sortedSet (dim.backingColumns lib)).findSome? fun c => mask.lookup (source, c)

/-- `_apply_mask`. -/
def applyMask (e : Expr) : MaskStrategy → Expr
  | .null => .node .null []
  | .hash => .call "MD5" [e.cast "TEXT"]
  | .partial_ => .call "Concat"
      [.call "Substring" [e, .number "1", .number "2"], .string "***"]

/-- The bucket of a dimension with a granularity. -/
def bucketed (dim : Dimension) (e : Expr) : Expr :=
  match dim.granularity.filter (· ≠ "") with
  | some g => .call "DATE_TRUNC" [.string g, e]
  | none => e

/-- A value under an optional mask. -/
def masked (e : Expr) : Option MaskStrategy → Expr
  | some strategy => applyMask e strategy
  | none => e

/-- `_dimension_expr`: the grouped value of a dimension, bucketed and masked. -/
def dimensionExpr (env : Env) (shifted : ShiftMap) (source : String) (dim : Dimension)
    (mask : Option MaskStrategy) : Except Err Expr := do
  let base ← dimensionBaseExpr env shifted source dim
  return masked (bucketed dim base) mask

/-- `_measure_expr`: a measure's aggregate over the columns of its source. -/
def measureExpr (env : Env) (source : String) (measure : Measure) : Except Err Expr := do
  let parsed ← env.parse measure.expr
  return qualifyTo parsed source

/-- `_input_columns`: the columns a measure reads. -/
def inputColumns (env : Env) (measure : Measure) : Except Err (List String) := do
  let parsed ← env.parse measure.expr
  return sortedSet (parsed.columns.map (·.name))

/-! ## FROM and JOIN -/

/-- One join of a leaf. -/
def joinItem (env : Env) (edge : JoinEdge) : Except Err (FromItem Query) := do
  let target ← env.sources.getKey edge.join.to_
  let on ← env.parse edge.onSql
  return ⟨.left, .source target.name target.table, edge.alias_, [on]⟩

/-- `_from_and_joins`. -/
def fromAndJoins (env : Env) (owner : String) (edges : List JoinEdge) :
    Except Err (List (FromItem Query)) := do
  let source ← env.sources.getKey owner
  let joins ← edges.mapM (joinItem env)
  return ⟨.from, .source source.name source.table, owner, []⟩ :: joins

/-! ## Plain and deduplicated aggregates -/

/-- The projections of the requested dimensions. -/
def dimProjections (env : Env) (shifted : ShiftMap) (mask : DimMask)
    (dims : List (String × Dimension)) : Except Err (List Projection) :=
  (dims.zip (dimensionOutputNames dims)).mapM fun p => do
    let e ← dimensionExpr env shifted p.1.1 p.1.2 (dimMaskStrategy env.lib mask p.1.1 p.1.2)
    return ⟨e, p.2⟩

/-- The projections of the measures, under the given output names. -/
def measureProjections (env : Env) (metrics : List ResolvedMetric) (aliases : List String) :
    Except Err (List Projection) :=
  (metrics.zip aliases).mapM fun p => do
    let e ← measureExpr env p.1.source p.1.measure
    return ⟨e, p.2⟩

/-- `_build_simple`: one `SELECT`, aggregated at the requested dimensions. -/
def buildSimple (env : Env) (shifted : ShiftMap) (owner : String) (metrics : List ResolvedMetric)
    (dims : List (String × Dimension)) (conditions : List Expr) (edges : List JoinEdge)
    (aliases : List String) (mask : DimMask) : Except Err Query := do
  let dimPs ← dimProjections env shifted mask dims
  let measurePs ← measureProjections env metrics aliases
  let from_ ← fromAndJoins env owner edges
  return .select .none (dimPs ++ measurePs) from_ conditions (dimPs.map (·.expr))

/-- The alias of the deduplicated rows (`_DEDUP_ALIAS`). -/
def dedupAlias : String := "_base"

/-- One row for each value of the grain; without a grain, distinct rows. -/
def distinctOn (owner : String) (grain : List String) : Sql.Distinct :=
  if grain.isEmpty then .rows else .on (grain.map fun g => Expr.col g owner)

/-- The raw input columns of the measures, each read from the metric's source. -/
def inputProjections (env : Env) (metrics : List ResolvedMetric) :
    Except Err (List Projection) := do
  let columns ← metrics.mapM fun m => do
    let cs ← inputColumns env m.measure
    return cs.map fun c => (c, m.source)
  let inputs := (firstById (·.1) [] columns.flatten).insertionSort fun a b => a.1 ≤ b.1
  return inputs.map fun p => ⟨Expr.col p.1 p.2, p.1⟩

/-- `_build_dedup_inner`: the rows of a fanning leaf, one for each value of the owner's grain. -/
def buildDedupInner (env : Env) (shifted : ShiftMap) (owner : String)
    (dims : List (String × Dimension)) (metrics : List ResolvedMetric) (conditions : List Expr)
    (edges : List JoinEdge) (mask : DimMask) : Except Err Query := do
  let source ← env.sources.getKey owner
  let dimPs ← dimProjections env shifted mask dims
  let inputPs ← inputProjections env metrics
  let from_ ← fromAndJoins env owner edges
  return .select (distinctOn owner source.grain) (dimPs ++ inputPs) from_ conditions []

/-- Dimensions read back from a named relation. -/
def readDims (table : String) (names : List String) : List Projection :=
  names.map fun n => ⟨Expr.col n table, n⟩

/-- The measures aggregated over a named relation of their raw columns. -/
def reaggregated (env : Env) (table : String) (metrics : List ResolvedMetric)
    (aliases : List String) : Except Err (List Projection) :=
  (metrics.zip aliases).mapM fun p => do
    let parsed ← env.parse p.1.measure.expr
    return ⟨qualifyTo parsed table, p.2⟩

/-- `_build_deduped`: aggregate the deduplicated rows. -/
def buildDeduped (env : Env) (shifted : ShiftMap) (owner : String) (metrics : List ResolvedMetric)
    (dims : List (String × Dimension)) (conditions : List Expr) (edges : List JoinEdge)
    (aliases : List String) (mask : DimMask) : Except Err Query := do
  let inner ← buildDedupInner env shifted owner dims metrics conditions edges mask
  let measurePs ← reaggregated env dedupAlias metrics aliases
  let dimPs := readDims dedupAlias (dimensionOutputNames dims)
  return .select .none (dimPs ++ measurePs) [⟨.from, .derived inner, dedupAlias, []⟩] []
    (dimPs.map (·.expr))

/-- Whether a join of the plan multiplies the owner's rows. -/
def fansOut (edges : List JoinEdge) : Bool := edges.any fun e => e.join.relationship.fansOut

/-! ## Finality -/

/-- `_find_time_dim_name`: the first requested date or timestamp dimension. -/
def findTimeDimName (ss : Sources) (tree : Dict String) (dims : List (String × Dimension)) :
    Option String :=
  (dims.find? fun p =>
    match ss.get (tree.getD p.1 p.1) with
    | none => false
    | some s => ((p.2.valueType s.columns).map (·.isTime)).getD false).map (·.2.name)

/-- What a finality leaf is built from, next to its metrics. -/
structure FinalityInputs where
  rule : FinalityRule
  dims : List (String × Dimension)
  conditions : List Expr
  watermark : Watermark
  timeDim : String
  owner : String
  masking : List MaskingRule
  shifts : List TimeShift

/-- The source of a realization. -/
def realizationSource (env : Env) (r : Realization) : Except Err SemanticSource :=
  match env.sources.get r.source with
  | some s => .ok s
  | none => .error (.unresolved
      s!"finality realization source {pyRepr r.source} is not in the loaded sources")

/-- A metric's measure on a realization source. -/
def branchMetric (source : SemanticSource) (m : ResolvedMetric) : Except Err ResolvedMetric :=
  match source.findMeasure m.measure.name with
  | some measure => .ok ⟨m.name, source.name, measure⟩
  | none => .error (.unresolved (s!"finality realization source {pyRepr source.name} does not " ++
      s!"declare measure {pyRepr m.measure.name} required by metric {pyRepr m.name}"))

/-- A requested dimension looked up again, by its bare name, from a realization source. -/
def branchDim (env : Env) (src : String) (tree : Dict String) (p : String × Dimension) :
    Except Err (String × Dimension) := do
  match ← findDimension env.sources p.2.name src (some tree) with
  | some found => .ok found
  | none => .error (.unreachable (s!"finality realization source {pyRepr src} does not declare " ++
      s!"dimension {pyRepr p.2.name}") [])

/-- The tables the columns of the shared conditions are qualified by. -/
def conditionTables (conditions : List Expr) : List String :=
  (conditions.flatMap fun e => (e.columns.map (·.table))).filter (· ≠ "")

/-- The join targets of a branch: the *sources* of the aliases its dimensions and the shared
conditions name. -/
def branchTargets (src : String) (tree : Dict String) (aliases : List String) : List String :=
  (aliases.filter (· ≠ src)).filterMap tree.get

/-- The joins of a branch, planned from its own source and without `via`. -/
def branchEdges (env : Env) (src : String) (tree : Dict String) (dims : List (String × Dimension))
    (conditions : List Expr) : Except Err (List JoinEdge) :=
  planJoins env.lib env.sources src
    (branchTargets src tree (dims.map (·.1) ++ conditionTables conditions)) none

/-- The time dimension of a branch, read unshifted *on the realization source itself*. -/
def gateColumn (env : Env) (src timeDim : String) (dims : List (String × Dimension)) :
    Except Err Expr :=
  match dims.find? fun p => p.2.name == timeDim with
  | some p => dimensionBaseExpr env [] src p.2
  | none => .error (.unreachable
      s!"could not resolve time dimension {pyRepr timeDim} on source {pyRepr src}" [])

/-- The watermark as a literal. -/
def watermarkLiteral (w : Watermark) : Expr := (Expr.string w.iso).cast "TIMESTAMPTZ"

/-- A branch keeps the rows on its side of the watermark. -/
def gate (role : Role) (column : Expr) (w : Watermark) : Expr :=
  match role with
  | .final => .node .lte [column, watermarkLiteral w]
  | .provisional => .node .gt [column, watermarkLiteral w]

/-- The `is_final` marker of a branch. -/
def isFinalProjection (role : Role) : Projection :=
  ⟨.node (.bool (match role with | .final => true | .provisional => false)) [], "is_final"⟩

/-- A branch whose joins fan out refuses measures that are not additive. -/
def checkBranchFanout (src : String) (edges : List JoinEdge) (metrics : List ResolvedMetric) :
    Except Err Unit :=
  if fansOut edges then
    match metrics.find? fun m => m.measure.additivity ≠ .additive with
    | some bad => .error (.fanoutUnsafe (s!"measure {bad.source}.{pyRepr bad.measure.name} is " ++
        s!"{bad.measure.additivity.value} and a one_to_many/many_to_many join needed to reach " ++
        s!"the requested dimensions on realization {pyRepr src} would multiply its rows and " ++
        "corrupt the aggregate"))
    | none => .ok ()
  else .ok ()

/-- The `SELECT` of one branch. -/
def branchSelect (env : Env) (shifted : ShiftMap) (src : String) (role : Role)
    (metrics : List ResolvedMetric) (outputs : List String) (dims : List (String × Dimension))
    (conditions : List Expr) (edges : List JoinEdge) (aliases : List String) (mask : DimMask) :
    Except Err Query :=
  -- what is joined may repeat a row, so the rows are reduced in a query of their own
  if fansOut edges then do
    let inner ← buildDedupInner env shifted src dims metrics conditions edges mask
    let measurePs ← reaggregated env dedupAlias metrics aliases
    let dimPs := readDims dedupAlias outputs
    return .select .none (dimPs ++ measurePs ++ [isFinalProjection role])
      [⟨.from, .derived inner, dedupAlias, []⟩] [] (dimPs.map (·.expr))
  else do
    let dimPs ← (dims.zip outputs).mapM fun p => do
      let e ← dimensionExpr env shifted p.1.1 p.1.2 (dimMaskStrategy env.lib mask p.1.1 p.1.2)
      return (⟨e, p.2⟩ : Projection)
    let measurePs ← measureProjections env metrics aliases
    let from_ ← fromAndJoins env src edges
    return .select .none (dimPs ++ measurePs ++ [isFinalProjection role]) from_ conditions
      (dimPs.map (·.expr))

/-- One realization of a finality rule, with its own joins and the conditions of the owner's leaf
requalified to it. -/
def finalityBranch (env : Env) (f : FinalityInputs) (metrics : List ResolvedMetric)
    (aliases : List String) (r : Realization) : Except Err Query := do
  let source ← realizationSource env r
  let branchMetrics ← metrics.mapM (branchMetric source)
  let tree := buildAliasTree env.sources r.source
  let shifted ← resolveShifts env f.shifts r.source tree
  let dims ← f.dims.mapM (branchDim env r.source tree)
  let edges ← branchEdges env r.source tree dims f.conditions
  let column ← gateColumn env r.source f.timeDim dims
  let conditions := f.conditions.map (requalifySource · f.owner r.source) ++
    [gate r.role column f.watermark]
  checkBranchFanout r.source edges branchMetrics
  branchSelect env shifted r.source r.role branchMetrics (dimensionOutputNames f.dims) dims
    conditions edges aliases (resolveDimMask tree f.masking)

/-- `_build_finality_union`. -/
def buildFinalityUnion (env : Env) (f : FinalityInputs) (metrics : List ResolvedMetric)
    (aliases : List String) : Except Err Query := do
  match ← f.rule.realizations.mapM (finalityBranch env f metrics aliases) with
  | [] => .error (.unreachable "finality rule has no realizations to build from" [])
  | b :: bs => .ok (Query.unionAll true b bs)

end Canonic
