import Canonic.Compiler.Leaf

set_option autoImplicit false

/-! # Composition

`compiler/compose.py`: planned leaves assembled into one statement. Leaves with the same identity
share a common table expression (`fuse`); the rest are joined, with `LEFT JOIN`s, onto a spine
that is the `UNION` of their dimension tuples. A running total is a window over that spine. -/

namespace Canonic

open Sql (Expr Query FromItem Projection Statement)

/-! ## Metric plans -/

/-- How a metric's value is assembled from its leaf columns. -/
inductive Combine where
  | direct | ratioNull | ratioZero | ratioRaw | derived
  deriving DecidableEq, Repr

/-- A column of one planned leaf, by the leaf's index. -/
structure LeafRef where
  leaf : Nat
  column : String
  deriving DecidableEq, Repr

/-- How the values of a cumulative metric become a running total over the spine. -/
structure Accumulate where
  orderBy : List String
  partitionBy : List String
  fillObserved : Bool := false
  visibility : Bool := false
  deriving DecidableEq, Repr

/-- One requested metric: where its value comes from, and how it is combined. -/
structure MetricPlan where
  name : String
  refs : List LeafRef
  combine : Combine := .direct
  accumulate : Option Accumulate := none
  cumulative : Bool := false
  operands : List MetricPlan := []
  template : Option Expr := none
  division : Option Combine := none

namespace MetricPlan

mutual
/-- `shifted`: every leaf reference moved by `n`. -/
def shifted (n : Nat) : MetricPlan → MetricPlan
  | ⟨name, refs, combine, acc, cum, operands, template, division⟩ =>
      ⟨name, refs.map fun r => ⟨r.leaf + n, r.column⟩, combine, acc, cum,
        shiftedList n operands, template, division⟩

def shiftedList (n : Nat) : List MetricPlan → List MetricPlan
  | [] => []
  | m :: ms => m.shifted n :: shiftedList n ms
end

mutual
/-- `walk`: the plan and every operand under it, depth first. -/
def walk : MetricPlan → List MetricPlan
  | ⟨name, refs, combine, acc, cum, operands, template, division⟩ =>
      ⟨name, refs, combine, acc, cum, operands, template, division⟩ :: walkList operands

def walkList : List MetricPlan → List MetricPlan
  | [] => []
  | m :: ms => m.walk ++ walkList ms
end

end MetricPlan

/-- `operand_placeholder`: the column a derived template gives its `i`-th input. -/
def operandPlaceholder (i : Nat) : String := s!"_op{i}"

/-- What one requested metric contributes: its leaves and its expression. -/
structure MetricLeaves where
  leaves : List LeafPlan
  metric : MetricPlan
  resolved : String
  warnings : List String := []

/-! ## Values -/

/-- `guard_division`: a division under a zero-denominator policy. -/
def guardDivision (numerator denominator : Expr) : Combine → Expr
  | .ratioRaw => .node .div [numerator, denominator]
  | .ratioZero => .node .coalesce
      [.node .div [numerator, .node .nullif [denominator, .number "0"]], .number "0"]
  | _ => .node .div [numerator, .node .nullif [denominator, .number "0"]]

/-- `_combine_expr`. Planned metrics have one column, and two for a ratio. -/
def combineExpr (combine : Combine) : List Expr → Expr
  | [c] => c
  | [n, d] => if combine = .direct then n else guardDivision n d combine
  | c :: _ => c
  | [] => .node .null []

/-- Ascending sort keys with NULLs last: each dimension behind an `IS NULL` indicator. -/
def orderKeys (env : Env) (table : String) (orderBy : List String) : List Expr :=
  let nullsFirst := .node (.bool (env.lib.nullsAreSmall env.adapter)) []
  orderBy.flatMap fun name =>
    let column := Expr.col name table
    [.node (.ordered false) [.node .case [column.isNull, .number "1", .number "0"], nullsFirst],
      .node (.ordered false) [column, nullsFirst]]

/-- A window over a partition in an order. -/
def windowExpr (func : Expr) (partition order : List Expr) (spec : String) : Expr :=
  .node .window [func, .call "PartitionBy" partition, .call "OrderBy" order, .call spec []]

/-- The name of the spine. -/
def grainName : String := "_grain"

/-- `_running`: a function from the partition's first order tuple up to the current row. -/
def running (env : Env) (acc : Accumulate) (func : Expr) : Expr :=
  windowExpr func (acc.partitionBy.map fun p => Expr.col p grainName)
    (orderKeys env grainName acc.orderBy) "ROWS UNBOUNDED PRECEDING AND CURRENT ROW"

/-- `_accumulate_expr`: a running total that is NULL before the partition's first row. -/
def accumulateExpr (env : Env) (acc : Accumulate) (value : Expr) : Expr :=
  let count := running env acc (.node (.agg .count) [value])
  let total := running env acc (.node (.agg .sum) [.node .coalesce [value, .number "0"]])
  .node .case [.mkEq count (.number "0"), .node .null [], total]

/-- Each placeholder of a template replaced by the value of its input. -/
def substituteOperands (template : Expr) (values : List Expr) : Expr :=
  template.mapColumns fun c =>
    if c.table = "" then
      match (List.range values.length).find? fun i => operandPlaceholder i == c.name with
      | some i => .node .paren [values.getD i (.node .null [])]
      | none => .column c
    else .column c

/-- The columns a plan's references stand for. -/
def columnsOf (leafName : Nat → String) (refs : List LeafRef) : List Expr :=
  refs.map fun r => Expr.col r.column (leafName r.leaf)

mutual
/-- `_metric_value`: a metric's value in the final `SELECT`. -/
def metricValue (env : Env) (leafName : Nat → String) : MetricPlan → Expr
  | ⟨_, refs, combine, acc, _, operands, template, _⟩ =>
      if combine = .derived then
        substituteOperands (template.getD (.node .null [])) (operandValues env leafName operands)
      else
        let value := combineExpr combine (columnsOf leafName refs)
        match acc with
        | some a => accumulateExpr env a value
        | none => value

def operandValues (env : Env) (leafName : Nat → String) : List MetricPlan → List Expr
  | [] => []
  | m :: ms => metricValue env leafName m :: operandValues env leafName ms
end

/-! ## Zero denominators -/

/-- `zero_denominator_policy`: the policy of the divisions the metric itself performs. -/
def zeroDenominatorPolicy (m : MetricPlan) : Option Combine :=
  if m.accumulate.isSome then none
  else if m.combine = .derived then m.division
  else if m.combine = .direct then none else some m.combine

def substitutesZeroDenominator (m : MetricPlan) : Bool :=
  zeroDenominatorPolicy m == some .ratioNull || zeroDenominatorPolicy m == some .ratioZero

/-- `nulls_zero_denominator`: the metric, or an input under it, turns a zero denominator into
`NULL`. -/
def nullsZeroDenominator (m : MetricPlan) : Bool :=
  m.walk.any fun p => zeroDenominatorPolicy p == some .ratioNull

def countsZeroDenominator (m : MetricPlan) : Bool :=
  substitutesZeroDenominator m || nullsZeroDenominator m

/-- The compile-time warning for a ratio that turns a zero denominator into `NULL`. -/
def zeroDenominatorWarning (metric : String) : String :=
  s!"zero denominator for metric {pyRepr metric} yields NULL (on_zero_denominator=null)"

def zeroDenominatorColumn (metric : String) : String := "_canonic_zero_denominator_" ++ metric

/-- The guarded denominator of a division. -/
def guardedDenominator : Expr → Option Expr
  | .node .div [_, .node .nullif (d :: _)] => some d
  | _ => none

/-- `_denominators`: those of the divisions the metric itself performs. -/
def denominators (env : Env) (leafName : Nat → String) (m : MetricPlan) : List Expr :=
  if m.combine = .derived then
    ((m.template.getD (.node .null [])).walk.filterMap guardedDenominator).map fun d =>
      substituteOperands d (operandValues env leafName m.operands)
  else ((columnsOf leafName m.refs)[1]?).toList

/-- `_counted_denominators`. -/
def countedDenominators (env : Env) (leafName : Nat → String) (m : MetricPlan) : List Expr :=
  (if substitutesZeroDenominator m then denominators env leafName m else []) ++
    ((MetricPlan.walkList m.operands).filter fun p =>
      zeroDenominatorPolicy p == some .ratioNull).flatMap (denominators env leafName)

/-- The disjunction of several conditions, nested to the left. -/
def mkOr : List Expr → Expr
  | [] => .node .null []
  | e :: es => es.foldl (fun a b => .node .or [a, b]) e

/-- `_zero_denominator_flag`. -/
def zeroDenominatorFlag (ds : List Expr) : Expr :=
  .node .case [mkOr (ds.map fun d => .mkEq d (.number "0")), .number "1", .number "0"]

/-! ## Fusion -/

/-- One emitted common table expression: the leaves fused into it, and its columns. -/
structure Physical where
  keyLeaf : LeafPlan
  metrics : List LeafMetric := []
  columns : List String := []
  fired : List FiredGuardrail := []
  warnings : List String := []
  usedSources : List String := []
  scopedSources : List String := []
  sharedSources : List String := []
  finality : Option FinalityMetadata := none

def Physical.projectsIsFinal (p : Physical) : Bool := p.keyLeaf.projectsIsFinal

/-- The key a leaf is grouped on: without its measures, when another measure may be merged in. -/
def LeafPlan.groupKey (l : LeafPlan) : Bool × LeafKey :=
  if l.fusable then (true, l.key.fusionKey) else (false, l.key)

/-- One column of a leaf added to the expression that serves it, unless the name is there. -/
def addColumn (p : Physical) (c : LeafMetric × String) : Physical :=
  if c.2 ∈ p.columns then p
  else { p with columns := p.columns ++ [c.2], metrics := p.metrics ++ [c.1] }

/-- `_merge_into`: the metadata of a leaf united with that of the expression serving it. -/
def mergeInto (p : Physical) (l : LeafPlan) : Physical :=
  { p with
    fired := p.fired ++ l.fired.filter fun g => g.id ∉ p.fired.map (·.id)
    warnings := p.warnings ++ l.warnings.filter (· ∉ p.warnings)
    usedSources := p.usedSources ++ l.usedSources
    scopedSources := p.scopedSources ++ l.scopedSources
    sharedSources := p.sharedSources ++ l.sharedSources
    finality := if l.finality.isSome then l.finality else p.finality }

/-- Serve a leaf from an expression. -/
def serve (p : Physical) (l : LeafPlan) : Physical :=
  mergeInto ((l.metrics.zip l.measureAliases).foldl addColumn p) l

/-- The expressions so far with the key each was opened under, and the one serving each leaf. -/
structure Fusion where
  physical : List (Physical × Option (Bool × LeafKey)) := []
  ownerOf : List Nat := []

/-- The expression opened under a key. -/
def Fusion.indexOf (f : Fusion) (key : Bool × LeafKey) : Option Nat :=
  f.physical.findIdx? fun p => p.2 == some key

/-- One leaf of `_fuse`. -/
def fuseLeaf (dedup : Bool) (f : Fusion) (l : LeafPlan) : Fusion :=
  match if dedup then f.indexOf l.groupKey else none with
  | some i =>
      { physical := f.physical.modify i fun p => (serve p.1 l, p.2), ownerOf := f.ownerOf ++ [i] }
  | none =>
      { physical := f.physical ++
          [(serve { keyLeaf := l } l, if dedup then some l.groupKey else none)]
        ownerOf := f.ownerOf ++ [f.physical.length] }

/-- `_fuse`: the expressions to emit, and for each leaf the index of the one serving it. -/
def fuse (dedup : Bool) (leaves : List LeafPlan) : List Physical × List Nat :=
  let f := leaves.foldl (fuseLeaf dedup) {}
  (f.physical.map (·.1), f.ownerOf)

/-! ## Naming -/

/-- `_sortable`: the identity of an expression as texts. -/
def Physical.sortable (p : Physical) : List String :=
  let k := p.keyLeaf.key
  let join (xs : List String) : String := "\x00".intercalate xs
  [k.source, k.strategy, join k.dimensions, join k.dimensionExprs, join k.filters,
    join (k.joinPath.map fun e => e.1 ++ "|" ++ e.2.1 ++ "|" ++ e.2.2), join k.finality,
    join (k.strategyParams.map fun e => e.1 ++ "=" ++ e.2), join p.columns]

/-- The expressions by identity: the position of each in the emitted order. -/
def sortOrder (ps : List Physical) : List Nat :=
  (List.range ps.length).insertionSort fun i j =>
    decide (((ps[i]?).map (·.sortable)).getD [] ≤ ((ps[j]?).map (·.sortable)).getD [])

/-- The name of the expression at a position. -/
def leafCteName (position : Nat) : String := s!"_leaf_{position}"

/-- The name of an expression by its index before sorting. -/
def nameOf (order : List Nat) (i : Nat) : String := leafCteName (order.idxOf i)

/-! ## The spine -/

/-- A relation read under its own name. -/
def readCte (kind : Sql.JoinKind) (name : String) (on : List Expr) : FromItem Query :=
  ⟨kind, .cte name, name, on⟩

/-- One dimension matched, NULL as a value. -/
def nullSafeEq (a b : Expr) : Expr :=
  .node .paren [.node .or [.mkEq a b, .mkAnd a.isNull b.isNull]]

/-- `_null_safe_join_on`, one condition for each column. -/
def nullSafeJoinOn (spine leaf : String) (columns : List String) : List Expr :=
  columns.map fun c => nullSafeEq (Expr.col c spine) (Expr.col c leaf)

/-- `_dims_from`. -/
def dimsFrom (table : String) (dims : List String) (joins : List (FromItem Query)) : Query :=
  .select .none (readDims table dims) (readCte .from table [] :: joins) [] []

/-- The output name of the finality marker. -/
def isFinalName : String := "is_final"

/-- One branch of the spine. A leaf without a finality rule contributes `TRUE`. -/
def spineBranch (dims : List String) (withIsFinal : Bool) (name : String) (p : Physical) : Query :=
  let marker : Expr := if p.projectsIsFinal then Expr.col isFinalName name
    else .node (.bool true) []
  .select .none (readDims name dims ++ if withIsFinal then [⟨marker, isFinalName⟩] else [])
    [readCte .from name []] [] []

/-- The union of several branches. -/
def unionDistinct : List Query → Query
  | [] => .select .none [] [] [] []
  | b :: bs => Query.unionAll false b bs

/-- `_build_spine`. -/
def buildSpine (dims : List String) (withIsFinal : Bool) (leaves : List (String × Physical))
    (extra : List String) : Query :=
  unionDistinct (leaves.map (fun p => spineBranch dims withIsFinal p.1 p.2) ++
    extra.map fun n => dimsFrom n dims [])

/-! ## Running totals -/

/-- The position of each row's order tuple among the observed ones. -/
def orderRank (env : Env) (leaf : String) (acc : Accumulate) (dims : List String) : Query :=
  .select .none (readDims leaf dims ++
    [⟨windowExpr (.call "DENSE_RANK" []) [] (orderKeys env leaf acc.orderBy) "", "_order_rank"⟩])
    [readCte .from leaf []] [] []

/-- `_fill_observed`: observed order tuples crossed with observed partitions, from each
partition's first tuple on. -/
def fillObserved (rankName : String) (acc : Accumulate) (dims : List String) : Query :=
  let rank := Expr.col "_order_rank" rankName
  let tuples : Query := .select .rows
    (readDims rankName acc.orderBy ++ [⟨rank, "_order_rank"⟩]) [readCte .from rankName []] [] []
  let partitions : Query := .select .none
    (readDims rankName acc.partitionBy ++ [⟨.node (.agg .min) [rank], "_first_rank"⟩])
    [readCte .from rankName []] [] (acc.partitionBy.map fun p => Expr.col p rankName)
  .select .none (dims.map fun d => ⟨Expr.col d (if d ∈ acc.orderBy then "t" else "p"), d⟩)
    [⟨.from, .derived tuples, "t", []⟩, ⟨.cross, .derived partitions, "p", []⟩]
    [.node .gte [Expr.col "_order_rank" "t", Expr.col "_first_rank" "p"]] []

/-- The suffix of the expression with the visible order tuples. -/
def visibleCte : String := "visible"

/-- One branch of the visible spine. -/
def visibleBranch (dims : List String) (visible : Option Accumulate) (name source : String) :
    Query :=
  match visible with
  | none => dimsFrom source dims []
  | some acc =>
      let v := name ++ "__" ++ visibleCte
      dimsFrom source dims [readCte .inner v (nullSafeJoinOn source v acc.orderBy)]

/-- `_build_visible_spine`: the dimension tuples a query with visibility filters shows. -/
def buildVisibleSpine (names : List String) (visible fills : Dict Accumulate)
    (dims : List String) : Query :=
  unionDistinct (names.flatMap fun name =>
    (name :: if fills.has name then [name ++ "__fill"] else []).map fun source =>
      visibleBranch dims (visible.get name) name source)

/-! ## The statement -/

/-- `_projection_is_already_the_output`. -/
def projectionIsOutput (metrics : List MetricPlan) (p : Physical) : Bool :=
  metrics.all (fun m => m.combine == .direct) && metrics.map (·.name) == p.columns &&
    (metrics.flatMap fun m => m.refs.map (·.column)) == p.columns

/-- The freshness of one source. -/
structure SourceFreshness where
  source : String
  lastValidatedAt : Option String
  stale : Bool := false
  deriving DecidableEq, Repr

/-- The composed statement with the merged metadata. -/
structure ComposeResult where
  statement : Statement
  guardrailsFired : List FiredGuardrail
  warnings : List String
  freshness : List SourceFreshness
  finality : Option FinalityMetadata
  cteCount : Nat
  scopedSources : List String
  sharedSources : List String

/-- `_merge_finality`: the earliest watermark, the union of the sources. -/
def mergeFinality (ps : List Physical) : Option FinalityMetadata :=
  match ps.filterMap (·.finality) with
  | [] => none
  | f :: fs => some
      ⟨fs.foldl (fun w g => if g.watermark < w then g.watermark else w) f.watermark,
        sortedSet ((f :: fs).flatMap (·.sourcesUsed)), "per_row"⟩

/-- `_result`. -/
def composeResult (env : Env) (ps : List Physical) (s : Statement) (cteCount : Nat) :
    Except Err ComposeResult := do
  let freshness ← (sortedSet (ps.flatMap (·.usedSources))).mapM fun n => do
    let source ← env.sources.getKey n
    return (⟨source.name, source.lastValidatedAt, false⟩ : SourceFreshness)
  return {
    statement := s
    guardrailsFired := (firstById (·.id) [] (ps.flatMap (·.fired))).insertionSort
      fun a b => a.id < b.id || (a.id == b.id && decide (a.kind ≤ b.kind))
    warnings := firstById id [] (ps.flatMap (·.warnings))
    freshness := freshness
    finality := mergeFinality ps
    cteCount := cteCount
    scopedSources := (ps.flatMap (·.scopedSources)).dedup
    sharedSources := (ps.flatMap (·.sharedSources)).dedup }

/-- The expressions in emitted order, each under its name. -/
structure Named where
  leaves : List (String × Physical)
  /-- The name of the expression serving a planned leaf. -/
  leafName : Nat → String
  dims : List String
  withIsFinal : Bool

/-- Sort and name the fused expressions. -/
def nameLeaves (dims : List String) (ps : List Physical) (ownerOf : List Nat) : Named :=
  let order := sortOrder ps
  { leaves := order.filterMap fun i => (ps[i]?).map fun p => (nameOf order i, p)
    leafName := fun l => nameOf order (ownerOf.getD l 0)
    dims := dims
    withIsFinal := ps.any (·.projectsIsFinal) }

/-- A leaf joined onto the spine; a finality leaf is matched on `is_final` too. -/
def joinLeaf (dims : List String) (p : String × Physical) : FromItem Query :=
  readCte .left p.1 (nullSafeJoinOn grainName p.1 dims ++
    if p.2.projectsIsFinal then
      [.mkEq (Expr.col isFinalName grainName) (Expr.col isFinalName p.1)] else [])

/-- Where the outer `SELECT` reads: the only leaf, the spine with every leaf joined to it, or,
without dimensions, the leaves side by side. -/
def outerFrom (n : Named) (singleCte : Bool) : List (FromItem Query) :=
  match n.leaves with
  | [] => []
  | p :: ps =>
      if singleCte then [readCte .from p.1 []]
      else if n.dims.isEmpty then
        readCte .from p.1 [] :: ps.map fun q => readCte .cross q.1 []
      else readCte .from grainName [] :: (p :: ps).map (joinLeaf n.dims)

/-- The relation the dimensions of the result are read from. -/
def dimSource (n : Named) (singleCte : Bool) : String :=
  match n.leaves with
  | p :: _ => if singleCte then p.1 else grainName
  | [] => grainName

/-- The outer `SELECT`: dimensions, metric values, the marker and the zero-denominator flags. -/
def outerSelect (env : Env) (n : Named) (singleCte visibility : Bool)
    (metrics : List MetricPlan) : Query :=
  let src := dimSource n singleCte
  let value (i : Nat) (m : MetricPlan) : Projection :=
    ⟨metricValue env n.leafName m, if visibility then s!"_m{i}" else m.name⟩
  let marker : List Projection :=
    if n.withIsFinal then [⟨Expr.col isFinalName src, isFinalName⟩] else []
  let flags : List Projection := (metrics.filter countsZeroDenominator).map fun m =>
    ⟨zeroDenominatorFlag (countedDenominators env n.leafName m), zeroDenominatorColumn m.name⟩
  .select .none (readDims src n.dims ++ metrics.mapIdx value ++ marker ++ flags)
    (outerFrom n singleCte) [] []

/-- The leaves as common table expressions, each after the ones it needs. -/
def leafCtes (leaves : List (String × Physical)) : Except Err (List (String × Query)) := do
  let ctes ← leaves.mapM fun p => do
    let built ← p.2.keyLeaf.rebuild p.2.metrics (p.1 ++ "__")
    return built.2.map (fun a => (a.name, a.body)) ++ [(p.1, built.1)]
  return ctes.flatten

/-- For each leaf that a cumulative metric reads, the first of them with a property. -/
def accumulations (leafName : Nat → String) (ms : List MetricPlan) (p : Accumulate → Bool) :
    Dict Accumulate :=
  ms.foldl (fun d m =>
    match m.accumulate, m.refs with
    | some acc, r :: _ =>
        if p acc && !d.has (leafName r.leaf) then d ++ [(leafName r.leaf, acc)] else d
    | _, _ => d) []

/-- The final `SELECT` of a query with visibility filters. -/
def visibleSelect (dims : List String) (metrics : List MetricPlan) : Query :=
  .select .none (readDims "_accumulated" dims ++
      metrics.mapIdx fun i m => ⟨Expr.col s!"_m{i}" "_accumulated", m.name⟩)
    [readCte .from "_accumulated" [],
      readCte .inner "_visible_grain" (nullSafeJoinOn "_accumulated" "_visible_grain" dims)] [] []

/-- The statement over named leaves. -/
def composeStatement (env : Env) (n : Named) (metrics : List MetricPlan) :
    Except Err Statement := do
  let accumulating := (metrics.flatMap (·.walk)).filter fun m => m.accumulate.isSome
  let singleCte := n.leaves.length == 1 && accumulating.isEmpty
  let fills := accumulations n.leafName accumulating
    fun a => a.fillObserved && !a.partitionBy.isEmpty
  let visible := accumulations n.leafName accumulating fun a => a.visibility
  let leaves ← leafCtes n.leaves
  let fillCtes : List (String × Query) := fills.sorted.flatMap fun p =>
    [(p.1 ++ "__order_rank", orderRank env p.1 p.2 n.dims),
      (p.1 ++ "__fill", fillObserved (p.1 ++ "__order_rank") p.2 n.dims)]
  -- one leaf alone, or leaves without dimensions, need no grid of keys
  let spine : List (String × Query) :=
    if singleCte || n.dims.isEmpty then []
    else [(grainName, buildSpine n.dims n.withIsFinal n.leaves
      (fills.sorted.map fun p => p.1 ++ "__fill"))]
  let outer := outerSelect env n singleCte (!visible.isEmpty) metrics
  let shown : List (String × Query) :=
    if visible.isEmpty then []
    else [("_accumulated", outer),
      ("_visible_grain", buildVisibleSpine (n.leaves.map (·.1)) visible fills n.dims)]
  return {
    ctes := leaves ++ fillCtes ++ spine ++ shown
    body := if visible.isEmpty then outer else visibleSelect n.dims metrics }

/-- A lone leaf whose columns already are the output, as a statement of its own. -/
def loneStatement (p : Physical) : Except Err Statement := do
  let built ← p.keyLeaf.rebuild p.metrics ""
  return ⟨built.2.map fun a => (a.name, a.body), built.1⟩

/-- A cumulative metric is not combined with a finality rule. -/
def refuseCumulativeFinality (metrics : List MetricPlan) (withIsFinal : Bool) : Except Err Unit :=
  match (metrics.flatMap (·.walk)).find? fun m => m.accumulate.isSome || m.cumulative with
  | some m =>
      if withIsFinal then .error (.unsupportedMeasure (s!"cumulative metric {pyRepr m.name} " ++
        "cannot be combined with a metric under a finality rule in one query; request them " ++
        "separately"))
      else .ok ()
  | none => .ok ()

/-- The statement of a list of fused expressions. -/
def physicalStatement (env : Env) (dims : List String) (ps : List Physical) (ownerOf : List Nat)
    (metrics : List MetricPlan) : Except Err (Statement × Nat) :=
  let named : Except Err (Statement × Nat) := do
    let s ← composeStatement env (nameLeaves dims ps ownerOf) metrics
    return (s, ps.length)
  match ps with
  | [p] =>
      if ((metrics.flatMap (·.walk)).all fun m => m.accumulate.isNone) &&
          projectionIsOutput metrics p
      then do
        let s ← loneStatement p
        return (s, 0)
      else named
  | _ => named

/-- `compose`: leaves in planning order and metrics in request order, as one statement. -/
def compose (env : Env) (leaves : List LeafPlan) (metrics : List MetricPlan) (dedup : Bool) :
    Except Err ComposeResult :=
  match leaves with
  | [] => .error (.internal "list index out of range")
  | l :: _ => do
      let fused := fuse dedup leaves
      refuseCumulativeFinality metrics (fused.1.any (·.projectsIsFinal))
      let s ← physicalStatement env l.dimNames fused.1 fused.2 metrics
      composeResult env ((nameLeaves l.dimNames fused.1 fused.2).leaves.map (·.2)) s.1 s.2

end Canonic
