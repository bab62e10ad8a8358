import Canonic.Compiler.Names
import Canonic.Contracts.Resolver

set_option autoImplicit false

/-! # Conditions of a leaf

`_helpers.py`: the predicates a leaf's `WHERE` is made of. Four kinds are built by four functions,
each with its own way of binding names: the query's filters, the population of a metric, the
tenant predicates of the aliases a leaf joins, and the filters of matching guardrails. -/

namespace Canonic

open Sql (Expr)

/-- A metric bound to its source and measure. -/
structure ResolvedMetric where
  name : String
  source : String
  measure : Measure
  deriving DecidableEq, Repr

/-! ## Query filters -/

/-- `_denied_filter_columns`: the source and column pairs behind dimensions the policy denies. -/
def deniedFilterColumns (lib : Lib) (ss : Sources) (policy : EffectivePolicy) :
    List (String × String) :=
  ss.list.flatMap fun s =>
    (s.dimensions.filter fun d => !policy.dimensionAllowed d.name).flatMap fun d =>
      (d.backingColumns lib).map fun c => (s.name, c)

/-- A bound filter, refused when it reads a denied column. -/
def refuseDenied (denied : List (String × String)) (tree : Dict String) (bound : Expr) :
    Except Err Unit :=
  match bound.columns.find? fun c => decide ((tree.getD c.table c.table, c.name) ∈ denied) with
  | some c => .error (.unreachable s!"filter references unknown name {pyRepr c.name}" [])
  | none => .ok ()

/-- One query filter, with the aliases it uses. -/
def bindFilter (env : Env) (shifted : ShiftMap) (owner : String) (tree : Dict String)
    (policy : EffectivePolicy) (raw : String) : Except Err (Expr × List String) := do
  let parsed ← env.parse raw
  let bound ← qualifyColumns env shifted parsed owner (some tree)
  refuseDenied (deniedFilterColumns env.lib env.sources policy) tree bound.1
  return (env.shift shifted bound.1, bound.2)

/-- `_bind_filters`. -/
def bindFilters (env : Env) (shifted : ShiftMap) (filters : List String) (owner : String)
    (tree : Dict String) (policy : EffectivePolicy) : Except Err (List Expr × List String) := do
  let bound ← filters.mapM (bindFilter env shifted owner tree policy)
  return (bound.map (·.1), bound.flatMap (·.2))

/-! ## Populations -/

/-- `_population_filter_conditions`: read on the stored columns. The aliases used are dropped. -/
def populationFilterConditions (env : Env) (populationFilter : Option String) (owner : String)
    (tree : Dict String) : Except Err (List Expr) :=
  match populationFilter.filter (· ≠ "") with
  | none => .ok []
  | some text => do
      let parsed ← env.parse text
      let bound ← qualifyColumns env [] parsed owner (some tree)
      return [bound.1]

/-- `_combine_population_filters`. -/
def combinePopulationFilters (filters : List (Option String)) : Option String :=
  match (filters.filterMap id).filter (· ≠ "") with
  | [] => none
  | present => some (" AND ".intercalate (present.map fun f => "(" ++ f ++ ")"))

/-! ## Tenancy -/

/-- The types whose tenant values are compared as integers (`_NUMERIC_TENANT_TYPES`). -/
def NormalizedType.isNumericTenant : NormalizedType → Bool
  | .int | .decimal | .float => true
  | _ => false

/-- One tenant value matched to the type of the scope column. -/
def matchTenant (columnType : Option NormalizedType) (place : String) (v : TenantValue) :
    Except Err TenantValue :=
  if (columnType.map (·.isNumericTenant)).getD false then
    match v with
    | .int n => .ok (.int n)
    | .str s =>
        match pyInt s with
        | some n => .ok (.int n)
        | none => .error (.tenantUnresolved
            s!"tenant value {v.repr} cannot be matched to the numeric column {place}")
  else if columnType = some .string then
    match v with
    | .int n => .ok (.str (toString n))
    | .str s => .ok (.str s)
  else .ok v

/-- `_tenant_literals`: matched, without duplicates, in order. -/
def tenantLiterals (tenants : List TenantValue) (columnType : Option NormalizedType)
    (place : String) : Except Err (List TenantValue) := do
  let matched ← tenants.mapM (matchTenant columnType place)
  return matched.dedup.insertionSort fun a b => a.le b

/-- A whole number as a literal. -/
def intLiteral (n : Int) : Expr :=
  if n < 0 then .call "Neg" [.number (toString (-n))] else .number (toString n)

/-- The literal of a tenant value. -/
def TenantValue.literal : TenantValue → Expr
  | .int n => intLiteral n
  | .str s => .string s

/-- `_tenant_predicate`. -/
def tenantPredicate (alias_ column : String) (values : List TenantValue) : Expr :=
  match values with
  | [v] => .mkEq (Expr.col column alias_) v.literal
  | vs => .node .isIn (Expr.col column alias_ :: vs.map (·.literal))

/-- The tenant predicates of a leaf and the sources they were built for. -/
structure TenantScoping where
  conditions : List Expr := []
  scopedSources : List String := []
  sharedSources : List String := []
  warnings : List String := []

/-- Two parts of a scoping side by side. -/
def TenantScoping.append (a b : TenantScoping) : TenantScoping :=
  ⟨a.conditions ++ b.conditions, a.scopedSources ++ b.scopedSources,
    a.sharedSources ++ b.sharedSources, a.warnings ++ b.warnings⟩

/-- `_scope_column_type`. -/
def scopeColumnType (ss : Sources) (source column : String) : Option NormalizedType :=
  (ss.get source).bind (·.columnType column)

/-- The message of a source that the tenancy policy does not mention. -/
def undeclaredMessage (source : String) : String :=
  s!"source {pyRepr source} is declared in neither scoped_sources nor shared_sources of the " ++
    "tenancy policy"

/-- One alias of a leaf: its predicate when its source is scoped. -/
def tenantAlias (resolver : ContractResolver) (ss : Sources) (tree : Dict String)
    (tenants : List TenantValue) (alias_ : String) : Except Err TenantScoping :=
  let source := tree.getD alias_ alias_
  match resolver.tenancyFor source with
  | .scopeRule _ column =>
      if tenants.isEmpty then .ok {}
      else do
        let values ← tenantLiterals tenants (scopeColumnType ss source column)
          s!"{source}.{column}"
        return { conditions := [tenantPredicate alias_ column values], scopedSources := [source] }
  | .shared => .ok { sharedSources := [source] }
  | .undeclared =>
      match resolver.tenancy with
      | none => .error (.internal "AssertionError")
      | some policy =>
          match policy.undeclaredSource with
          | .warn => .ok { warnings := [undeclaredMessage source ++
              "; serving unfiltered under undeclared_source: warn"] }
          | .deny => .error (.tenantScopeMissing (undeclaredMessage source))

/-- `_tenant_conditions`: one part for the owner and for each join of the leaf. -/
def tenantConditions (resolver : ContractResolver) (owner : String) (edges : List JoinEdge)
    (tree : Dict String) (tenants : List TenantValue) (policy : EffectivePolicy) (ss : Sources) :
    Except Err TenantScoping :=
  if policy.tenancyExempt then .ok {}
  else do
    let parts ← (owner :: aliasesOf edges).mapM (tenantAlias resolver ss tree tenants)
    return parts.foldl TenantScoping.append {}

/-! ## Guardrails -/

/-- A guardrail as it is reported with the result. -/
structure FiredGuardrail where
  id : String
  kind : String
  severity : String
  predicate : Option String
  entities : List String
  declaredKnowledgeRefs : List String
  deriving DecidableEq, Repr

/-- The filter a guardrail carries, when it is not empty. -/
def Guardrail.activeFilter (g : Guardrail) : Option String := g.filter.filter (· ≠ "")

/-- `_block_or_warn`. -/
def blockOrWarn (g : Guardrail) (candidates : List String) : Except Err String :=
  match g.severity with
  | .error => .error (.guardrailBlock g.rationale candidates)
  | .warn => .ok s!"{g.id}: {g.rationale}"

/-- `_guardrail_predicate`. -/
def guardrailPredicate (g : Guardrail) : Option String :=
  match g.kind with
  | .mandatoryFilter => g.filter
  | .requiredDimension => some ("group by or filter on " ++ g.dimension.getD "None")
  | .restrictSource role => some s!"source role = {role}"
  | .minTrust level => some s!"trust tier >= {level}"

/-- The entries whose id was not seen before, in order. -/
def firstById {α : Type} (id : α → String) : List String → List α → List α
  | _, [] => []
  | seen, x :: xs =>
      if id x ∈ seen then firstById id seen xs else x :: firstById id (id x :: seen) xs

theorem mem_firstById {α : Type} {id : α → String} {x : α} {xs : List α} :
    ∀ {seen : List String}, x ∈ firstById id seen xs ↔
      id x ∉ seen ∧ (xs.find? fun y => id y == id x) = some x := by
  induction xs with
  | nil => simp [firstById]
  | cons y ys ih =>
      intro seen
      rw [firstById]
      by_cases hy : id y ∈ seen
      · have hne : id x ∉ seen → id y ≠ id x := fun h heq => h (heq ▸ hy)
        rw [if_pos hy, ih]
        constructor
        · rintro ⟨hx, hfind⟩
          exact ⟨hx, by simpa [hne hx] using hfind⟩
        · rintro ⟨hx, hfind⟩
          exact ⟨hx, by simpa [hne hx] using hfind⟩
      · rw [if_neg hy, List.mem_cons, ih]
        by_cases heq : id y = id x
        · simp only [List.mem_cons, heq, beq_self_eq_true, List.find?_cons_of_pos, true_or,
            not_true_eq_false, false_and, or_false, Option.some.injEq]
          exact ⟨fun h => ⟨heq ▸ hy, h.symm⟩, fun h => h.2.symm⟩
        · have hne : x ≠ y := fun h => heq (h ▸ rfl)
          have hne' : id x ≠ id y := fun h => heq h.symm
          simp [hne, heq, hne']

/-- Without repeated texts nothing is lost. -/
theorem mem_firstById_self {xs : List String} {x : String} :
    x ∈ firstById id [] xs ↔ x ∈ xs := by
  rw [mem_firstById]
  constructor
  · rintro ⟨-, hfind⟩
    exact List.mem_of_find?_eq_some hfind
  · intro hx
    refine ⟨by simp, ?_⟩
    obtain ⟨y, hy⟩ : ∃ y, (xs.find? fun y => id y == id x) = some y :=
      Option.isSome_iff_exists.mp (by simpa using hx)
    have hyx : y = x := by simpa using List.find?_some hy
    rw [hy, hyx]

/-- `filter_entities`: the columns a filter reads and the dimensions declared on them. -/
def filterEntities (env : Env) (filterSql owner : String) : Except Err (List String) :=
  match env.parse filterSql >>= fun e => qualifyColumns env [] e owner none with
  | .error (.parseError _) => .ok []
  | .error (.unreachable _ _) => .ok []
  | .error e => .error e
  | .ok bound =>
      let ofColumn (c : Sql.Column) : List String :=
        match env.sources.get c.table with
        | none => []
        | some s =>
            s!"{s.connection}.{s.name}.{c.name}" ::
              ((s.dimensions.filter fun d => d.column == some c.name).map fun d =>
                s!"{s.connection}.{s.name}.{d.name}")
      .ok (firstById id [] (bound.1.columns.flatMap ofColumn))

/-- `_guardrail_entities`: the measure, the columns of the filter and the dimension. -/
def guardrailEntities (env : Env) (g : Guardrail) (m : ResolvedMetric) :
    Except Err (List String) := do
  let member (name : String) : List String :=
    match env.sources.get m.source with
    | some s => [s!"{s.connection}.{m.source}.{name}"]
    | none => []
  let read ← match g.activeFilter with
    | some f => filterEntities env f m.source
    | none => .ok []
  let dimension := match g.dimension.filter (· ≠ "") with
    | some d => member (lastComponent d)
    | none => []
  return firstById id [] (member m.measure.name ++ read ++ dimension)

/-- What one guardrail contributes: its bound filter, read without an alias tree. -/
def guardrailCondition (env : Env) (source : String) (g : Guardrail) : Except Err (List Expr) :=
  match g.activeFilter with
  | none => .ok []
  | some text => do
      let parsed ← env.parse text
      let bound ← qualifyColumns env [] parsed source none
      return [bound.1]

/-- The report entry of one guardrail. -/
def fireGuardrail (env : Env) (m : ResolvedMetric) (g : Guardrail) :
    Except Err FiredGuardrail := do
  let entities ← guardrailEntities env g m
  return ⟨g.id, g.kind.value, g.severity.value, guardrailPredicate g, entities, g.knowledgeRefs⟩

/-- The warning line of a guardrail that filters under `severity: warn`. -/
def guardrailWarning (g : Guardrail) : List String :=
  if g.activeFilter.isSome ∧ g.severity = .warn then [s!"{g.id}: {g.rationale}"] else []

/-- Conditions, fired entries and warnings of the guardrails of one metric. -/
structure GuardrailEnforcement where
  conditions : List Expr := []
  fired : List FiredGuardrail := []
  warnings : List String := []

/-- `_enforce_guardrails` for one metric: every guardrail matched by its source and measure. -/
def enforceGuardrails (env : Env) (resolver : ContractResolver) (context : Option String)
    (m : ResolvedMetric) : Except Err GuardrailEnforcement := do
  let gs := firstById (·.id) [] (resolver.guardrailsFor m.source m.measure.name context)
  let conditions ← gs.mapM (guardrailCondition env m.source)
  let fired ← gs.mapM (fireGuardrail env m)
  return ⟨conditions.flatten, fired, gs.flatMap guardrailWarning⟩

/-- The aliases one guardrail's filter reaches. -/
def guardrailAliases (env : Env) (tree : Dict String) (p : String × Guardrail) :
    Except Err (List String) :=
  match p.2.activeFilter with
  | none => .ok []
  | some text => do
      let parsed ← env.parse text
      let bound ← qualifyColumns env [] parsed p.1 (some tree)
      return bound.2

/-- `_guardrail_join_sources`: the aliases the filters of matching guardrails reach, read with
the alias tree. -/
def guardrailJoinSources (env : Env) (resolver : ContractResolver) (context : Option String)
    (tree : Dict String) (metrics : List ResolvedMetric) : Except Err (List String) := do
  let matched := metrics.flatMap fun m =>
    ((resolver.guardrailsFor m.source m.measure.name context).filter
      fun g => g.activeFilter.isSome).map fun g => (m.source, g)
  let used ← (firstById (·.2.id) [] matched).mapM (guardrailAliases env tree)
  return used.flatten

end Canonic
