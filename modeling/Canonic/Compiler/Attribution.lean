import Canonic.Compiler.Strategies.Combined
import Canonic.Compiler.Schema
import Canonic.Sql.Reference

set_option autoImplicit false

/-! # Attribution of conversions

`_build_conversions`: the base events are grouped, joined with the conversion events they may have
led to, ranked so that the latest base event of each conversion event comes first, and joined back
by the grain of the conversion source. Each conversion event that has a base event before it then
counts once, for a latest one, as long as a name of the common table expressions says which column
it is. -/

namespace Canonic

open Sql (Expr Query Projection FromItem Scope Value Table Statement StandardSql)

/-! ## Moving a day -/

section

variable (d : Dialect) (amount : Int) (unit : DurationUnit) (asDate : Bool)

/-- What is moved may be read elsewhere. -/
theorem Dialect.mapColumns_dateAdd (f : Sql.Column → Expr) (day : Expr) :
    (d.dateAdd day amount unit asDate).mapColumns f =
      d.dateAdd (day.mapColumns f) amount unit asDate := by
  cases d with
  | sqlite =>
      cases unit <;> cases asDate <;>
        simp [Dialect.dateAdd, Dialect.sqliteDateAdd, Dialect.normalizeDateStep, Dialect.sqliteMove,
          Dialect.sqliteMonths, Dialect.sqliteModifier, Expr.call, Expr.cast, Expr.string,
          Expr.number]
  | clickhouse => simp [Dialect.dateAdd, Dialect.dateAddNode, Expr.call, Expr.number, Expr.var]
  | _ =>
      cases asDate <;>
        simp [Dialect.dateAdd, Dialect.dateAddNode, Expr.call, Expr.number, Expr.var, Expr.cast]

theorem Dialect.isPlain_dateAdd {day : Expr} (h : day.isPlain = true) :
    (d.dateAdd day amount unit asDate).isPlain = true := by
  cases d with
  | sqlite =>
      cases unit <;> cases asDate <;>
        simp [Dialect.dateAdd, Dialect.sqliteDateAdd, Dialect.normalizeDateStep, Dialect.sqliteMove,
          Dialect.sqliteMonths, Dialect.sqliteModifier, Expr.call, Expr.cast, Expr.string,
          Expr.number, Sql.Op.readsGroup, h]
  | clickhouse =>
      simp [Dialect.dateAdd, Dialect.dateAddNode, Expr.call, Expr.number, Expr.var,
        Sql.Op.readsGroup, h]
  | _ =>
      cases asDate <;>
        simp [Dialect.dateAdd, Dialect.dateAddNode, Expr.call, Expr.number, Expr.var, Expr.cast,
          Sql.Op.readsGroup, h]

/-- A moved column has one value wherever it is read. -/
theorem eval_dateAdd {α : Type} [LinearOrder α] (S : StandardSql α) {s s' : Scope α}
    {c c' : Sql.Column} (h : S.engine.column s c = S.engine.column s' c') :
    S.engine.eval s (d.dateAdd (.column c) amount unit asDate) =
      S.engine.eval s' (d.dateAdd (.column c') amount unit asDate) := by
  have hread := S.eval_congr (d.dateAdd (.column c) amount unit asDate) (fun _ => c) (fun _ => c')
    (d.isPlain_dateAdd amount unit asDate (Expr.isPlain_column c)) fun _ _ => h
  rwa [Dialect.mapColumns_dateAdd, Dialect.mapColumns_dateAdd, Expr.mapColumns_column,
    Expr.mapColumns_column] at hread

end

/-! ## The leaf -/

/-- A conversions leaf with its parts found: the dimensions, each the value of a row, the `FROM`
clause of the base events, and the joins and conditions of the conversion events. -/
structure ConversionLeaf where
  inputs : LeafInputs
  metric : String
  metrics : List LeafMetric
  conversions : Conversions
  source : SemanticSource
  dims : List Projection
  from_ : List (FromItem Query)
  eventJoins : List (FromItem Query)
  eventConditions : List Expr
  source_eq : inputs.ctx.env.sources.getKey conversions.converted.resolved.source = .ok source
  dims_eq : dimProjections inputs.ctx.env inputs.shifted inputs.mask inputs.dimensions = .ok dims
  from_eq : fromAndJoins inputs.ctx.env inputs.owner inputs.edges = .ok from_
  events_eq : conversions.events = .select .none
    [⟨Expr.col "*" conversions.converted.resolved.source, "*"⟩]
    (⟨.from, .source source.name source.table, conversions.converted.resolved.source, []⟩ ::
      eventJoins) eventConditions []
  plain : ∀ p ∈ dims, p.expr.isPlain = true
  grain_ne : source.grain ≠ []
  aggregated : conversions.measure.isPlain = false ∧ conversions.measure.isWindow = false
  paired : conversions.base.properties.length = conversions.converted.properties.length
  alias_ne : ∀ i ∈ eventJoins, i.alias_ ≠ conversions.converted.resolved.source
  owner_ne : inputs.owner ≠ ""
  target_ne : conversions.converted.resolved.source ≠ ""

namespace ConversionLeaf

variable (l : ConversionLeaf)

/-- The source of the conversion events. -/
def target : String := l.conversions.converted.resolved.source

def baseName : String := rollingName l.inputs "base"

def eventsName : String := rollingName l.inputs "conversions"

def attributedName : String := rollingName l.inputs "attributed"

/-- What the base events are projected to. -/
def baseProjections : List Projection :=
  l.dims ++ (matchedColumns l.conversions.base).map fun p => ⟨Expr.col p.2.name l.inputs.owner, p.1⟩

def baseKeys : List Expr := l.baseProjections.map (·.expr)

def baseQuery : Query := .select .none l.baseProjections l.from_ l.inputs.conditions l.baseKeys

def keys : List Expr := l.source.grain.map fun g => Expr.col g l.target

/-- The latest base event first, then by its dimensions. -/
def order : List (Bool × Expr) :=
  (true, Expr.col "_event_time" "_base_event") ::
    l.dims.map fun p => (false, Expr.col p.name "_base_event")

def matches_ : List Expr := matchConditions l.inputs.ctx.env.adapter l.conversions

def keyProjections : List Projection :=
  l.keys.mapIdx fun k e => ⟨e, s!"_conversion_key_{k}"⟩

/-- What a match is projected to, without its rank. -/
def matchProjections : List Projection :=
  l.keyProjections ++ l.dims.map fun p => ⟨Expr.col p.name "_base_event", p.name⟩

def attributedProjections : List Projection :=
  l.matchProjections ++ [⟨Sql.rowNumber l.keys l.order, "_attribution"⟩]

def attributedQuery : Query :=
  .select .none l.attributedProjections
    [⟨.from, .cte l.eventsName, l.target, []⟩, ⟨.inner, .cte l.baseName, "_base_event", l.matches_⟩]
    [] []

def readDimensions : List Projection :=
  l.dims.map fun p => ⟨Expr.col p.name "_attributed", p.name⟩

def outputName : String := ((l.metrics.head?.bind (·.alias_)).filter (· ≠ "")).getD l.metric

/-- Which match is joined with a conversion event. -/
def joinedOn : List Expr :=
  l.keys.mapIdx fun k e => .mkEq (Expr.col s!"_conversion_key_{k}" "_attributed") e

def firstOnly : Expr := .mkEq (Expr.col "_attribution" "_attributed") (.number "1")

def outer : Query :=
  .select .none (l.readDimensions ++ [⟨l.conversions.measure, l.outputName⟩])
    [⟨.from, .cte l.eventsName, l.target, []⟩,
      ⟨.inner, .cte l.attributedName, "_attributed", l.joinedOn⟩]
    [firstOnly] (l.readDimensions.map (·.expr))

def ctes : List AuxCte :=
  [⟨l.baseName, l.baseQuery⟩, ⟨l.eventsName, l.conversions.events⟩,
    ⟨l.attributedName, l.attributedQuery⟩]

theorem dimNames_eq : l.inputs.dimNames = l.dims.map (·.name) :=
  (dimProjections_names l.dims_eq).symm

theorem readDims_eq (table : String) : readDims table l.inputs.dimNames =
    l.dims.map fun p => ⟨Expr.col p.name table, p.name⟩ := by
  rw [dimNames_eq, readDims, List.map_map]
  rfl

/-- The query that is built for a leaf. -/
theorem buildConversions_eq {r : Query × List AuxCte}
    (h : buildConversions l.metric l.conversions l.inputs l.metrics = .ok r) :
    r = (l.outer, l.ctes) := by
  have hbase : baseEvents l.inputs l.conversions = .ok l.baseQuery := by
    simp only [baseEvents, bind_eq_ok, pure_eq_ok]
    exact ⟨l.dims, l.dims_eq, l.from_, l.from_eq, rfl⟩
  have hattributed : attributedSelect l.inputs l.conversions l.eventsName l.baseName l.keys =
      l.attributedQuery := by
    unfold attributedSelect attributedQuery attributedProjections matchProjections
    rw [readDims_eq, dimNames_eq, List.map_map]
    simp only [windowExpr, Sql.rowNumber, order, List.map_cons, List.map_map]
    rfl
  unfold buildConversions at h
  split at h
  · cases h
  · simp only [bind_eq_ok, pure_eq_ok] at h
    obtain ⟨base, hbase', source, hsource, rfl⟩ := h
    rw [hbase] at hbase'
    obtain rfl := Except.ok.inj hbase'
    rw [l.source_eq] at hsource
    obtain rfl := Except.ok.inj hsource
    rw [readDims_eq]
    have hctes : l.ctes = [⟨l.baseName, l.baseQuery⟩, ⟨l.eventsName, l.conversions.events⟩,
        ⟨l.attributedName, attributedSelect l.inputs l.conversions l.eventsName l.baseName
          l.keys⟩] := by
      rw [hattributed]
      rfl
    rw [hctes]
    rfl

/-! ### The events -/

variable {α : Type} [LinearOrder α] (S : StandardSql α) (db : String → Table α)

/-- The base events: the rows of the leaf that pass its conditions. -/
def baseRows : List (Scope α) :=
  (Query.evalItems S.engine db (fun _ => ⟨[], []⟩) l.from_ [[]]).filter fun s =>
    S.engine.holds s l.inputs.conditions

/-- The table of the conversion source. -/
def table : Table α := db l.source.table

/-- A conversion event in scope. -/
def event (r : List (Value α)) : Scope α := [(l.target, ⟨(l.table db).columns, some r⟩)]

/-- The joined rows of a row of the conversion source that pass its own conditions. -/
def eventScopes (r : List (Value α)) : List (Scope α) :=
  (Query.evalItems S.engine db (fun _ => ⟨[], []⟩) l.eventJoins [l.event db r]).filter fun s =>
    S.engine.holds s l.eventConditions

/-- The conversion events: the columns of the conversion source in each of its joined rows. -/
def events : Table α :=
  ⟨(l.table db).columns, (l.table db).rows.flatMap fun r => (l.eventScopes S db r).map fun _ => r⟩

def grainOf (r : List (Value α)) : List (Value α) := l.source.grain.map ((l.table db).value r)

/-- The grain of the conversion source is unique and known, and the joins of its conditions, which
do not fan out, find one row at most. -/
structure KeyedEvents : Prop where
  unique : ((l.table db).rows.map (l.grainOf db)).Nodup
  known : ∀ r ∈ (l.table db).rows, ∀ g ∈ l.source.grain, (l.table db).value r g ≠ .null
  single : ∀ r ∈ (l.table db).rows, (l.eventScopes S db r).length ≤ 1

/-- A column of a base event. -/
def baseColumn (c : Column) : Expr := Expr.col c.name l.inputs.owner

/-- The time of a base event. -/
def timeOf (s : Scope α) : Value α := S.engine.eval s (l.baseColumn l.conversions.base.time)

/-- The end of the window that starts at a base event. -/
def windowEnd (w : Duration) (s : Scope α) : Value α :=
  S.engine.eval s (l.inputs.ctx.env.adapter.dateAdd (l.baseColumn l.conversions.base.time) w.count
    w.unit (l.conversions.base.time.type = .date))

/-- A base event may have led to a conversion event: the entity and the constant properties are the
same, and the conversion is not before it and not past the window. -/
structure Qualifies (s : Scope α) (r : List (Value α)) : Prop where
  entity : S.engine.eval s (l.baseColumn l.conversions.base.entity) ≠ .null ∧
    S.engine.eval s (l.baseColumn l.conversions.base.entity) =
      (l.table db).value r l.conversions.converted.entity.name
  known : l.timeOf S s ≠ .null ∧ (l.table db).value r l.conversions.converted.time.name ≠ .null
  notBefore : l.timeOf S s ≤ (l.table db).value r l.conversions.converted.time.name
  window : ∀ w ∈ l.conversions.params.window, l.windowEnd S w s ≠ .null ∧
    (l.table db).value r l.conversions.converted.time.name ≤ l.windowEnd S w s
  property : ∀ (k : ℕ) (b c : Column), l.conversions.base.properties[k]? = some b →
    l.conversions.converted.properties[k]? = some c →
      S.engine.eval s (l.baseColumn b) ≠ .null ∧
        S.engine.eval s (l.baseColumn b) = (l.table db).value r c.name

variable {S db}

theorem mem_events {r : List (Value α)} :
    r ∈ (l.events S db).rows ↔ r ∈ (l.table db).rows ∧ l.eventScopes S db r ≠ [] := by
  simp only [events, List.mem_flatMap, List.mem_map]
  constructor
  · rintro ⟨r', hr', s, hs, rfl⟩
    exact ⟨hr', List.ne_nil_of_mem hs⟩
  · rintro ⟨hr, hne⟩
    obtain ⟨s, hs⟩ := List.exists_mem_of_ne_nil _ hne
    exact ⟨r, hr, s, hs, rfl⟩

/-- An event is kept once. -/
theorem events_sublist (h : l.KeyedEvents S db) :
    (l.events S db).rows.Sublist (l.table db).rows := by
  have hsingle := h.single
  unfold events
  simp only
  generalize (l.table db).rows = rows at hsingle
  induction rows with
  | nil => exact .slnil
  | cons r rows ih =>
      have hrest := ih fun r' hr' => hsingle r' (List.mem_cons_of_mem _ hr')
      have hr := hsingle r List.mem_cons_self
      rw [List.flatMap_cons]
      rcases hscopes : l.eventScopes S db r with _ | ⟨s, _ | ⟨s', ss⟩⟩
      · exact hrest.cons r
      · exact hrest.cons_cons r
      · rw [hscopes] at hr
        simp at hr

theorem nodup_events (h : l.KeyedEvents S db) :
    ((l.events S db).rows.map (l.grainOf db)).Nodup :=
  h.unique.sublist ((l.events_sublist h).map _)

/-! ### The base events, grouped -/

variable (S db)

/-- What a base event is projected to. -/
def tuple (s : Scope α) : List (Value α) := S.engine.keyOf l.baseKeys s

def baseTable : Table α := l.baseQuery.eval S.engine db fun _ => ⟨[], []⟩

variable {S db}

theorem columns_baseTable : (l.baseTable S db).columns = l.baseProjections.map (·.name) := by
  rw [baseTable, baseQuery, Query.eval]

theorem isPlain_baseProjections : ∀ p ∈ l.baseProjections, p.expr.isPlain = true := by
  intro p hp
  rcases List.mem_append.mp hp with hp | hp
  · exact l.plain p hp
  · obtain ⟨c, -, rfl⟩ := List.mem_map.mp hp
    exact Expr.isPlain_col _ _

theorem baseProjections_ne : l.baseProjections ≠ [] := by
  simp [baseProjections, matchedColumns]

/-- One row for each tuple of the base events. -/
theorem rows_baseTable :
    (l.baseTable S db).rows.Perm (((l.baseRows S db).map (l.tuple S)).dedup) := by
  have hgrouped := @StandardSql.project_grouped _ _ S l.baseProjections []
    l.isPlain_baseProjections (Or.inl l.baseProjections_ne) (by simp) (l.baseRows S db)
  have hkeys : l.baseProjections.map (·.expr) ≠ [] := by simpa using l.baseProjections_ne
  simp only [List.append_nil, List.map_nil, List.map_id'] at hgrouped
  rw [Sql.Engine.groupKeys, if_neg hkeys] at hgrouped
  rw [baseTable, baseQuery, Query.eval]
  exact hgrouped

theorem mem_baseTable {b : List (Value α)} :
    b ∈ (l.baseTable S db).rows ↔ ∃ s ∈ l.baseRows S db, l.tuple S s = b := by
  rw [l.rows_baseTable.mem_iff, List.mem_dedup, List.mem_map]

theorem nodup_baseTable : (l.baseTable S db).rows.Nodup :=
  l.rows_baseTable.nodup_iff.mpr (List.nodup_dedup _)

/-! ### Matches -/

variable (S db)

/-- A base event next to a conversion event. -/
def pair (b r : List (Value α)) : Scope α :=
  ("_base_event", ⟨l.baseProjections.map (·.name), some b⟩) :: l.event db r

variable {S db}

theorem eval_pair_base (hnames : Projection.Consistent l.baseProjections) {p : Projection}
    (hp : p ∈ l.baseProjections) (s : Scope α) (r : List (Value α)) :
    S.engine.eval (l.pair db (l.tuple S s) r) (Expr.col p.name "_base_event") =
      S.engine.eval s p.expr := by
  have hread := S.engine.eval_projected (show "_base_event" ≠ "" by decide) hnames
    (S.engine.eval s) hp (l.event db r)
  unfold pair tuple Sql.Engine.keyOf baseKeys
  rw [List.map_map]
  exact hread

theorem target_ne' : l.target ≠ "" := l.target_ne

theorem eval_event (r : List (Value α)) (c : String) :
    S.engine.eval (l.event db r) (Expr.col c l.target) = (l.table db).value r c := by
  rw [Expr.col, Sql.Engine.eval, Sql.Engine.column, if_neg l.target_ne']
  exact Scope.value_cons_self _ _ _ _ _

theorem eval_pair_event (htarget : l.target ≠ "_base_event") (b r : List (Value α)) (c : String) :
    S.engine.eval (l.pair db b r) (Expr.col c l.target) = (l.table db).value r c := by
  rw [← l.eval_event (S := S), Expr.col, Sql.Engine.eval, Sql.Engine.eval, Sql.Engine.column,
    Sql.Engine.column, if_neg l.target_ne', if_neg l.target_ne']
  exact Scope.value_cons_ne htarget _ _ _

section Conditions

variable (hnames : Projection.Consistent l.baseProjections) (htarget : l.target ≠ "_base_event")
  (s : Scope α) (r : List (Value α))

include hnames

/-- What the base side projects is read back from its row. -/
theorem eval_matched {n : String} {c : Column} (h : (n, c) ∈ matchedColumns l.conversions.base) :
    S.engine.eval (l.pair db (l.tuple S s) r) (Expr.col n "_base_event") =
      S.engine.eval s (l.baseColumn c) := by
  have hp : (⟨l.baseColumn c, n⟩ : Projection) ∈ l.baseProjections :=
    List.mem_append_right _ (List.mem_map.mpr ⟨(n, c), h, rfl⟩)
  exact l.eval_pair_base hnames hp s r

theorem eval_matched_time :
    S.engine.eval (l.pair db (l.tuple S s) r) (Expr.col "_event_time" "_base_event") =
      l.timeOf S s :=
  l.eval_matched hnames s r (List.mem_cons_of_mem _ List.mem_cons_self)

theorem eval_matched_property {k : ℕ} {b : Column}
    (hb : l.conversions.base.properties[k]? = some b) :
    S.engine.eval (l.pair db (l.tuple S s) r) (Expr.col s!"_property_{k}" "_base_event") =
      S.engine.eval s (l.baseColumn b) := by
  obtain ⟨hk, rfl⟩ := List.getElem?_eq_some_iff.mp hb
  apply l.eval_matched hnames
  apply List.mem_cons_of_mem
  apply List.mem_cons_of_mem
  rw [List.mem_mapIdx]
  exact ⟨k, hk, rfl⟩

include htarget

/-- The two events are of one entity. -/
theorem isTrue_sameEntity :
    (S.engine.eval (l.pair db (l.tuple S s) r) ((Expr.col "_entity" "_base_event").mkEq
      (Expr.col l.conversions.converted.entity.name l.target))).isTrue = true ↔
      S.engine.eval s (l.baseColumn l.conversions.base.entity) ≠ .null ∧
        S.engine.eval s (l.baseColumn l.conversions.base.entity) =
          (l.table db).value r l.conversions.converted.entity.name := by
  rw [Expr.mkEq, Sql.Engine.eval, Value.isTrue_eq3, decide_eq_true_eq,
    l.eval_matched hnames s r List.mem_cons_self, l.eval_pair_event htarget]

/-- The base event is not after the conversion. -/
theorem isTrue_notBefore :
    (S.engine.eval (l.pair db (l.tuple S s) r) (.node .lte [Expr.col "_event_time" "_base_event",
      Expr.col l.conversions.converted.time.name l.target])).isTrue = true ↔
      (l.table db).value r l.conversions.converted.time.name ≠ .null ∧ l.timeOf S s ≠ .null ∧
        l.timeOf S s ≤ (l.table db).value r l.conversions.converted.time.name := by
  rw [S.lte_eq, Value.isTrue_ge3, decide_eq_true_eq, l.eval_matched_time hnames,
    l.eval_pair_event htarget]

/-- The conversion is inside the window of the base event, if there is one. -/
theorem all_within :
    ((l.conversions.params.window.map fun w => Expr.node .lte
      [Expr.col l.conversions.converted.time.name l.target,
        l.inputs.ctx.env.adapter.dateAdd (Expr.col "_event_time" "_base_event") w.count w.unit
          (l.conversions.base.time.type = .date)]).toList.all fun e =>
            (S.engine.eval (l.pair db (l.tuple S s) r) e).isTrue) = true ↔
      ∀ w ∈ l.conversions.params.window, l.windowEnd S w s ≠ .null ∧
        (l.table db).value r l.conversions.converted.time.name ≠ .null ∧
        (l.table db).value r l.conversions.converted.time.name ≤ l.windowEnd S w s := by
  have hwindow : ∀ w : Duration, S.engine.eval (l.pair db (l.tuple S s) r)
      (l.inputs.ctx.env.adapter.dateAdd (Expr.col "_event_time" "_base_event") w.count w.unit
        (l.conversions.base.time.type = .date)) = l.windowEnd S w s := fun w =>
    eval_dateAdd _ _ _ _ S (by
      have htime := @eval_matched_time l α _ S db hnames s r
      simpa [Expr.col, Sql.Engine.eval, baseColumn, timeOf] using htime)
  cases l.conversions.params.window with
  | none => simp
  | some w =>
      simp only [Option.map_some, Option.toList_some, List.all_cons, List.all_nil, Bool.and_true,
        Option.mem_def, Option.some.injEq, forall_eq']
      rw [S.lte_eq, Value.isTrue_ge3, decide_eq_true_eq, hwindow, l.eval_pair_event htarget]

/-- The constant properties are the same, each compared at its position. -/
theorem all_sameProperties :
    ((l.conversions.converted.properties.mapIdx fun k p =>
      (Expr.col s!"_property_{k}" "_base_event").mkEq (Expr.col p.name l.target)).all fun e =>
        (S.engine.eval (l.pair db (l.tuple S s) r) e).isTrue) = true ↔
      ∀ (k : ℕ) (b c : Column), l.conversions.base.properties[k]? = some b →
        l.conversions.converted.properties[k]? = some c →
          S.engine.eval s (l.baseColumn b) ≠ .null ∧
            S.engine.eval s (l.baseColumn b) = (l.table db).value r c.name := by
  rw [List.all_eq_true]
  constructor
  · intro h k b c hb hc
    obtain ⟨hk, rfl⟩ := List.getElem?_eq_some_iff.mp hc
    have hholds := h _ (List.mem_mapIdx.mpr ⟨k, hk, rfl⟩)
    rw [Expr.mkEq, Sql.Engine.eval, Value.isTrue_eq3, decide_eq_true_eq,
      l.eval_matched_property hnames s r hb, l.eval_pair_event htarget] at hholds
    exact hholds
  · intro h e he
    obtain ⟨k, hk, rfl⟩ := List.mem_mapIdx.mp he
    have hkb : k < l.conversions.base.properties.length := by
      rw [l.paired]
      exact hk
    have hb := List.getElem?_eq_getElem hkb
    rw [Expr.mkEq, Sql.Engine.eval, Value.isTrue_eq3, decide_eq_true_eq,
      l.eval_matched_property hnames s r hb, l.eval_pair_event htarget]
    exact h k _ _ hb (List.getElem?_eq_getElem hk)

/-- A match is a base event that qualifies. -/
theorem holds_pair :
    S.engine.holds (l.pair db (l.tuple S s) r) l.matches_ = true ↔ l.Qualifies S db s r := by
  have hsame := @isTrue_sameEntity l α _ S db hnames htarget s r
  have hbefore := @isTrue_notBefore l α _ S db hnames htarget s r
  have hwithin := @all_within l α _ S db hnames htarget s r
  have hproperties := @all_sameProperties l α _ S db hnames htarget s r
  unfold target at hsame hbefore hwithin hproperties
  unfold matches_ matchConditions Sql.Engine.holds
  simp only [List.all_append, List.all_cons, List.all_nil, Bool.and_true, Bool.and_eq_true]
  rw [hsame, hbefore, hwithin, hproperties]
  constructor
  · rintro ⟨⟨⟨hent, hconv, hbase, hle⟩, hwin⟩, hprop⟩
    exact ⟨hent, ⟨hbase, hconv⟩, hle, fun w hw => ⟨(hwin w hw).1, (hwin w hw).2.2⟩, hprop⟩
  · intro h
    exact ⟨⟨⟨h.entity, h.known.2, h.known.1, h.notBefore⟩,
      fun w hw => ⟨(h.window w hw).1, h.known.2, (h.window w hw).2⟩⟩, h.property⟩

end Conditions

variable (S db)

/-- The matches. -/
def pairs : List (Scope α) :=
  (l.events S db).rows.flatMap fun r =>
    ((l.baseTable S db).rows.map fun b => l.pair db b r).filter fun m =>
      S.engine.holds m l.matches_

/-- What a match is projected to, next to a conversion event. -/
def attributed (m : Scope α) (r : List (Value α)) : Scope α :=
  ("_attributed", ⟨l.attributedProjections.map (·.name),
    some (l.attributedProjections.map fun p => S.rowValue (l.pairs S db) m p.expr)⟩) ::
      l.event db r

variable {S db}

theorem mem_pairs {m : Scope α} : m ∈ l.pairs S db ↔ ∃ r ∈ (l.events S db).rows,
    ∃ b ∈ (l.baseTable S db).rows, S.engine.holds (l.pair db b r) l.matches_ = true ∧
      l.pair db b r = m := by
  simp only [pairs, List.mem_flatMap, List.mem_filter, List.mem_map]
  constructor
  · rintro ⟨r, hr, ⟨b, hb, rfl⟩, hm⟩
    exact ⟨r, hr, b, hb, hm, rfl⟩
  · rintro ⟨r, hr, b, hb, hm, rfl⟩
    exact ⟨r, hr, ⟨b, hb, rfl⟩, hm⟩

omit [LinearOrder α] in
theorem pair_inj {b b' r r' : List (Value α)} (h : l.pair db b r = l.pair db b' r') :
    b = b' ∧ r = r' := by
  simpa [pair, event] using h

/-- No match is repeated. -/
theorem nodup_pairs (h : l.KeyedEvents S db) : (l.pairs S db).Nodup := by
  unfold pairs
  rw [List.nodup_flatMap]
  constructor
  · intro r _
    apply List.Nodup.filter
    exact l.nodup_baseTable.map fun b b' heq => (l.pair_inj heq).1
  · have hrows : (l.events S db).rows.Nodup := (l.nodup_events h).of_map
    apply hrows.imp
    intro r r' hne m hm hm'
    obtain ⟨b, -, rfl⟩ := List.mem_map.mp (List.mem_filter.mp hm).1
    obtain ⟨b', -, heq⟩ := List.mem_map.mp (List.mem_filter.mp hm').1
    exact hne (l.pair_inj heq).2.symm

theorem keyOf_pair (htarget : l.target ≠ "_base_event") (b r : List (Value α)) :
    S.engine.keyOf l.keys (l.pair db b r) = l.grainOf db r := by
  unfold Sql.Engine.keyOf keys grainOf
  rw [List.map_map]
  apply List.map_congr_left
  intro g _
  exact l.eval_pair_event htarget b r g

theorem isPlain_matchProjections : ∀ p ∈ l.matchProjections, p.expr.isPlain = true := by
  intro p hp
  rcases List.mem_append.mp hp with hp | hp
  · obtain ⟨k, hk, rfl⟩ := List.mem_mapIdx.mp hp
    simp [keys]
  · obtain ⟨d, -, rfl⟩ := List.mem_map.mp hp
    exact Expr.isPlain_col _ _

/-- The ranked matches. -/
theorem eval_attributedQuery (ctes : String → Table α) (hevents : ctes l.eventsName = l.events S db)
    (hbase : ctes l.baseName = l.baseTable S db) :
    l.attributedQuery.eval S.engine db ctes = ⟨l.attributedProjections.map (·.name),
      (l.pairs S db).map fun m =>
        l.attributedProjections.map fun p => S.rowValue (l.pairs S db) m p.expr⟩ := by
  have hpairs : (Query.evalItems S.engine db ctes [⟨.from, .cte l.eventsName, l.target, []⟩,
      ⟨.inner, .cte l.baseName, "_base_event", l.matches_⟩] [[]]).filter
        (fun s => S.engine.holds s []) = l.pairs S db := by
    have hall : ∀ ss : List (Scope α), ss.filter (fun s => S.engine.holds s []) = ss :=
      fun ss => List.filter_eq_self.mpr fun _ _ => rfl
    rw [hall, Query.evalItems_cons, Query.evalItems_cons, Query.evalItems_nil, Query.evalRel_cte,
      Query.evalRel_cte, hevents, hbase, List.flatMap_singleton, S.engine.join_nil (by simp),
      List.flatMap_map]
    unfold pairs Sql.Engine.join
    rw [columns_baseTable]
    rfl
  rw [attributedQuery, Query.eval, hpairs, attributedProjections,
    S.project_window l.isPlain_matchProjections (by simp) (by simp; rfl)]

/-! ### The first match of an event -/

variable (S db) in
theorem eval_attributed (hnames : Projection.Consistent l.attributedProjections) {p : Projection}
    (hp : p ∈ l.attributedProjections) (m : Scope α) (r : List (Value α)) :
    S.engine.eval (l.attributed S db m r) (Expr.col p.name "_attributed") =
      S.rowValue (l.pairs S db) m p.expr :=
  S.engine.eval_projected (by decide) hnames (S.rowValue (l.pairs S db) m) hp (l.event db r)

theorem eval_attributed_event (htarget : l.target ≠ "_attributed") (m : Scope α)
    (r : List (Value α)) (c : String) :
    S.engine.eval (l.attributed S db m r) (Expr.col c l.target) = (l.table db).value r c := by
  rw [← l.eval_event (S := S), Expr.col, Sql.Engine.eval, Sql.Engine.eval, Sql.Engine.column,
    Sql.Engine.column, if_neg l.target_ne', if_neg l.target_ne']
  exact Scope.value_cons_ne htarget _ _ _

/-- A match is joined with its own event. -/
theorem holds_joinedOn (hnames : Projection.Consistent l.attributedProjections)
    (hbase : l.target ≠ "_base_event") (htarget : l.target ≠ "_attributed")
    (h : l.KeyedEvents S db) {b r r' : List (Value α)} (hr : r ∈ (l.table db).rows)
    (hr' : r' ∈ (l.table db).rows) :
    S.engine.holds (l.attributed S db (l.pair db b r') r) l.joinedOn = true ↔ r' = r := by
  -- one key of the join back compares one column of the grain
  have hkey : ∀ (k : ℕ) (hk : k < l.source.grain.length),
      (S.engine.eval (l.attributed S db (l.pair db b r') r)
        (.mkEq (Expr.col s!"_conversion_key_{k}" "_attributed")
          (Expr.col (l.source.grain[k]) l.target))).isTrue = true ↔
      (l.table db).value r' (l.source.grain[k]) = (l.table db).value r (l.source.grain[k]) := by
    intro k hk
    have hp : (⟨Expr.col (l.source.grain[k]) l.target, s!"_conversion_key_{k}"⟩ : Projection) ∈
        l.attributedProjections := by
      apply List.mem_append_left
      apply List.mem_append_left
      rw [keyProjections, List.mem_mapIdx]
      exact ⟨k, by simpa [keys] using hk, by simp [keys]⟩
    have hread := l.eval_attributed S db hnames hp (l.pair db b r') r
    rw [S.rowValue_plain (Expr.isPlain_col _ _), l.eval_pair_event hbase] at hread
    have hknown := h.known r' hr' _ (List.getElem_mem hk)
    rw [Expr.mkEq, Sql.Engine.eval, Value.isTrue_eq3, decide_eq_true_eq, hread,
      l.eval_attributed_event htarget]
    exact and_iff_right hknown
  have hall : S.engine.holds (l.attributed S db (l.pair db b r') r) l.joinedOn = true ↔
      l.grainOf db r' = l.grainOf db r := by
    rw [Sql.Engine.holds, List.all_eq_true]
    constructor
    · intro hholds
      apply List.ext_getElem (by simp [grainOf])
      intro k hk _
      have hlen : k < l.source.grain.length := by simpa [grainOf] using hk
      have hmem := hholds _ (List.mem_mapIdx.mpr ⟨k, by simpa [keys] using hlen, rfl⟩)
      have hvalue := (hkey k hlen).mp (by simpa [keys] using hmem)
      simpa [grainOf] using hvalue
    · intro hgrain e he
      obtain ⟨k, hk, rfl⟩ := List.mem_mapIdx.mp he
      have hlen : k < l.source.grain.length := by simpa [keys] using hk
      have hvalue : (l.table db).value r' (l.source.grain[k]) =
          (l.table db).value r (l.source.grain[k]) := by
        have hget := congrArg (·[k]?) hgrain
        simpa [grainOf, List.getElem?_eq_getElem hlen] using hget
      simpa [keys] using (hkey k hlen).mpr hvalue
  rw [hall]
  exact ⟨fun heq => List.inj_on_of_nodup_map h.unique hr' hr heq, fun heq => by rw [heq]⟩

theorem holds_firstOnly (hnames : Projection.Consistent l.attributedProjections) (m : Scope α)
    (r : List (Value α)) : S.engine.holds (l.attributed S db m r) [firstOnly] = true ↔
      S.isFirst l.keys l.order (l.pairs S db) m := by
  have hp : (⟨Sql.rowNumber l.keys l.order, "_attribution"⟩ : Projection) ∈
      l.attributedProjections := List.mem_append_right _ (List.mem_singleton_self _)
  have hread := l.eval_attributed S db hnames hp m r
  have hwindow : (Sql.rowNumber l.keys l.order).isWindow = true := rfl
  rw [StandardSql.rowValue, if_pos hwindow] at hread
  simp only [Sql.Engine.holds, List.all_cons, List.all_nil, Bool.and_true]
  rw [firstOnly, Expr.mkEq, Sql.Engine.eval, Value.isTrue_eq3, decide_eq_true_eq, hread,
    S.numeral_eq _ _ _ S.numeral_one]
  constructor
  · exact fun hfirst => hfirst.2
  · intro hfirst
    rw [StandardSql.isFirst] at hfirst
    exact ⟨by simp [hfirst], hfirst⟩

variable (S db)

/-- The conversion events are given: what a star projects is the engine's. -/
def given (n : String) : Option (Table α) :=
  if n = l.eventsName then some (l.events S db) else none

def statement : Statement := ⟨l.ctes.map fun c => (c.name, c.body), l.outer⟩

/-- The values of the dimensions of a base event. -/
def dimsOf (s : Scope α) : List (Value α) := S.engine.keyOf (l.dims.map (·.expr)) s

/-- A conversion event is attributed to a base event that qualifies for it with the latest time,
unless none qualifies. -/
structure Attributes (att : List (Value α) → Option (Scope α)) : Prop where
  latest : ∀ r ∈ (l.events S db).rows, ∀ s, att r = some s →
    s ∈ l.baseRows S db ∧ l.Qualifies S db s r ∧
      ∀ s' ∈ l.baseRows S db, l.Qualifies S db s' r → l.timeOf S s' ≤ l.timeOf S s
  complete : ∀ r ∈ (l.events S db).rows, att r = none →
    ∀ s ∈ l.baseRows S db, ¬ l.Qualifies S db s r

/-- The events that are attributed to some base event. -/
def contributing (att : List (Value α) → Option (Scope α)) : List (List (Value α)) :=
  (l.events S db).rows.filter fun r => (att r).isSome

variable {S db}

variable (S db) in
theorem tables_eq :
    l.statement.tables S.engine db (l.given S db) l.eventsName = l.events S db ∧
      l.statement.tables S.engine db (l.given S db) l.attributedName =
        ⟨l.attributedProjections.map (·.name), (l.pairs S db).map fun m =>
          l.attributedProjections.map fun p => S.rowValue (l.pairs S db) m p.expr⟩ := by
  have hbe : l.baseName ≠ l.eventsName := by
    unfold baseName eventsName rollingName
    rw [ne_eq, String.append_right_inj]
    decide
  have hba : l.baseName ≠ l.attributedName := by
    unfold baseName attributedName rollingName
    rw [ne_eq, String.append_right_inj]
    decide
  have hea : l.eventsName ≠ l.attributedName := by
    unfold eventsName attributedName rollingName
    rw [ne_eq, String.append_right_inj]
    decide
  have hattributed := l.eval_attributedQuery (S := S)
    (fun n => if n = l.eventsName then l.events S db
      else if n = l.baseName then l.baseTable S db else ⟨[], []⟩)
    (if_pos rfl) (by rw [if_neg hbe, if_pos rfl])
  constructor
  · simp [Statement.tables, statement, ctes, given, hea]
  · rw [← hattributed]
    simp only [Statement.tables, statement, ctes, given, List.map_cons, List.map_nil,
      List.foldl_cons, List.foldl_nil, if_true, if_neg (Ne.symm hea), Option.getD_none]
    congr 1
    funext n
    by_cases hn : n = l.eventsName
    · simp [hn]
    · by_cases hn' : n = l.baseName
      · simp [hn', hbe, baseTable]
      · simp [hn, hn']

variable (S db) in
/-- The rows of the leaf: the matches, each joined with its own event, that are ranked first. -/
theorem rows_statement : (l.statement.evalOver S.engine db (l.given S db)).rows =
    S.engine.project .none (l.readDimensions ++ [⟨l.conversions.measure, l.outputName⟩])
      (l.readDimensions.map (·.expr)) ((l.events S db).rows.flatMap fun r =>
        (((l.pairs S db).map fun m => l.attributed S db m r).filter fun s =>
          S.engine.holds s l.joinedOn).filter fun s => S.engine.holds s [firstOnly]) := by
  obtain ⟨hevents, hattributed⟩ := l.tables_eq S db
  have hbody : l.statement.body = l.outer := rfl
  rw [Statement.evalOver, hbody, outer, Query.eval, Query.evalItems_cons, Query.evalItems_cons,
    Query.evalItems_nil, Query.evalRel_cte, Query.evalRel_cte, hevents, hattributed,
    List.flatMap_singleton, S.engine.join_nil (by simp), List.flatMap_map, List.filter_flatMap]
  unfold Sql.Engine.join attributed
  simp only [List.map_map]
  rfl

/-- Each event has one match that is ranked first, if any: a base event that qualifies with the
latest time. -/
theorem exists_attributes (hbase : Projection.Consistent l.baseProjections)
    (hne : l.target ≠ "_base_event") (h : l.KeyedEvents S db) :
    ∃ att : List (Value α) → Option (Scope α), l.Attributes S db att ∧
      ∀ r ∈ (l.events S db).rows, ∀ m ∈ l.pairs S db,
        ((∃ b, m = l.pair db b r) ∧ S.isFirst l.keys l.order (l.pairs S db) m) ↔
          ∃ s, att r = some s ∧ m = l.pair db (l.tuple S s) r := by
  obtain ⟨first, hfirst⟩ := S.exists_first l.keys l.order (l.nodup_pairs h)
  have hrow : ∀ r, ∃ a : Option (Scope α), r ∈ (l.events S db).rows →
      (∀ s, a = some s → s ∈ l.baseRows S db ∧ l.Qualifies S db s r ∧
        first (l.grainOf db r) = l.pair db (l.tuple S s) r) ∧
      (a = none → ∀ s ∈ l.baseRows S db, ¬ l.Qualifies S db s r) := by
    intro r
    by_cases hex : ∃ s ∈ l.baseRows S db, l.Qualifies S db s r
    · by_cases hr : r ∈ (l.events S db).rows
      · obtain ⟨s, hs, hq⟩ := hex
        have hmem : l.pair db (l.tuple S s) r ∈ l.pairs S db :=
          l.mem_pairs.mpr ⟨r, hr, _, l.mem_baseTable.mpr ⟨s, hs, rfl⟩,
            (l.holds_pair hbase hne s r).mpr hq, rfl⟩
        obtain ⟨⟨hin, hkey⟩, -⟩ := hfirst _ hmem
        rw [l.keyOf_pair hne] at hin hkey
        obtain ⟨r', hr', b, hb, hholds, hpair⟩ := l.mem_pairs.mp hin
        rw [← hpair, l.keyOf_pair hne] at hkey
        -- the first match of the grain is one of this event
        have hsame : r' = r := List.inj_on_of_nodup_map h.unique (l.mem_events.mp hr').1
          (l.mem_events.mp hr).1 hkey
        subst hsame
        obtain ⟨s₀, hs₀, rfl⟩ := l.mem_baseTable.mp hb
        refine ⟨some s₀, fun _ => ⟨?_, fun hnone => by cases hnone⟩⟩
        intro s' heq
        obtain rfl := Option.some.inj heq
        exact ⟨hs₀, (l.holds_pair hbase hne _ _).mp hholds, hpair.symm⟩
      · exact ⟨none, fun hr' => absurd hr' hr⟩
    · refine ⟨none, fun _ => ⟨?_, fun _ s hs hq => hex ⟨s, hs, hq⟩⟩⟩
      intro s hnone
      cases hnone
  choose att hatt using hrow
  have hmatch : ∀ r ∈ (l.events S db).rows, ∀ s ∈ l.baseRows S db, l.Qualifies S db s r →
      l.pair db (l.tuple S s) r ∈ l.pairs S db := fun r hr s hs hq =>
    l.mem_pairs.mpr ⟨r, hr, _, l.mem_baseTable.mpr ⟨s, hs, rfl⟩,
      (l.holds_pair hbase hne s r).mpr hq, rfl⟩
  refine ⟨att, ⟨?_, fun r hr => (hatt r hr).2⟩, ?_⟩
  · intro r hr s hs
    obtain ⟨hbaseRow, hq, hfirstEq⟩ := (hatt r hr).1 s hs
    refine ⟨hbaseRow, hq, ?_⟩
    intro s' hs' hq'
    -- a later base event would sort before the first one
    obtain ⟨-, -, hlast⟩ := hfirst _ (hmatch r hr s' hs' hq')
    rw [l.keyOf_pair hne, hfirstEq] at hlast
    have htime : ∀ t, S.engine.eval (l.pair db (l.tuple S t) r)
        (Expr.col "_event_time" "_base_event") = l.timeOf S t := by
      intro t
      have hp : (⟨l.baseColumn l.conversions.base.time, "_event_time"⟩ : Projection) ∈
          l.baseProjections := by
        apply List.mem_append_right
        simp [matchedColumns, baseColumn]
      exact l.eval_pair_base hbase hp t r
    simp only [order, List.map_cons, Sql.Engine.keyOf, htime, Sql.keysBefore,
      Bool.or_eq_false_iff] at hlast
    have hbefore := hlast.1
    rw [Value.before, if_neg hq'.known.1, if_neg hq.known.1] at hbefore
    simpa using hbefore
  · intro r hr m hm
    constructor
    · rintro ⟨⟨b, rfl⟩, hisFirst⟩
      have hkey := (hfirst _ hm).2.1.mp hisFirst
      rw [l.keyOf_pair hne] at hkey
      cases ha : att r with
      | none =>
          obtain ⟨r', hr', b', hb', hholds, hpair⟩ := l.mem_pairs.mp hm
          obtain ⟨rfl, rfl⟩ := l.pair_inj hpair
          obtain ⟨s, hs, rfl⟩ := l.mem_baseTable.mp hb'
          exact absurd ((l.holds_pair hbase hne s r').mp hholds) ((hatt r' hr).2 ha s hs)
      | some s => exact ⟨s, rfl, hkey.trans ((hatt r hr).1 s ha).2.2⟩
    · rintro ⟨s, hs, rfl⟩
      refine ⟨⟨_, rfl⟩, (hfirst _ hm).2.1.mpr ?_⟩
      rw [l.keyOf_pair hne]
      exact ((hatt r hr).1 s hs).2.2.symm

/-- The match a contributing event is read from. -/
theorem firstMatch_eq (hattributed : Projection.Consistent l.attributedProjections)
    (hbase : l.target ≠ "_base_event") (htarget : l.target ≠ "_attributed")
    (h : l.KeyedEvents S db) {att : List (Value α) → Option (Scope α)}
    (hfirst : ∀ r ∈ (l.events S db).rows, ∀ m ∈ l.pairs S db,
      ((∃ b, m = l.pair db b r) ∧ S.isFirst l.keys l.order (l.pairs S db) m) ↔
        ∃ s, att r = some s ∧ m = l.pair db (l.tuple S s) r)
    (hpair : ∀ r ∈ (l.events S db).rows, ∀ s, att r = some s →
      l.pair db (l.tuple S s) r ∈ l.pairs S db)
    {r : List (Value α)} (hr : r ∈ (l.events S db).rows) :
    ((((l.pairs S db).map fun m => l.attributed S db m r).filter fun s =>
      S.engine.holds s l.joinedOn).filter fun s => S.engine.holds s [firstOnly]) =
      if (att r).isSome then [l.attributed S db (l.pair db (l.tuple S ((att r).getD [])) r) r]
      else [] := by
  -- the join back keeps the pair that is ranked first, which is the attributed one
  have hkeep : ∀ m ∈ l.pairs S db, (S.engine.holds (l.attributed S db m r) [firstOnly] &&
      S.engine.holds (l.attributed S db m r) l.joinedOn) = true ↔
        ∃ s, att r = some s ∧ m = l.pair db (l.tuple S s) r := by
    intro m hm
    rw [← hfirst r hr m hm, Bool.and_eq_true, l.holds_firstOnly hattributed, and_comm]
    obtain ⟨r', hr', b, -, -, rfl⟩ := l.mem_pairs.mp hm
    rw [l.holds_joinedOn hattributed hbase htarget h (l.mem_events.mp hr).1 (l.mem_events.mp hr').1]
    apply and_congr_left
    intro _
    constructor
    · rintro rfl
      exact ⟨b, rfl⟩
    · rintro ⟨b', hb'⟩
      exact (l.pair_inj hb').2
  rw [List.filter_filter, List.filter_map]
  cases ha : att r with
  | none =>
      have hnil : (l.pairs S db).filter ((fun s => S.engine.holds s [firstOnly] &&
          S.engine.holds s l.joinedOn) ∘ fun m => l.attributed S db m r) = [] := by
        rw [List.filter_eq_nil_iff]
        intro m hm hholds
        obtain ⟨s, hs, -⟩ := (hkeep m hm).mp hholds
        rw [ha] at hs
        cases hs
      rw [hnil]
      rfl
  | some s =>
      have hone : (l.pairs S db).filter ((fun s => S.engine.holds s [firstOnly] &&
          S.engine.holds s l.joinedOn) ∘ fun m => l.attributed S db m r) =
            [l.pair db (l.tuple S s) r] := by
        have hcongr := List.filter_congr (p := (fun s => S.engine.holds s [firstOnly] &&
          S.engine.holds s l.joinedOn) ∘ fun m => l.attributed S db m r)
          (q := fun m => decide (m = l.pair db (l.tuple S s) r)) (l := l.pairs S db) (by
            intro m hm
            rw [Bool.eq_iff_iff, decide_eq_true_eq, Function.comp_apply, hkeep m hm, ha]
            simp)
        rw [hcongr, List.filter_eq, List.count_eq_one_of_mem (l.nodup_pairs h) (hpair r hr s ha)]
        rfl
      rw [hone]
      rfl

theorem flatMap_if_singleton {β γ : Type} (p : β → Bool) (f : β → γ) (xs : List β) :
    (xs.flatMap fun x => if p x then [f x] else []) = (xs.filter p).map f := by
  induction xs with
  | nil => rfl
  | cons x xs ih =>
      rw [List.flatMap_cons, ih]
      cases hp : p x with
      | true => simp [hp]
      | false => simp [hp]

variable (S db)

/-- The dimensions of a match are those of its base event. -/
theorem keyOf_attributed (hbase : Projection.Consistent l.baseProjections)
    (hattributed : Projection.Consistent l.attributedProjections) (s : Scope α)
    (r : List (Value α)) : S.engine.keyOf (l.readDimensions.map (·.expr))
      (l.attributed S db (l.pair db (l.tuple S s) r) r) = l.dimsOf S s := by
  unfold Sql.Engine.keyOf readDimensions dimsOf
  rw [List.map_map, List.map_map]
  unfold Sql.Engine.keyOf
  rw [List.map_map]
  apply List.map_congr_left
  intro p hp
  have hread := l.eval_attributed S db hattributed (p := ⟨Expr.col p.name "_base_event", p.name⟩)
    (List.mem_append_left _ (List.mem_append_right _ (List.mem_map.mpr ⟨p, hp, rfl⟩)))
    (l.pair db (l.tuple S s) r) r
  rw [S.rowValue_plain (Expr.isPlain_col _ _),
    l.eval_pair_base hbase (List.mem_append_left _ hp)] at hread
  exact hread

/-- The measure reads the conversion source, which stands next to the match. -/
theorem aggregate_attributed (htarget : l.target ≠ "_attributed")
    (hmeasure : ∀ c ∈ l.conversions.measure.columns, c.table = l.target)
    (rs : List (List (Value α))) (m : List (Value α) → Scope α) :
    S.aggregate l.conversions.measure (rs.map fun r => l.attributed S db (m r) r) =
      S.aggregate l.conversions.measure (rs.map (l.event db)) := by
  have hid : l.conversions.measure.mapColumns (fun c => .column (id c)) = l.conversions.measure :=
    Expr.mapColumns_id fun _ _ => rfl
  have hreads : List.Forall₂ (fun s s' => ∀ c ∈ l.conversions.measure.columns,
      S.engine.column s (id c) = S.engine.column s' (id c))
      (rs.map fun r => l.attributed S db (m r) r) (rs.map (l.event db)) := by
    rw [List.forall₂_map_left_iff, List.forall₂_map_right_iff, List.forall₂_same]
    intro r _ c hc
    have htable := hmeasure c hc
    unfold attributed
    rw [id_eq, Sql.Engine.column, Sql.Engine.column, htable, if_neg l.target_ne',
      if_neg l.target_ne']
    exact Scope.value_cons_ne htarget _ _ _
  have hcongr := S.aggregate_congr l.conversions.measure id id hreads
  rwa [hid] at hcongr

/-- What is built for the leaf counts each event that has a base event before it once, in the group
of a latest one, and no other event. -/
def AttributesLatest : Prop :=
  ∀ q aux, buildConversions l.metric l.conversions l.inputs l.metrics = .ok (q, aux) →
    l.KeyedEvents S db → ∃ att : List (Value α) → Option (Scope α), l.Attributes S db att ∧
      ((Statement.mk (aux.map fun c => (c.name, c.body)) q).evalOver S.engine db
        (l.given S db)).rows.Perm
          ((Sql.groupsOf (l.dims ≠ []) (fun r => l.dimsOf S ((att r).getD []))
            (l.contributing S db att)).map fun k => k ++ [S.aggregate l.conversions.measure
              (((l.contributing S db att).filter fun r => l.dimsOf S ((att r).getD []) = k).map
                (l.event db))])

/-- **Latest attribution**, where a name of the common table expressions says which column it is. -/
theorem attributesLatest (hbase : Projection.Consistent l.baseProjections)
    (hattributed : Projection.Consistent l.attributedProjections)
    (htarget : l.target ≠ "_base_event" ∧ l.target ≠ "_attributed")
    (hmeasure : ∀ c ∈ l.conversions.measure.columns, c.table = l.target) :
    l.AttributesLatest S db := by
  intro q aux hbuild h
  have hbuilt := l.buildConversions_eq hbuild
  rw [(Prod.mk.inj hbuilt).1, (Prod.mk.inj hbuilt).2]
  obtain ⟨att, hatt, hfirst⟩ := l.exists_attributes hbase htarget.1 h
  refine ⟨att, hatt, ?_⟩
  have hpair : ∀ r ∈ (l.events S db).rows, ∀ s, att r = some s →
      l.pair db (l.tuple S s) r ∈ l.pairs S db := by
    intro r hr s hs
    obtain ⟨hrow, hq, -⟩ := hatt.latest r hr s hs
    exact l.mem_pairs.mpr ⟨r, hr, _, l.mem_baseTable.mpr ⟨s, hrow, rfl⟩,
      (l.holds_pair hbase htarget.1 s r).mpr hq, rfl⟩
  have hscopes : ((l.events S db).rows.flatMap fun r =>
      (((l.pairs S db).map fun m => l.attributed S db m r).filter fun s =>
        S.engine.holds s l.joinedOn).filter fun s => S.engine.holds s [firstOnly]) =
      (l.contributing S db att).map fun r =>
        l.attributed S db (l.pair db (l.tuple S ((att r).getD [])) r) r := by
    rw [contributing, ← flatMap_if_singleton]
    apply List.flatMap_congr
    intro r hr
    exact l.firstMatch_eq hattributed htarget.1 htarget.2 h hfirst hpair hr
  have hrows := l.rows_statement S db
  rw [hscopes] at hrows
  have hplain : ∀ p ∈ l.readDimensions, p.expr.isPlain = true := by
    intro p hp
    obtain ⟨d, -, rfl⟩ := List.mem_map.mp hp
    exact Expr.isPlain_col _ _
  have hkey : ∀ r ∈ l.contributing S db att, S.engine.keyOf (l.readDimensions.map (·.expr))
      (l.attributed S db (l.pair db (l.tuple S ((att r).getD [])) r) r) =
        l.dimsOf S ((att r).getD []) := fun r _ =>
    l.keyOf_attributed S db hbase hattributed _ r
  have hgrouped := @StandardSql.project_over _ _ S l.readDimensions
    [⟨l.conversions.measure, l.outputName⟩] hplain
    (Or.inr ⟨_, List.mem_singleton_self _, l.aggregated.1⟩)
    (fun a ha => by rw [List.mem_singleton.mp ha]; exact l.aggregated.2) _ _ _ _ _
    (List.Perm.refl _) hkey
  have hread : l.readDimensions ≠ [] ↔ l.dims ≠ [] := by simp [readDimensions]
  have hdims : Sql.groupsOf (l.readDimensions ≠ []) (fun r => l.dimsOf S ((att r).getD []))
      (l.contributing S db att) = Sql.groupsOf (l.dims ≠ [])
        (fun r => l.dimsOf S ((att r).getD [])) (l.contributing S db att) := by
    unfold Sql.groupsOf
    simp only [hread]
  have hstatement : Statement.mk (l.ctes.map fun c => (c.name, c.body)) l.outer = l.statement := rfl
  rw [hstatement, hrows]
  refine hgrouped.trans (List.Perm.of_eq ?_)
  rw [hdims]
  apply List.map_congr_left
  intro k _
  rw [List.map_singleton, l.aggregate_attributed S db htarget.2 hmeasure]

end ConversionLeaf

/-! ## A dimension with the name of the entity -/

private def visits : SemanticSource where
  name := "visits"
  connection := "wh"
  table := "visits"
  grain := ["visit"]
  columns := [⟨"visit", .int, true⟩, ⟨"user", .int, true⟩, ⟨"campaign", .int, true⟩,
    ⟨"at", .int, true⟩]

private def purchases : SemanticSource where
  name := "purchases"
  connection := "wh"
  table := "purchases"
  grain := ["id"]
  columns := [⟨"id", .int, true⟩, ⟨"user", .int, true⟩, ⟨"at", .int, true⟩]

private def visitEnv : Env where
  lib := Lib.ofTexts []
  dialectName := "postgres"
  sources := { list := [visits, purchases] }

private def visitSide (source : String) : Side where
  resolved := ⟨source, source, syntheticMeasure "user"⟩
  populationFilter := none
  entity := ⟨"user", .int, true⟩
  time := ⟨"at", .int, true⟩
  properties := []

private def purchasedVisits : Conversions where
  params := { entity := ⟨"user", "user"⟩, baseTime := "at", conversionTime := "at",
              calculation := .conversions }
  base := visitSide "visits"
  converted := visitSide "purchases"
  events := .select .none [⟨Expr.col "*" "purchases", "*"⟩]
    [⟨.from, .source "purchases" "purchases", "purchases", []⟩] [] []
  measure := .node (.agg .count) [Expr.col "id" "purchases"]

/-- The purchases of visitors, by the campaign of their visit under the given name. -/
private def visitInputs (dimension : String) : LeafInputs where
  ctx := { env := visitEnv, query := { metrics := ["purchased"], dimensions := [dimension] },
           resolver := {}, principal := {},
           policy := ⟨["*"], [], ["*"], [], ["*"], false, false, [], []⟩ }
  owner := "visits"
  dimensions := [("visits", { name := dimension, column := some "campaign" })]
  conditions := []
  edges := []
  fanout := false
  tree := []
  mask := []

private def visitLeaf (dimension : String)
    (hdims : dimProjections visitEnv (visitInputs dimension).shifted []
      (visitInputs dimension).dimensions =
        .ok [⟨Expr.col "campaign" "visits", dimension⟩]) : ConversionLeaf where
  inputs := visitInputs dimension
  metric := "purchased"
  metrics := []
  conversions := purchasedVisits
  source := purchases
  dims := [⟨Expr.col "campaign" "visits", dimension⟩]
  from_ := [⟨.from, .source "visits" "visits", "visits", []⟩]
  eventJoins := []
  eventConditions := []
  source_eq := rfl
  dims_eq := hdims
  from_eq := rfl
  events_eq := rfl
  plain := fun p hp => by
    rw [List.mem_singleton.mp hp]
    exact Expr.isPlain_col _ _
  grain_ne := List.cons_ne_nil _ _
  aggregated := ⟨by simp [purchasedVisits, Sql.Op.readsGroup], rfl⟩
  paired := rfl
  alias_ne := fun _ hi => absurd hi List.not_mem_nil
  owner_ne := by
    show "visits" ≠ ""
    decide
  target_ne := by
    show "purchases" ≠ ""
    decide

/-- User 1 visits under campaign 7 at 1 and buys at 2. -/
private def visitTables (name : String) : Table ℚ :=
  if name = "visits" then
    ⟨["visit", "user", "campaign", "at"], [[.data 1, .data 1, .data 7, .data 1]]⟩
  else ⟨["id", "user", "at"], [[.data 1, .data 1, .data 2]]⟩

private def noLiterals (_ : String) : Option ℚ := none

private def visitRow : Scope ℚ :=
  [("visits", ⟨["visit", "user", "campaign", "at"],
    some [.data 1, .data 1, .data 7, .data 1]⟩)]

/-- Under the name of the matched entity, the campaign is matched instead. -/
theorem attributesLatest_counterexample :
    buildConversions "purchased" purchasedVisits (visitInputs "_entity") [] =
        .ok ((visitLeaf "_entity" rfl).outer, (visitLeaf "_entity" rfl).ctes) ∧
      ((visitLeaf "_entity" rfl).statement.evalOver (Sql.reference noLiterals).engine visitTables
        ((visitLeaf "_entity" rfl).given (Sql.reference noLiterals) visitTables)).rows = [] ∧
      ¬ (visitLeaf "_entity" rfl).AttributesLatest (Sql.reference noLiterals) visitTables := by
  have hbuild : buildConversions "purchased" purchasedVisits (visitInputs "_entity") [] =
      .ok ((visitLeaf "_entity" rfl).outer, (visitLeaf "_entity" rfl).ctes) := by rfl
  have hrows : ((visitLeaf "_entity" rfl).statement.evalOver (Sql.reference noLiterals).engine
      visitTables ((visitLeaf "_entity" rfl).given (Sql.reference noLiterals) visitTables)).rows =
        [] := by decide +kernel
  refine ⟨hbuild, hrows, ?_⟩
  intro hlatest
  have hkeyed : (visitLeaf "_entity" rfl).KeyedEvents (Sql.reference noLiterals) visitTables :=
    ⟨by decide +kernel, by decide +kernel, by decide +kernel⟩
  obtain ⟨att, hatt, hperm⟩ := hlatest _ _ hbuild hkeyed
  have hevent : [.data 1, .data 1, .data 2] ∈
      ((visitLeaf "_entity" rfl).events (Sql.reference noLiterals) visitTables).rows := by
    decide +kernel
  have hrow : visitRow ∈ (visitLeaf "_entity" rfl).baseRows (Sql.reference noLiterals)
      visitTables := by decide +kernel
  have hqualifies : (visitLeaf "_entity" rfl).Qualifies (Sql.reference noLiterals) visitTables
      visitRow [.data 1, .data 1, .data 2] := by
    refine ⟨by decide +kernel, by decide +kernel, by decide +kernel, ?_, ?_⟩
    · intro w hw
      cases hw
    · intro k b c hb _
      cases hb
  cases hsome : att [.data 1, .data 1, .data 2] with
  | none => exact hatt.complete _ hevent hsome _ hrow hqualifies
  | some s =>
      -- the purchase contributes, so there is a group
      have hmem : [.data 1, .data 1, .data 2] ∈ (visitLeaf "_entity" rfl).contributing
          (Sql.reference noLiterals) visitTables att :=
        List.mem_filter.mpr ⟨hevent, by rw [hsome]; rfl⟩
      have hempty := hperm.symm.trans (List.Perm.of_eq hrows)
      have hnil := List.map_eq_nil_iff.mp hempty.eq_nil
      have hdims : [(⟨Expr.col "campaign" "visits", "_entity"⟩ : Projection)] ≠ [] :=
        List.cons_ne_nil _ _
      rw [Sql.groupsOf, if_pos (by exact hdims), List.dedup_eq_nil, List.map_eq_nil_iff] at hnil
      rw [hnil] at hmem
      cases hmem

theorem attributesLatest_campaign :
    (visitLeaf "campaign" rfl).AttributesLatest (Sql.reference noLiterals) visitTables :=
  (visitLeaf "campaign" rfl).attributesLatest (Sql.reference noLiterals) visitTables
    (by unfold Projection.Consistent; decide +kernel)
    (by unfold Projection.Consistent; decide +kernel) (by decide) (by decide +kernel)

end Canonic
