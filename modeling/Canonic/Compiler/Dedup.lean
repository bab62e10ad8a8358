import Canonic.Compiler.Leaf
import Canonic.Compiler.Schema
import Canonic.Sql.Reference

set_option autoImplicit false

/-! # Counting each row of the owner once

`_build_deduped`: a join that fans out repeats the rows of the owner, so an inner query keeps one
row for each value of the owner's grain, with the requested dimensions and the columns the measures
read, and an outer query aggregates over it. The measure is then aggregated over each row of the
owner that some joined row of which passes the conditions, as long as a name of the inner query says
which column it is. -/

namespace Canonic

open Sql (Expr Query Projection FromItem Scope Value Table StandardSql)

/-- An additive leaf that fans out, with its parts found: the dimensions, each the value of a row,
the parsed measures, each an aggregate over the owner, and the joins, under aliases of their own. -/
structure DedupLeaf where
  inputs : LeafInputs
  metrics : List LeafMetric
  source : SemanticSource
  dims : List Projection
  measures : List Expr
  joins : List (FromItem Query)
  fanout : inputs.fanout = true
  source_eq : inputs.ctx.env.sources.getKey inputs.owner = .ok source
  dims_eq : dimProjections inputs.ctx.env inputs.shifted inputs.mask inputs.dimensions = .ok dims
  measures_eq : metrics.mapM (fun m => inputs.ctx.env.parse m.resolved.measure.expr) = .ok measures
  joins_eq : inputs.edges.mapM (joinItem inputs.ctx.env) = .ok joins
  metrics_ne : metrics ≠ []
  own : ∀ m ∈ metrics, m.resolved.source = inputs.owner
  plain : ∀ p ∈ dims, p.expr.isPlain = true
  aggregated : ∀ e ∈ measures, e.isPlain = false ∧ e.isWindow = false
  alias_ne : ∀ i ∈ joins, i.alias_ ≠ inputs.owner
  owner_ne : inputs.owner ≠ ""

namespace DedupLeaf

variable (l : DedupLeaf)

def keys : List Expr := l.dims.map (·.expr)

/-- The columns the measures read. -/
def columns : List (String × String) :=
  (firstById (·.1) [] (l.measures.flatMap fun e =>
    (sortedSet (e.columns.map (·.name))).map fun c => (c, l.inputs.owner))).insertionSort
    fun a b => a.1 ≤ b.1

/-- What the inner query projects. -/
def innerProjections : List Projection :=
  l.dims ++ l.columns.map fun p => ⟨Expr.col p.1 p.2, p.1⟩

def from_ : List (FromItem Query) :=
  ⟨.from, .source l.source.name l.source.table, l.inputs.owner, []⟩ :: l.joins

/-- One row for each value of the grain. -/
def inner : Query :=
  .select (distinctOn l.inputs.owner l.source.grain) l.innerProjections l.from_
    l.inputs.conditions []

/-- The measures, read from the rows the inner query keeps. -/
def outerMeasures : List Projection :=
  (l.measures.zip (l.metrics.map (·.outputAlias))).map fun p => ⟨qualifyTo p.1 dedupAlias, p.2⟩

def outer : Query :=
  .select .none (l.dims.map (fun p => ⟨Expr.col p.name dedupAlias, p.name⟩) ++ l.outerMeasures)
    [⟨.from, .derived l.inner, dedupAlias, []⟩] []
    (l.dims.map fun p => Expr.col p.name dedupAlias)

theorem mem_columns {p : String × String} :
    p ∈ l.columns ↔ p.2 = l.inputs.owner ∧ ∃ e ∈ l.measures, ∃ c ∈ e.columns, c.name = p.1 := by
  have hmem : ∀ q : String × String, q ∈ (l.measures.flatMap fun e =>
      (sortedSet (e.columns.map (·.name))).map fun c => (c, l.inputs.owner)) ↔
      q.2 = l.inputs.owner ∧ ∃ e ∈ l.measures, ∃ c ∈ e.columns, c.name = q.1 := by
    intro q
    simp only [List.mem_flatMap, List.mem_map, mem_sortedSet]
    constructor
    · rintro ⟨e, he, n, ⟨c, hc, rfl⟩, rfl⟩
      exact ⟨rfl, e, he, c, hc, rfl⟩
    · rintro ⟨howner, e, he, c, hc, hname⟩
      exact ⟨e, he, q.1, ⟨c, hc, hname⟩, Prod.ext rfl howner.symm⟩
  rw [columns, List.mem_insertionSort, mem_firstById, ← hmem]
  constructor
  · rintro ⟨-, hfind⟩
    exact List.mem_of_find?_eq_some hfind
  · intro hp
    refine ⟨List.not_mem_nil, ?_⟩
    -- the pairs of one column are all read from the owner
    cases hfind : (l.measures.flatMap fun e => (sortedSet (e.columns.map (·.name))).map
        fun c => (c, l.inputs.owner)).find? fun y => y.1 == p.1 with
    | none =>
        rw [List.find?_eq_none] at hfind
        exact absurd (hfind p hp) (by simp)
    | some q =>
        have hq := List.mem_of_find?_eq_some hfind
        have hname : q.1 = p.1 := by simpa using List.find?_some hfind
        rw [Prod.ext hname (((hmem q).mp hq).1.trans ((hmem p).mp hp).1.symm)]

theorem inputProjections_eq :
    inputProjections l.inputs.ctx.env (l.metrics.map (·.resolved)) =
      .ok (l.columns.map fun p => ⟨Expr.col p.1 p.2, p.1⟩) := by
  have hforall := mapM_eq_ok.mp l.measures_eq
  have hcolumns : (l.metrics.map (·.resolved)).mapM (fun m => do
      let cs ← inputColumns l.inputs.ctx.env m.measure
      return cs.map fun c => (c, m.source)) = .ok (l.measures.map fun e =>
        (sortedSet (e.columns.map (·.name))).map fun c => (c, l.inputs.owner)) := by
    rw [mapM_eq_ok, List.forall₂_map_left_iff, List.forall₂_map_right_iff]
    refine ((List.forall₂_and_left _ _).mpr ⟨l.own, hforall⟩).imp ?_
    rintro m e ⟨howner, hparse⟩
    simp only [inputColumns, bind_eq_ok, pure_eq_ok]
    exact ⟨_, ⟨e, hparse, rfl⟩, by rw [howner]⟩
  unfold inputProjections
  refine bind_eq_ok.mpr ⟨_, hcolumns, ?_⟩
  rw [pure_eq_ok, columns, List.flatMap_def]

theorem reaggregated_eq :
    reaggregated l.inputs.ctx.env dedupAlias (l.metrics.map (·.resolved))
      (l.metrics.map (·.outputAlias)) = .ok l.outerMeasures := by
  have hforall := mapM_eq_ok.mp l.measures_eq
  unfold reaggregated outerMeasures
  rw [mapM_eq_ok]
  generalize l.metrics = ms at hforall
  generalize l.measures = es at hforall
  induction hforall with
  | nil => exact .nil
  | cons hparse _ ih =>
      rw [List.map_cons, List.map_cons, List.zip_cons_cons, List.zip_cons_cons, List.map_cons]
      refine .cons ?_ ih
      simp only [bind_eq_ok, pure_eq_ok]
      exact ⟨_, hparse, rfl⟩

/-- The query of an additive leaf that fans out. -/
theorem buildAdditive_eq {r : Query × List AuxCte}
    (h : buildAdditive l.inputs l.metrics = .ok r) : r = (l.outer, []) := by
  have hfrom : fromAndJoins l.inputs.ctx.env l.inputs.owner l.inputs.edges = .ok l.from_ := by
    simp only [fromAndJoins, bind_eq_ok, pure_eq_ok]
    exact ⟨l.source, l.source_eq, l.joins, l.joins_eq, rfl⟩
  have hinner : buildDedupInner l.inputs.ctx.env l.inputs.shifted l.inputs.owner
      l.inputs.dimensions (l.metrics.map (·.resolved)) l.inputs.conditions l.inputs.edges
      l.inputs.mask = .ok l.inner := by
    simp only [buildDedupInner, bind_eq_ok, pure_eq_ok]
    exact ⟨l.source, l.source_eq, l.dims, l.dims_eq, _, l.inputProjections_eq, l.from_, hfrom, rfl⟩
  have hdims : readDims dedupAlias (dimensionOutputNames l.inputs.dimensions) =
      l.dims.map fun p => ⟨Expr.col p.name dedupAlias, p.name⟩ := by
    rw [← dimProjections_names l.dims_eq, readDims, List.map_map]
    rfl
  have houter : buildDeduped l.inputs.ctx.env l.inputs.shifted l.inputs.owner
      (l.metrics.map (·.resolved)) l.inputs.dimensions l.inputs.conditions l.inputs.edges
      (l.metrics.map (·.outputAlias)) l.inputs.mask = .ok l.outer := by
    unfold buildDeduped
    refine bind_eq_ok.mpr ⟨l.inner, hinner, bind_eq_ok.mpr ⟨_, l.reaggregated_eq, ?_⟩⟩
    simp only [hdims, List.map_map, pure_eq_ok]
    rfl
  unfold buildAdditive at h
  obtain ⟨-, -, h⟩ := bind_eq_ok.mp h
  rw [emitAdditive, if_pos l.fanout, houter] at h
  exact (Except.ok.inj h).symm

/-! ### The rows of the owner -/

variable {α : Type} [LinearOrder α] (S : StandardSql α) (db : String → Table α)

/-- The table of the owner. -/
def table : Table α := db l.source.table

/-- A row of the owner in scope, on its own. -/
def base (r : List (Value α)) : Scope α :=
  [(l.inputs.owner, ⟨(l.table db).columns, some r⟩)]

/-- The joined rows of a row of the owner that pass the conditions. -/
def joined (r : List (Value α)) : List (Scope α) :=
  (Query.evalItems S.engine db (fun _ => ⟨[], []⟩) l.joins [l.base db r]).filter fun s =>
    S.engine.holds s l.inputs.conditions

/-- The grain of a row of the owner. -/
def grainOf (r : List (Value α)) : List (Value α) := l.source.grain.map ((l.table db).value r)

/-- The rows of the owner with a joined row that passes the conditions. -/
def reached : List (List (Value α)) :=
  (l.table db).rows.filter fun r => !(l.joined S db r).isEmpty

variable {S db}

theorem mem_reached {r : List (Value α)} :
    r ∈ l.reached S db ↔ r ∈ (l.table db).rows ∧ ∃ s, s ∈ l.joined S db r := by
  rw [reached, List.mem_filter, Bool.not_eq_true', List.isEmpty_eq_false_iff_exists_mem]

theorem eval_own {r : List (Value α)} {s : Scope α} (hs : s ∈ l.joined S db r) (c : String) :
    S.engine.eval s (Expr.col c l.inputs.owner) = (l.table db).value r c := by
  have hlookup := Query.lookup_evalItems S.engine db l.alias_ne (List.mem_filter.mp hs).1
  rw [Expr.col, Sql.Engine.eval, Sql.Engine.column, if_neg l.owner_ne, Scope.value, hlookup]
  simp [base, Sql.Bound.value, Table.value]

theorem keyOf_grain {r : List (Value α)} {s : Scope α} (hs : s ∈ l.joined S db r) :
    S.engine.keyOf (l.source.grain.map fun g => Expr.col g l.inputs.owner) s = l.grainOf db r := by
  unfold Sql.Engine.keyOf grainOf
  rw [List.map_map]
  exact List.map_congr_left fun g _ => l.eval_own hs g

/-- The rows that are read: those of each row of the owner. -/
theorem filter_from : (Query.evalItems S.engine db (fun _ => ⟨[], []⟩) l.from_ [[]]).filter
    (fun s => S.engine.holds s l.inputs.conditions) =
      (l.table db).rows.flatMap (l.joined S db) := by
  have hfirst : [([] : Scope α)].flatMap (S.engine.join .from l.inputs.owner []
      (l.table db)) = (l.table db).rows.map (l.base db) := by
    rw [List.flatMap_singleton, S.engine.join_nil (by simp)]
    rfl
  have hrel : Query.evalRel S.engine db (fun _ => ⟨[], []⟩)
      (.source l.source.name l.source.table) = l.table db := by simp only [Query.evalRel, table]
  rw [from_, Query.evalItems_cons, hrel, hfirst, Query.evalItems_flatMap, List.flatMap_map,
    List.filter_flatMap]
  rfl

theorem isPlain_inner : ∀ p ∈ l.innerProjections, p.expr.isPlain = true := by
  intro p hp
  rcases List.mem_append.mp hp with hp | hp
  · exact l.plain p hp
  · obtain ⟨c, -, rfl⟩ := List.mem_map.mp hp
    exact Expr.isPlain_col _ _

theorem rows_inner : (l.inner.eval S.engine db (fun _ => ⟨[], []⟩)).rows =
    S.engine.project (distinctOn l.inputs.owner l.source.grain) l.innerProjections []
      ((l.table db).rows.flatMap (l.joined S db)) := by
  rw [inner, Query.eval, filter_from]

/-- The grains of the joined rows are those of the rows that are reached. -/
theorem grains_perm (hgrain : ((l.table db).rows.map (l.grainOf db)).Nodup) :
    ((((l.table db).rows.flatMap (l.joined S db)).map
      (S.engine.keyOf (l.source.grain.map fun g => Expr.col g l.inputs.owner))).dedup).Perm
      ((l.reached S db).map (l.grainOf db)) := by
  have hnodup : ((l.reached S db).map (l.grainOf db)).Nodup :=
    hgrain.sublist (List.filter_sublist.map _)
  rw [List.perm_ext_iff_of_nodup (List.nodup_dedup _) hnodup]
  intro k
  rw [List.mem_dedup, List.mem_map, List.mem_map]
  constructor
  · rintro ⟨s, hs, rfl⟩
    obtain ⟨r, hr, hsr⟩ := List.mem_flatMap.mp hs
    exact ⟨r, l.mem_reached.mpr ⟨hr, s, hsr⟩, (l.keyOf_grain hsr).symm⟩
  · rintro ⟨r, hr, rfl⟩
    obtain ⟨hrow, s, hs⟩ := l.mem_reached.mp hr
    exact ⟨s, List.mem_flatMap.mpr ⟨r, hrow, hs⟩, l.keyOf_grain hs⟩

/-- The joined rows of one row of the owner project the same, where the dimensions are functions of
the owner. -/
theorem inner_values {r : List (Value α)} {s s' : Scope α} (hs : s ∈ l.joined S db r)
    (hs' : s' ∈ l.joined S db r) (hkey : S.engine.keyOf l.keys s = S.engine.keyOf l.keys s') :
    (l.innerProjections.map fun p => S.engine.eval s p.expr) =
      l.innerProjections.map fun p => S.engine.eval s' p.expr := by
  unfold Sql.Engine.keyOf keys at hkey
  rw [List.map_map, List.map_map] at hkey
  rw [innerProjections, List.map_append, List.map_append]
  congr 1
  rw [List.map_map, List.map_map]
  apply List.map_congr_left
  intro c hc
  have howner := (l.mem_columns.mp hc).1
  rw [Function.comp_apply, Function.comp_apply, howner, l.eval_own hs, l.eval_own hs']

theorem dedup_of_forall_eq {β : Type} [DecidableEq β] {x : β} {xs : List β} (hne : xs ≠ [])
    (h : ∀ y ∈ xs, y = x) : xs.dedup = [x] := by
  have hmem : x ∈ xs := by
    obtain ⟨y, hy⟩ := List.exists_mem_of_ne_nil _ hne
    exact h y hy ▸ hy
  apply List.perm_singleton.mp
  rw [List.perm_ext_iff_of_nodup (List.nodup_dedup _) (List.nodup_singleton _)]
  intro y
  rw [List.mem_dedup, List.mem_singleton]
  exact ⟨h y, fun hy => hy ▸ hmem⟩

/-- **One row each.** The inner query keeps, of each row of the owner that is reached, what one of
its joined rows projects. Without a grain the owner has one row at most. -/
theorem inner_perm (hgrain : ((l.table db).rows.map (l.grainOf db)).Nodup)
    {tuple : List (Value α) → List (Value α)}
    (htuple : ∀ r ∈ (l.table db).rows, ∀ s ∈ l.joined S db r, S.engine.keyOf l.keys s = tuple r) :
    ∃ rep : List (Value α) → Scope α, (∀ r ∈ l.reached S db, rep r ∈ l.joined S db r) ∧
      (l.inner.eval S.engine db (fun _ => ⟨[], []⟩)).rows.Perm ((l.reached S db).map fun r =>
        l.innerProjections.map fun p => S.engine.eval (rep r) p.expr) := by
  have hplain : (l.innerProjections.all fun p => p.expr.isPlain) = true :=
    List.all_eq_true.mpr l.isPlain_inner
  rw [rows_inner]
  by_cases hempty : l.source.grain = []
  · -- all grains are the same, so there is one row, whose joined rows project the same
    have hdistinct : distinctOn l.inputs.owner l.source.grain = .rows := by
      rw [distinctOn, hempty]
      rfl
    refine ⟨fun r => ((l.joined S db r).head?).getD [], ?_, ?_⟩
    · intro r hr
      obtain ⟨-, s, hs⟩ := l.mem_reached.mp hr
      exact Sql.head_mem_of_mem hs
    · rw [hdistinct]
      simp only [Sql.Engine.project, List.isEmpty_nil, hplain, Bool.and_self, if_true]
      unfold reached
      cases hrows : (l.table db).rows with
      | nil => simp
      | cons r rest =>
          have hrest : rest = [] := by
            rw [hrows] at hgrain
            cases rest with
            | nil => rfl
            | cons r' rest => simp [grainOf, hempty] at hgrain
          subst hrest
          rw [List.flatMap_singleton]
          cases hjoined : l.joined S db r with
          | nil => simp [hjoined]
          | cons s ss =>
              have hr : r ∈ (l.table db).rows := by
                rw [hrows]
                exact List.mem_singleton_self r
              have hmem : s ∈ l.joined S db r := by
                rw [hjoined]
                exact List.mem_cons_self
              rw [← hjoined, dedup_of_forall_eq (x := l.innerProjections.map fun p =>
                S.engine.eval s p.expr) (by simp [hjoined])]
              · simp [hjoined]
              · intro y hy
                obtain ⟨s', hs', rfl⟩ := List.mem_map.mp hy
                exact l.inner_values hs' hmem
                  ((htuple r hr s' hs').trans (htuple r hr s hmem).symm)
  -- one scope is picked for each value of the grain, and the grain names the row
  · have hdistinct : distinctOn l.inputs.owner l.source.grain =
        .on (l.source.grain.map fun g => Expr.col g l.inputs.owner) := by
      rw [distinctOn, if_neg (by simpa using hempty)]
    obtain ⟨pick, hpick, hperm⟩ := S.grouped_distinctOn
      (l.source.grain.map fun g => Expr.col g l.inputs.owner) l.innerProjections
      ((l.table db).rows.flatMap (l.joined S db)) l.isPlain_inner
    refine ⟨fun r => pick (l.grainOf db r), ?_, ?_⟩
    · intro r hr
      obtain ⟨hrow, s, hs⟩ := l.mem_reached.mp hr
      have hmem := hpick (l.grainOf db r) (List.mem_map.mpr
        ⟨s, List.mem_flatMap.mpr ⟨r, hrow, hs⟩, l.keyOf_grain hs⟩)
      obtain ⟨hflat, hkey⟩ := S.engine.mem_groupOf.mp hmem
      obtain ⟨r', hrow', hjoined⟩ := List.mem_flatMap.mp hflat
      have hsame : r' = r := List.inj_on_of_nodup_map hgrain hrow' hrow
        ((l.keyOf_grain hjoined).symm.trans hkey)
      exact hsame ▸ hjoined
    · rw [hdistinct]
      simp only [Sql.Engine.project, List.isEmpty_nil, hplain, Bool.and_self, if_true]
      refine hperm.trans (((l.grains_perm hgrain).map _).trans (List.Perm.of_eq ?_))
      rw [List.map_map]
      rfl

/-! ### The aggregate -/

theorem dedupAlias_ne_empty : dedupAlias ≠ "" := by decide

theorem measures_length : l.measures.length = (l.metrics.map (·.outputAlias)).length := by
  rw [List.length_map]
  exact (mapM_eq_ok.mp l.measures_eq).length_eq.symm

theorem mem_outerMeasures {a : Projection} (ha : a ∈ l.outerMeasures) :
    ∃ e ∈ l.measures, a.expr = qualifyTo e dedupAlias := by
  obtain ⟨p, hp, rfl⟩ := List.mem_map.mp ha
  exact ⟨p.1, (List.of_mem_zip hp).1, rfl⟩

variable (S db)

/-- A qualified expression reads the same columns elsewhere. -/
theorem qualifyTo_eq_mapColumns (e : Expr) (a : String) : qualifyTo e a = e.mapColumns fun c =>
    .column (if c.table = "" then ⟨"", a, c.name⟩ else c) := by
  unfold qualifyTo
  congr 1
  funext c
  split <;> rfl

/-- What is built for the leaf aggregates each row of the owner that is reached once, in the group
of its dimensions. -/
def CountsOnce : Prop :=
  ∀ q aux, buildAdditive l.inputs l.metrics = .ok (q, aux) →
  ∀ tuple : List (Value α) → List (Value α), ((l.table db).rows.map (l.grainOf db)).Nodup →
    (∀ r ∈ (l.table db).rows, ∀ s ∈ l.joined S db r, S.engine.keyOf l.keys s = tuple r) →
    (q.eval S.engine db (fun _ => ⟨[], []⟩)).rows.Perm
      ((Sql.groupsOf (l.dims ≠ []) tuple (l.reached S db)).map fun k =>
        k ++ l.measures.map fun e => S.aggregate (qualifyTo e l.inputs.owner)
          (((l.reached S db).filter fun r => tuple r = k).map (l.base db)))

/-- A measure reads from the rows that are kept what it reads from the owner. -/
theorem aggregate_base (hnames : Projection.Consistent l.innerProjections)
    {rep : List (Value α) → Scope α} {rows : List (List (Value α))}
    (hrep : ∀ r ∈ rows, rep r ∈ l.joined S db r) {e : Expr} (he : e ∈ l.measures)
    (hbare : ∀ c ∈ e.columns, c.table = "") :
    S.aggregate (qualifyTo e dedupAlias) (rows.map fun r =>
      Sql.cteScope dedupAlias l.innerProjections (S.engine.eval (rep r))) =
      S.aggregate (qualifyTo e l.inputs.owner) (rows.map (l.base db)) := by
  rw [qualifyTo_eq_mapColumns, qualifyTo_eq_mapColumns]
  apply S.aggregate_congr
  rw [List.forall₂_map_left_iff, List.forall₂_map_right_iff, List.forall₂_same]
  intro r hr c hc
  rw [if_pos (hbare c hc), if_pos (hbare c hc)]
  have hmem : (⟨Expr.col c.name l.inputs.owner, c.name⟩ : Projection) ∈ l.innerProjections := by
    apply List.mem_append_right
    rw [List.mem_map]
    exact ⟨(c.name, l.inputs.owner), l.mem_columns.mpr ⟨rfl, e, he, c, hc, rfl⟩, rfl⟩
  have hread := S.engine.eval_cteScope dedupAlias_ne_empty hnames (S.engine.eval (rep r)) hmem
  rw [l.eval_own (hrep r hr), Expr.col, Sql.Engine.eval] at hread
  rw [hread, base, Sql.Engine.column, if_neg l.owner_ne]
  exact (Scope.value_cons_self _ (l.table db) r [] _).symm

/-- What the outer query groups by. -/
def outerDims : List Projection := l.dims.map fun p => ⟨Expr.col p.name dedupAlias, p.name⟩

/-- The outer query reads the rows of the inner one. -/
theorem rows_outer : (l.outer.eval S.engine db (fun _ => ⟨[], []⟩)).rows =
    S.engine.project .none (l.outerDims ++ l.outerMeasures) (l.outerDims.map (·.expr))
      ((l.inner.eval S.engine db (fun _ => ⟨[], []⟩)).rows.map fun r =>
        [(dedupAlias, ⟨l.innerProjections.map (·.name), some r⟩)]) := by
  have hcolumns : (l.inner.eval S.engine db (fun _ => ⟨[], []⟩)).columns =
      l.innerProjections.map (·.name) := by
    rw [inner, Query.eval]
  have hrel : Query.evalRel S.engine db (fun _ => ⟨[], []⟩) (.derived l.inner) =
      l.inner.eval S.engine db (fun _ => ⟨[], []⟩) := by simp only [Query.evalRel]
  rw [outer, outerDims, Query.eval, Query.evalItems_cons, Query.evalItems_nil, hrel,
    List.flatMap_singleton, S.engine.join_nil (by simp), hcolumns, List.map_map]
  have hall : ∀ ss : List (Scope α), ss.filter (fun s => S.engine.holds s []) = ss :=
    fun ss => List.filter_eq_self.mpr fun _ _ => rfl
  simp only [hall]
  rfl

/-- A row is grouped by the dimensions of the scope it was projected from. -/
theorem keyOf_outerDims (hnames : Projection.Consistent l.innerProjections) (s : Scope α) :
    S.engine.keyOf (l.outerDims.map (·.expr))
      (Sql.cteScope dedupAlias l.innerProjections (S.engine.eval s)) = S.engine.keyOf l.keys s := by
  unfold Sql.Engine.keyOf keys outerDims
  rw [List.map_map, List.map_map, List.map_map]
  apply List.map_congr_left
  intro p hp
  exact S.engine.eval_cteScope dedupAlias_ne_empty hnames _ (List.mem_append_left _ hp)

/-- A leaf has a metric, and a measure aggregates. -/
theorem exists_aggregate : ∃ a ∈ l.outerMeasures, a.expr.isPlain = false := by
  obtain ⟨m, hm⟩ := List.exists_mem_of_ne_nil _ l.metrics_ne
  obtain ⟨e, he, -⟩ := forall₂_mem_left (mapM_eq_ok.mp l.measures_eq) hm
  have hlen := l.measures_length
  have hne : l.outerMeasures ≠ [] := by
    intro hnil
    have hzero := congrArg List.length hnil
    rw [outerMeasures, List.length_map, List.length_zip, ← hlen, Nat.min_self] at hzero
    exact List.ne_nil_of_mem he (List.length_eq_zero_iff.mp hzero)
  obtain ⟨a, ha⟩ := List.exists_mem_of_ne_nil _ hne
  obtain ⟨e', he', hexpr⟩ := l.mem_outerMeasures ha
  refine ⟨a, ha, ?_⟩
  rw [hexpr, qualifyTo_eq_mapColumns, Expr.isPlain_mapColumns_column]
  exact (l.aggregated e' he').1

theorem isWindow_outerMeasures : ∀ a ∈ l.outerMeasures, a.expr.isWindow = false := by
  intro a ha
  obtain ⟨e, he, hexpr⟩ := l.mem_outerMeasures ha
  rw [hexpr, qualifyTo_eq_mapColumns, Expr.isWindow_mapColumns_column]
  exact (l.aggregated e he).2

theorem map_outerMeasures {β : Type} (f : Expr → β) :
    l.outerMeasures.map (fun a => f a.expr) =
      l.measures.map fun e => f (qualifyTo e dedupAlias) := by
  have hzip : (l.measures.zip (l.metrics.map (·.outputAlias))).map Prod.fst = l.measures :=
    List.map_fst_zip (le_of_eq l.measures_length)
  calc l.outerMeasures.map (fun a => f a.expr)
      = ((l.measures.zip (l.metrics.map (·.outputAlias))).map Prod.fst).map fun e =>
          f (qualifyTo e dedupAlias) := by
        rw [outerMeasures, List.map_map, List.map_map]
        rfl
    _ = l.measures.map fun e => f (qualifyTo e dedupAlias) := by rw [hzip]

/-- **Each row of the owner counts once**, where a name of the inner query says which column it is
and the measures name their columns bare. -/
theorem countsOnce (hnames : Projection.Consistent l.innerProjections)
    (hbare : ∀ e ∈ l.measures, ∀ c ∈ e.columns, c.table = "") : l.CountsOnce S db := by
  intro q aux hbuild tuple hgrain htuple
  rw [(Prod.mk.inj (l.buildAdditive_eq hbuild)).1, l.rows_outer]
  obtain ⟨rep, hrep, hinner⟩ := l.inner_perm hgrain htuple
  have hscopes : (((l.inner.eval S.engine db (fun _ => ⟨[], []⟩)).rows.map fun r =>
      ([(dedupAlias, ⟨l.innerProjections.map (·.name), some r⟩)] : Scope α))).Perm
      ((l.reached S db).map fun r =>
        Sql.cteScope dedupAlias l.innerProjections (S.engine.eval (rep r))) := by
    refine (hinner.map _).trans (List.Perm.of_eq ?_)
    rw [List.map_map]
    rfl
  have hplain : ∀ p ∈ l.outerDims, p.expr.isPlain = true := by
    intro p hp
    obtain ⟨d, -, rfl⟩ := List.mem_map.mp hp
    exact Expr.isPlain_col _ _
  have hkey : ∀ r ∈ l.reached S db, S.engine.keyOf (l.outerDims.map (·.expr))
      (Sql.cteScope dedupAlias l.innerProjections (S.engine.eval (rep r))) = tuple r :=
    fun r hr => (l.keyOf_outerDims S hnames (rep r)).trans
      (htuple r (l.mem_reached.mp hr).1 (rep r) (hrep r hr))
  refine (S.project_over hplain (Or.inr l.exists_aggregate) l.isWindow_outerMeasures hscopes
    hkey).trans (List.Perm.of_eq ?_)
  have hgroups : Sql.groupsOf (l.outerDims ≠ []) tuple (l.reached S db) =
      Sql.groupsOf (l.dims ≠ []) tuple (l.reached S db) := by
    unfold Sql.groupsOf outerDims
    simp
  rw [hgroups]
  apply List.map_congr_left
  intro k _
  congr 1
  -- a measure over the picked scopes is the measure over the rows of the source
  rw [l.map_outerMeasures fun e => S.aggregate e (((l.reached S db).filter fun r =>
    tuple r = k).map fun r => Sql.cteScope dedupAlias l.innerProjections (S.engine.eval (rep r)))]
  exact List.map_congr_left fun e he =>
    l.aggregate_base S db hnames (fun r hr => hrep r (List.mem_filter.mp hr).1) he (hbare e he)

end DedupLeaf

/-! ## A dimension with the name of a column -/

private def invoiceTexts : List (String × Expr) :=
  [("SUM(total)", .node (.agg .sum) [Expr.bare "total"]),
    ("invoices.number = positions.invoice",
      .mkEq (.column ⟨"", "invoices", "number"⟩) (.column ⟨"", "positions", "invoice"⟩))]

private def invoicePositions : Join :=
  ⟨"positions", "invoices.number = positions.invoice", .oneToMany, none⟩

private def invoices : SemanticSource where
  name := "invoices"
  connection := "wh"
  table := "invoices"
  grain := ["number"]
  columns := [⟨"number", .int, true⟩, ⟨"branch", .int, true⟩, ⟨"total", .decimal, true⟩]
  measures := [{ name := "total", expr := "SUM(total)" }]
  joins := [invoicePositions]
  measures_nodup := List.nodup_singleton "total"
  joins_nodup := List.nodup_singleton "positions"

private def positions : SemanticSource where
  name := "positions"
  connection := "wh"
  table := "positions"
  columns := [⟨"invoice", .int, true⟩]

private def invoiceEnv : Env where
  lib := Lib.ofTexts invoiceTexts
  dialectName := "postgres"
  sources := { list := [invoices, positions] }

/-- The totals of the invoices with their positions, by their branch under the given name. -/
private def invoiceInputs (dimension : String) : LeafInputs where
  ctx := { env := invoiceEnv, query := { metrics := ["total"], dimensions := [dimension] },
           resolver := {}, principal := {},
           policy := ⟨["*"], [], ["*"], [], ["*"], false, false, [], []⟩ }
  owner := "invoices"
  dimensions := [("invoices", { name := dimension, column := some "branch" })]
  conditions := []
  edges := [⟨"invoices", "invoices", invoicePositions, "positions", invoicePositions.on⟩]
  fanout := true
  tree := []
  mask := []

private def invoiceLeaf (dimension : String)
    (hdims : dimProjections invoiceEnv (invoiceInputs dimension).shifted []
      (invoiceInputs dimension).dimensions =
        .ok [⟨Expr.col "branch" "invoices", dimension⟩]) : DedupLeaf where
  inputs := invoiceInputs dimension
  metrics := [⟨⟨"total", "invoices", { name := "total", expr := "SUM(total)" }⟩, none, none⟩]
  source := invoices
  dims := [⟨Expr.col "branch" "invoices", dimension⟩]
  measures := [.node (.agg .sum) [Expr.bare "total"]]
  joins := [⟨.left, .source "positions" "positions", "positions",
    [.mkEq (.column ⟨"", "invoices", "number"⟩) (.column ⟨"", "positions", "invoice"⟩)]⟩]
  fanout := rfl
  source_eq := rfl
  dims_eq := hdims
  measures_eq := rfl
  joins_eq := rfl
  metrics_ne := List.cons_ne_nil _ _
  own := fun m hm => by
    rw [List.mem_singleton.mp hm]
    rfl
  plain := fun p hp => by
    rw [List.mem_singleton.mp hp]
    exact Expr.isPlain_col _ _
  aggregated := fun e he => by
    rw [List.mem_singleton.mp he]
    exact ⟨by simp [Sql.Op.readsGroup], rfl⟩
  alias_ne := fun i hi => by
    rw [List.mem_singleton.mp hi]
    show "positions" ≠ "invoices"
    decide
  owner_ne := by
    show "invoices" ≠ ""
    decide

/-- Invoice 1 of branch 10 over 5, with two positions. -/
private def invoiceTables (name : String) : Table ℚ :=
  if name = "invoices" then ⟨["number", "branch", "total"], [[.data 1, .data 10, .data 5]]⟩
  else ⟨["invoice"], [[.data 1], [.data 1]]⟩

private def noNumerals (_ : String) : Option ℚ := none

/-- Under the name of the column that is summed, the branch is summed instead. -/
theorem countsOnce_counterexample :
    buildAdditive (invoiceLeaf "total" rfl).inputs (invoiceLeaf "total" rfl).metrics =
        .ok ((invoiceLeaf "total" rfl).outer, []) ∧
      ((invoiceLeaf "total" rfl).outer.eval (Sql.reference noNumerals).engine invoiceTables
        fun _ => ⟨[], []⟩).rows = [[.data 10, .data 10]] ∧
      ¬ (invoiceLeaf "total" rfl).CountsOnce (Sql.reference noNumerals) invoiceTables := by
  have hbuild : buildAdditive (invoiceLeaf "total" rfl).inputs (invoiceLeaf "total" rfl).metrics =
      .ok ((invoiceLeaf "total" rfl).outer, []) := by rfl
  have hrows : ((invoiceLeaf "total" rfl).outer.eval (Sql.reference noNumerals).engine
      invoiceTables fun _ => ⟨[], []⟩).rows = [[.data 10, .data 10]] := by decide +kernel
  refine ⟨hbuild, hrows, ?_⟩
  intro hcounts
  have hperm := hcounts _ _ hbuild (fun r => [((invoiceLeaf "total" rfl).table invoiceTables).value
    r "branch"]) (by decide +kernel) (by decide +kernel)
  rw [hrows] at hperm
  have hcounted := List.perm_singleton.mp hperm.symm
  revert hcounted
  decide +kernel

theorem countsOnce_branch :
    (invoiceLeaf "branch" rfl).CountsOnce (Sql.reference noNumerals) invoiceTables :=
  (invoiceLeaf "branch" rfl).countsOnce (Sql.reference noNumerals) invoiceTables
    (by unfold Projection.Consistent; decide +kernel) (by decide +kernel)

end Canonic
