import Canonic.Compiler.Strategies.Single
import Canonic.Compiler.Schema
import Canonic.Sql.Reference

set_option autoImplicit false

/-! # Percentiles by rank

`_build_percentile_fallback`: a dialect without an ordered-set aggregate ranks the rows of a group
by `CUME_DIST` and keeps the least value at or past the quantile. The rows without a value are
filtered before the groups are formed, so a group in which no row has a value is lost, where the
aggregate would give `NULL`. -/

namespace Canonic

open Sql (Expr Query Projection FromItem Scope Value Table Statement StandardSql)

/-! ## The percentile of a bag -/

section

variable {α : Type} [LinearOrder α]

/-- The known values that a fraction `q` of the known values do not exceed. -/
def atRank (q : ℚ) (xs : List (Value α)) : List (Value α) :=
  xs.filter fun v => q * xs.length ≤ (xs.countP fun w => decide (w ≤ v) : ℕ)

/-- The least known value that a fraction `q` of the known values does not exceed. -/
def nearestRank (q : ℚ) (vs : List (Value α)) : Value α := Value.least (atRank q (Value.known vs))

/-- All values are at most the greatest of them. -/
theorem atRank_ne_nil {q : ℚ} (hq : q ≤ 1) {xs : List (Value α)} (hne : xs ≠ []) :
    atRank q xs ≠ [] := by
  cases hm : xs.max? with
  | none => exact absurd (List.max?_eq_none_iff.mp hm) hne
  | some m =>
      obtain ⟨hmem, hmax⟩ := List.max?_eq_some_iff.mp hm
      have hall : (xs.countP fun w => decide (w ≤ m)) = xs.length :=
        List.countP_eq_length.mpr fun w hw => decide_eq_true (hmax w hw)
      have hlen : (0 : ℚ) ≤ xs.length := Nat.cast_nonneg _
      apply List.ne_nil_of_mem (a := m)
      rw [atRank, List.mem_filter, decide_eq_true_eq, hall]
      exact ⟨hmem, by nlinarith⟩

theorem known_atRank {q : ℚ} {vs : List (Value α)} :
    Value.known (atRank q (Value.known vs)) = atRank q (Value.known vs) := by
  apply List.filter_eq_self.mpr
  intro v hv
  exact decide_eq_true (Value.mem_known.mp (List.mem_filter.mp hv).1).2

theorem nearestRank_eq_null_iff {q : ℚ} (hq : q ≤ 1) {vs : List (Value α)} :
    nearestRank q vs = .null ↔ Value.known vs = [] := by
  rw [nearestRank, Value.least_eq_null_iff, known_atRank]
  constructor
  · intro h
    by_contra hne
    exact atRank_ne_nil hq hne h
  · intro h
    rw [h]
    rfl

/-- The percentile of values that are known somewhere. -/
theorem isLeast_nearestRank {q : ℚ} (hq : q ≤ 1) {vs : List (Value α)}
    (h : Value.known vs ≠ []) :
    IsLeast {v | v ∈ Value.known vs ∧ q * (Value.known vs).length ≤
      ((Value.known vs).countP fun w => decide (w ≤ v) : ℕ)} (nearestRank q vs) := by
  have hset : {v | v ∈ Value.known vs ∧ q * (Value.known vs).length ≤
      ((Value.known vs).countP fun w => decide (w ≤ v) : ℕ)} =
      {v | v ∈ atRank q (Value.known vs) ∧ v ≠ .null} := by
    ext v
    rw [Set.mem_ofPred_eq, Set.mem_ofPred_eq, ← Value.mem_known, known_atRank, atRank,
      List.mem_filter, decide_eq_true_eq]
  rw [hset]
  apply Value.isLeast_least
  rw [known_atRank]
  exact atRank_ne_nil hq h

end

/-- What the percentile of a bag is: `NULL` when no value is known, else the least known value that
a fraction `q` of the known values do not exceed. -/
structure IsPercentile {α : Type} [LinearOrder α] (q : ℚ) (vs : List (Value α)) (v : Value α) :
    Prop where
  unknown : Value.known vs = [] → v = .null
  least : Value.known vs ≠ [] → IsLeast {v | v ∈ Value.known vs ∧ q * (Value.known vs).length ≤
    ((Value.known vs).countP fun w => decide (w ≤ v) : ℕ)} v

theorem isPercentile_iff {α : Type} [LinearOrder α] {q : ℚ} (hq : q ≤ 1) {vs : List (Value α)}
    {v : Value α} : IsPercentile q vs v ↔ v = nearestRank q vs := by
  by_cases hvs : Value.known vs = []
  · have hnull := (nearestRank_eq_null_iff hq).mpr hvs
    constructor
    · exact fun h => (h.unknown hvs).trans hnull.symm
    · rintro rfl
      exact ⟨fun _ => hnull, fun hne => absurd hvs hne⟩
  · have hleast := isLeast_nearestRank hq hvs
    constructor
    · exact fun h => (h.least hvs).unique hleast
    · rintro rfl
      exact ⟨fun h => absurd h hvs, fun _ => hleast⟩

/-! ## Ranked rows -/

section

variable {α : Type} [LinearOrder α] (E : Sql.Engine α) (keys : List Expr) (value : Expr)

/-- The rows that have a value. -/
def knownRows (ss : List (Scope α)) : List (Scope α) := ss.filter fun s => E.eval s value ≠ .null

/-- The fraction of its group that a row is not before. -/
def rankOf (ss : List (Scope α)) (s : Scope α) : ℚ :=
  ((E.groupOf keys (E.keyOf keys s) ss).countP fun s' =>
    decide (E.eval s' value ≤ E.eval s value)) / (E.groupOf keys (E.keyOf keys s) ss).length

/-- The rows at or past the quantile. -/
def pickedRows (q : ℚ) (ss : List (Scope α)) : List (Scope α) :=
  (knownRows E value ss).filter fun s => q ≤ rankOf E keys value (knownRows E value ss) s

variable {E keys value}

theorem mem_pickedRows {q : ℚ} {ss : List (Scope α)} {s : Scope α} :
    s ∈ pickedRows E keys value q ss ↔
      s ∈ knownRows E value ss ∧ q ≤ rankOf E keys value (knownRows E value ss) s := by
  rw [pickedRows, List.mem_filter, decide_eq_true_eq]

theorem known_group (k : List (Value α)) (ss : List (Scope α)) :
    Value.known ((E.groupOf keys k ss).map fun s => E.eval s value) =
      (E.groupOf keys k (knownRows E value ss)).map fun s => E.eval s value := by
  unfold Value.known Sql.Engine.groupOf knownRows
  rw [List.filter_map, List.filter_filter, List.filter_filter]
  congr 1
  apply List.filter_congr
  intro s _
  simp [Bool.and_comm]

/-- A row is picked exactly when its value has the rank in its group. -/
theorem le_rankOf_iff {q : ℚ} {ss : List (Scope α)} {s : Scope α} (hs : s ∈ ss) :
    q ≤ rankOf E keys value ss s ↔
      E.eval s value ∈ atRank q ((E.groupOf keys (E.keyOf keys s) ss).map
        fun s' => E.eval s' value) := by
  have hmem : s ∈ E.groupOf keys (E.keyOf keys s) ss := E.mem_groupOf.mpr ⟨hs, rfl⟩
  have hpos : (0 : ℚ) < (E.groupOf keys (E.keyOf keys s) ss).length := by
    exact_mod_cast List.length_pos_of_mem hmem
  rw [rankOf, le_div_iff₀ hpos, atRank, List.mem_filter, decide_eq_true_eq, List.length_map,
    List.countP_map]
  constructor
  · exact fun h => ⟨List.mem_map_of_mem hmem, h⟩
  · exact fun h => h.2

/-- The least value that is picked in a group is its percentile. -/
theorem least_pickedRows (q : ℚ) (ss : List (Scope α)) (k : List (Value α)) :
    Value.least ((E.groupOf keys k (pickedRows E keys value q ss)).map fun s => E.eval s value) =
      nearestRank q ((E.groupOf keys k ss).map fun s => E.eval s value) := by
  rw [nearestRank, known_group]
  apply Value.least_congr
  intro v _
  rw [List.mem_map]
  constructor
  · rintro ⟨s, hs, rfl⟩
    obtain ⟨hpicked, hkey⟩ := E.mem_groupOf.mp hs
    obtain ⟨hknown, hrank⟩ := mem_pickedRows.mp hpicked
    rw [← hkey]
    exact (le_rankOf_iff hknown).mp hrank
  · intro hv
    obtain ⟨s, hs, rfl⟩ := List.mem_map.mp (List.mem_filter.mp hv).1
    obtain ⟨hknown, hkey⟩ := E.mem_groupOf.mp hs
    rw [← hkey] at hv
    have hpicked := mem_pickedRows.mpr ⟨hknown, (le_rankOf_iff hknown).mpr hv⟩
    exact ⟨s, E.mem_groupOf.mpr ⟨hpicked, hkey⟩, rfl⟩

/-- A group with a value keeps a row. -/
theorem groupKeys_pickedRows {q : ℚ} (hq : q ≤ 1) (ss : List (Scope α)) :
    (E.groupKeys keys (pickedRows E keys value q ss)).Perm
      (E.groupKeys keys (knownRows E value ss)) := by
  by_cases hk : keys = []
  · unfold Sql.Engine.groupKeys
    rw [if_pos hk, if_pos hk]
  · rw [List.perm_ext_iff_of_nodup (E.nodup_groupKeys _ _) (E.nodup_groupKeys _ _)]
    intro k
    rw [E.mem_groupKeys hk, E.mem_groupKeys hk]
    constructor
    · rintro ⟨s, hs, rfl⟩
      exact ⟨s, (mem_pickedRows.mp hs).1, rfl⟩
    · rintro ⟨s, hs, rfl⟩
      have hgroup : (E.groupOf keys (E.keyOf keys s) (knownRows E value ss)).map
          (fun s' => E.eval s' value) ≠ [] :=
        List.ne_nil_of_mem (List.mem_map_of_mem (E.mem_groupOf.mpr ⟨hs, rfl⟩))
      obtain ⟨v, hv⟩ := List.exists_mem_of_ne_nil _ (atRank_ne_nil hq hgroup)
      obtain ⟨s', hs', rfl⟩ := List.mem_map.mp (List.mem_filter.mp hv).1
      obtain ⟨hknown, hkey⟩ := E.mem_groupOf.mp hs'
      rw [← hkey] at hv
      exact ⟨s', mem_pickedRows.mpr ⟨hknown, (le_rankOf_iff hknown).mpr hv⟩, hkey⟩

end

/-! ## The fallback of a leaf -/

/-- A percentile leaf whose parts are found: its dimensions, each the value of a row, its `FROM`
clause, and the parsed test of its column. -/
structure PercentileLeaf where
  inputs : LeafInputs
  alias_ : String
  column : String
  quantile : String
  name : String
  dims : List Projection
  from_ : List (FromItem Query)
  dims_eq : dimProjections inputs.ctx.env inputs.shifted inputs.mask inputs.dimensions = .ok dims
  from_eq : fromAndJoins inputs.ctx.env inputs.owner inputs.edges = .ok from_
  notNull_eq : inputs.ctx.env.parse s!"{column} IS NOT NULL" =
    .ok (.node .not [(Expr.bare column).isNull])
  plain : ∀ p ∈ dims, p.expr.isPlain = true

namespace PercentileLeaf

variable (l : PercentileLeaf)

/-- The name of the ranked rows. -/
def cte : String := l.inputs.namePrefix ++ "_ranked"

/-- The column the percentile is of. -/
def value : Expr := Expr.col l.column l.alias_

def keys : List Expr := l.dims.map (·.expr)

/-- What the ranked rows project: the dimensions, the value and its rank. -/
def rankedProjections : List Projection :=
  (l.dims ++ [⟨l.value, "_val"⟩]) ++ [⟨Sql.cumeDist l.keys l.value, "_cd"⟩]

/-- The ranked rows. -/
def inner : Query :=
  .select .none l.rankedProjections l.from_
    (l.inputs.conditions ++ [.node .not [l.value.isNull]]) []

def outer : Query :=
  .select .none (l.dims.map (fun p => ⟨Expr.col p.name l.cte, p.name⟩) ++
      [⟨.node (.agg .min) [Expr.col "_val" l.cte], l.name⟩])
    [readCte .from l.cte []] [.node .gte [Expr.col "_cd" l.cte, .number l.quantile]]
    (l.dims.map fun p => Expr.col p.name l.cte)

def statement : Statement := ⟨[(l.cte, l.inner)], l.outer⟩

theorem cte_ne_empty : l.cte ≠ "" := by
  intro h
  have hlen := congrArg String.length h
  simp [cte] at hlen

/-- The fallback that is built for a leaf. -/
theorem buildPercentileFallback_eq :
    buildPercentileFallback l.inputs l.quantile l.alias_ l.column l.name =
      .ok (l.outer, [⟨l.cte, l.inner⟩]) := by
  have hnot : qualifyTo (.node .not [(Expr.bare l.column).isNull]) l.alias_ =
      .node .not [l.value.isNull] := by
    simp [qualifyTo, Expr.isNull, Expr.bare, value]
  have hinner : percentileRanked l.inputs l.alias_ l.column = .ok l.inner := by
    simp only [percentileRanked, bind_eq_ok, pure_eq_ok]
    refine ⟨l.dims, l.dims_eq, l.from_, l.from_eq, _, l.notNull_eq, ?_⟩
    rw [hnot, inner, rankedProjections, List.append_assoc]
    rfl
  have hdims : readDims l.cte l.inputs.dimNames =
      l.dims.map fun p => ⟨Expr.col p.name l.cte, p.name⟩ := by
    rw [LeafInputs.dimNames, ← dimProjections_names l.dims_eq, readDims, List.map_map]
    rfl
  unfold buildPercentileFallback
  refine bind_eq_ok.mpr ⟨l.inner, hinner, ?_⟩
  have hcte : l.inputs.namePrefix ++ "_ranked" = l.cte := rfl
  simp only [hcte, hdims, List.map_map]
  rfl

/-! ### Its rows -/

variable {α : Type} [LinearOrder α] (S : StandardSql α) (db : String → Table α)

/-- The rows the percentile is over. -/
def rows : List (Scope α) :=
  (Query.evalItems S.engine db (fun _ => ⟨[], []⟩) l.from_ [[]]).filter fun s =>
    S.engine.holds s l.inputs.conditions

/-- The rows that have a value. -/
def known : List (Scope α) := knownRows S.engine l.value (l.rows S db)

/-- A row as the ranked rows have it. -/
def rankedRow (s : Scope α) : Scope α :=
  Sql.cteScope l.cte l.rankedProjections (S.rowValue (l.known S db) s)

theorem isPlain_value : l.value.isPlain = true := Expr.isPlain_col _ _

theorem eval_notNull (s : Scope α) :
    (S.engine.eval s (.node .not [l.value.isNull])).isTrue =
      decide (S.engine.eval s l.value ≠ .null) := by
  rw [S.not_eq, Expr.isNull]
  simp only [Sql.Engine.eval, Value.not3, Value.isTrue_bool, decide_not]
  rfl

theorem eval_inner :
    l.inner.eval S.engine db (fun _ => ⟨[], []⟩) = ⟨l.rankedProjections.map (·.name),
      (l.known S db).map fun s =>
        l.rankedProjections.map fun p => S.rowValue (l.known S db) s p.expr⟩ := by
  have hplain : ∀ p ∈ l.dims ++ [⟨l.value, "_val"⟩], p.expr.isPlain = true := by
    intro p hp
    rcases List.mem_append.mp hp with hp | hp
    · exact l.plain p hp
    · rw [List.mem_singleton.mp hp]
      exact l.isPlain_value
  have hwhere : ((Query.evalItems S.engine db (fun _ => ⟨[], []⟩) l.from_ [[]]).filter fun s =>
      S.engine.holds s (l.inputs.conditions ++ [.node .not [l.value.isNull]])) = l.known S db := by
    unfold known knownRows rows
    rw [List.filter_filter]
    apply List.filter_congr
    intro s _
    rw [Sql.Engine.holds, List.all_append, List.all_cons, List.all_nil, Bool.and_true,
      eval_notNull, Bool.and_comm]
    rfl
  unfold inner
  rw [Query.eval, hwhere, rankedProjections, S.project_window hplain (by simp) (by simp; rfl)]

theorem eval_rankedRow (hnames : Projection.Consistent l.rankedProjections) (s : Scope α)
    {p : Projection} (hp : p ∈ l.rankedProjections) :
    S.engine.eval (l.rankedRow S db s) (Expr.col p.name l.cte) =
      S.rowValue (l.known S db) s p.expr :=
  S.engine.eval_cteScope l.cte_ne_empty hnames _ hp

/-- The rank of a row. -/
theorem rowValue_cumeDist {s : Scope α} :
    S.rowValue (l.known S db) s (Sql.cumeDist l.keys l.value) =
      .data (S.number (rankOf S.engine l.keys l.value (l.known S db) s)) := by
  have hknown : ∀ s' ∈ l.known S db, S.engine.eval s' l.value ≠ .null := fun s' hs' =>
    of_decide_eq_true (List.mem_filter.mp hs').2
  have hwindow : (Sql.cumeDist l.keys l.value).isWindow = true := rfl
  rw [StandardSql.rowValue, if_pos hwindow, S.cumeDist_eq _ _ _ _ hknown, rankOf]

/-- The ranked rows that are kept. -/
theorem filter_ranked (hnames : Projection.Consistent l.rankedProjections) {q : ℚ}
    (hq : S.numeral l.quantile = some q) :
    (((l.known S db).map (l.rankedRow S db)).filter fun s => S.engine.holds s
      [.node .gte [Expr.col "_cd" l.cte, .number l.quantile]]) =
      (pickedRows S.engine l.keys l.value q (l.rows S db)).map (l.rankedRow S db) := by
  rw [List.filter_map]
  congr 1
  unfold pickedRows known
  apply List.filter_congr
  intro s _
  have hcd : S.engine.eval (l.rankedRow S db s) (Expr.col "_cd" l.cte) =
      .data (S.number (rankOf S.engine l.keys l.value (l.known S db) s)) := by
    have hread := l.eval_rankedRow S db hnames s (p := ⟨Sql.cumeDist l.keys l.value, "_cd"⟩)
      (by simp [rankedProjections])
    rw [hread, l.rowValue_cumeDist S db]
  have hval : (S.engine.eval (l.rankedRow S db s)
      (.node .gte [Expr.col "_cd" l.cte, .number l.quantile])).isTrue =
      decide (q ≤ rankOf S.engine l.keys l.value (l.known S db) s) := by
    rw [S.gte_eq, Value.isTrue_ge3, hcd, S.numeral_eq _ _ _ hq]
    simp only [Value.data_le_data, S.number_strictMono.le_iff_le, ne_eq, reduceCtorEq,
      not_false_eq_true, true_and]
  simp only [Function.comp_apply, Sql.Engine.holds, List.all_cons, List.all_nil, Bool.and_true,
    hval]
  rfl

/-- The rows of the fallback: one for each group of the rows that have a value. -/
theorem evalOver_statement (hnames : Projection.Consistent l.rankedProjections) {q : ℚ}
    (hq : S.numeral l.quantile = some q) (h1 : q ≤ 1) :
    ((l.statement).evalOver S.engine db (fun _ => none)).rows.Perm
      ((S.engine.groupKeys l.keys (l.known S db)).map fun k =>
        k ++ [nearestRank q ((S.engine.groupOf l.keys k (l.rows S db)).map fun s =>
          S.engine.eval s l.value)]) := by
  have hread := fun s => fun (p : Projection) (hp : p ∈ l.rankedProjections) =>
    l.eval_rankedRow S db hnames s hp
  have hkey : ∀ s, S.engine.keyOf (l.dims.map fun p => Expr.col p.name l.cte)
      (l.rankedRow S db s) = S.engine.keyOf l.keys s := by
    intro s
    unfold Sql.Engine.keyOf keys
    rw [List.map_map, List.map_map]
    apply List.map_congr_left
    intro p hp
    rw [Function.comp_apply, hread s p (by simp [rankedProjections, hp]),
      S.rowValue_plain (l.plain p hp)]
    rfl
  have hval : ∀ s, S.engine.eval (l.rankedRow S db s) (Expr.col "_val" l.cte) =
      S.engine.eval s l.value := by
    intro s
    have hv := hread s ⟨l.value, "_val"⟩ (by simp [rankedProjections])
    rw [hv, S.rowValue_plain l.isPlain_value]
  -- the outer query reads the ranked rows that are kept
  have hrows : ((l.statement).evalOver S.engine db (fun _ => none)).rows =
      S.engine.project .none (l.dims.map (fun p => ⟨Expr.col p.name l.cte, p.name⟩) ++
        [⟨.node (.agg .min) [Expr.col "_val" l.cte], l.name⟩])
        (l.dims.map fun p => Expr.col p.name l.cte)
        ((pickedRows S.engine l.keys l.value q (l.rows S db)).map (l.rankedRow S db)) := by
    rw [← l.filter_ranked S db hnames hq]
    simp only [Statement.evalOver, statement, outer, Query.eval, Query.evalItems_cons,
      Query.evalItems_nil, readCte, Query.evalRel_cte, Statement.tables, List.foldl_cons,
      List.foldl_nil, if_true, Option.getD_none, List.flatMap_cons, List.flatMap_nil,
      List.append_nil, l.eval_inner S db]
    rw [S.engine.join_nil (by simp), List.map_map]
    rfl
  rw [hrows]
  have hplain : ∀ p ∈ l.dims.map (fun p => (⟨Expr.col p.name l.cte, p.name⟩ : Projection)),
      p.expr.isPlain = true := by
    intro p hp
    obtain ⟨d, -, rfl⟩ := List.mem_map.mp hp
    exact Expr.isPlain_col _ _
  have hgrouped := @StandardSql.project_grouped _ _ S _
    [⟨.node (.agg .min) [Expr.col "_val" l.cte], l.name⟩] hplain
    (Or.inr ⟨_, List.mem_singleton_self _, by simp [Sql.Op.readsGroup]⟩)
    (fun a ha => by rw [List.mem_singleton.mp ha]; rfl)
    ((pickedRows S.engine l.keys l.value q (l.rows S db)).map (l.rankedRow S db))
  rw [List.map_map] at hgrouped
  refine hgrouped.trans ?_
  have hnil : (l.dims.map fun p => Expr.col p.name l.cte) = [] ↔ l.keys = [] := by
    simp [keys]
  rw [Function.comp_def, S.engine.groupKeys_map hnil fun s _ => hkey s]
  refine ((groupKeys_pickedRows h1 (l.rows S db)).map _).trans (List.Perm.of_eq ?_)
  apply List.map_congr_left
  intro k _
  rw [S.engine.groupOf_map fun s _ => hkey s]
  rw [List.map_singleton, S.min_eq, List.map_map, ← least_pickedRows]
  congr 3
  apply List.map_congr_left
  intro s _
  exact hval s

/-! ### The native aggregate -/

/-- The values of the column in a group. -/
def valuesOf (k : List (Value α)) : List (Value α) :=
  (S.engine.groupOf l.keys k (l.rows S db)).map fun s => S.engine.eval s l.value

/-- The groups of a dialect that has the aggregate: all those of the rows. -/
theorem eval_native {agg : Expr} (hagg : agg.isPlain = false) (hwin : agg.isWindow = false)
    (hparse : recomputeExpr l.inputs.ctx.env (.percentile l.quantile) l.alias_ l.column = .ok agg) :
    ∃ query, buildRecompute l.inputs (.percentile l.quantile) l.alias_ l.column l.name =
        .ok query ∧
      (query.eval S.engine db (fun _ => ⟨[], []⟩)).rows.Perm
        ((S.engine.groupKeys l.keys (l.rows S db)).map fun k =>
          k ++ [S.aggregate agg (S.engine.groupOf l.keys k (l.rows S db))]) := by
  refine ⟨.select .none (l.dims ++ [⟨agg, l.name⟩]) l.from_ l.inputs.conditions l.keys, ?_, ?_⟩
  · simp only [buildRecompute, bind_eq_ok, pure_eq_ok]
    exact ⟨agg, hparse, l.dims, l.dims_eq, l.from_, l.from_eq, rfl⟩
  · rw [Query.eval]
    exact S.project_grouped l.plain (Or.inr ⟨_, List.mem_singleton_self _, hagg⟩)
      (fun a ha => by rw [List.mem_singleton.mp ha]; exact hwin) _

/-- The fallback has the groups of the native aggregate, each with the percentile of its values. -/
def MatchesNative (q : ℚ) : Prop :=
  ∃ percentile : List (Value α) → Value α,
    (l.statement.evalOver S.engine db (fun _ => none)).rows.Perm
      ((S.engine.groupKeys l.keys (l.rows S db)).map fun k => k ++ [percentile k]) ∧
    ∀ k ∈ S.engine.groupKeys l.keys (l.rows S db),
      IsPercentile q (l.valuesOf S db k) (percentile k)

/-- The groups with a value are all groups exactly when every group has one. -/
theorem groupKeys_known_perm_iff :
    (S.engine.groupKeys l.keys (l.known S db)).Perm (S.engine.groupKeys l.keys (l.rows S db)) ↔
      l.dims = [] ∨ ∀ s ∈ l.rows S db, ∃ s' ∈ l.rows S db,
        S.engine.keyOf l.keys s' = S.engine.keyOf l.keys s ∧ S.engine.eval s' l.value ≠ .null := by
  by_cases hk : l.dims = []
  · have hkeys : l.keys = [] := by rw [keys, hk, List.map_nil]
    simp [hk, hkeys, Sql.Engine.groupKeys]
  · have hkeys : l.keys ≠ [] := by simpa [keys] using hk
    rw [List.perm_ext_iff_of_nodup (S.engine.nodup_groupKeys _ _) (S.engine.nodup_groupKeys _ _)]
    simp only [hk, false_or, S.engine.mem_groupKeys hkeys]
    constructor
    · intro h s hs
      obtain ⟨s', hs', hkey⟩ := (h _).mpr ⟨s, hs, rfl⟩
      obtain ⟨hrow, hval⟩ := List.mem_filter.mp hs'
      exact ⟨s', hrow, hkey, of_decide_eq_true hval⟩
    · intro h k
      constructor
      · rintro ⟨s, hs, rfl⟩
        exact ⟨s, (List.mem_filter.mp hs).1, rfl⟩
      · rintro ⟨s, hs, rfl⟩
        obtain ⟨s', hs', hkey, hval⟩ := h s hs
        exact ⟨s', List.mem_filter.mpr ⟨hs', decide_eq_true hval⟩, hkey⟩

/-- **Percentiles by rank.** Where a name says which projection it is, the fallback agrees with the
native aggregate exactly when every group has a value, or there is one group of all rows. -/
theorem matchesNative_iff (hnames : Projection.Consistent l.rankedProjections) {q : ℚ}
    (hq : S.numeral l.quantile = some q) (h1 : q ≤ 1) :
    l.MatchesNative S db q ↔ l.dims = [] ∨ ∀ s ∈ l.rows S db, ∃ s' ∈ l.rows S db,
      S.engine.keyOf l.keys s' = S.engine.keyOf l.keys s ∧ S.engine.eval s' l.value ≠ .null := by
  rw [← l.groupKeys_known_perm_iff S db]
  have hrows := l.evalOver_statement S db hnames hq h1
  constructor
  · rintro ⟨percentile, hperm, hspec⟩
    -- the keys of a row are what stands before its last value
    have hkeys := (hrows.symm.trans hperm).map List.dropLast
    simpa [List.map_map, Function.comp_def] using hkeys
  · intro h
    refine ⟨fun k => nearestRank q (l.valuesOf S db k), hrows.trans (h.map _), ?_⟩
    exact fun k _ => (isPercentile_iff h1).mpr rfl

end PercentileLeaf

/-! ## A region without an amount -/

private def amountTexts : List (String × Expr) :=
  [("amount IS NOT NULL", .node .not [(Expr.bare "amount").isNull])]

private def regionSales : SemanticSource where
  name := "sales"
  connection := "wh"
  table := "sales"
  columns := [⟨"region", .int, true⟩, ⟨"amount", .decimal, true⟩]
  dimensions := [{ name := "region", column := some "region" }]
  dimensions_nodup := List.nodup_singleton "region"

private def salesEnv : Env where
  lib := Lib.ofTexts amountTexts
  dialectName := "sqlite"
  sources := { list := [regionSales] }

/-- The median of the amounts by region. -/
private def medianLeaf : PercentileLeaf where
  inputs := {
    ctx := { env := salesEnv, query := { metrics := ["median"], dimensions := ["region"] },
             resolver := {}, principal := {},
             policy := ⟨["*"], [], ["*"], [], ["*"], false, false, [], []⟩ }
    owner := "sales"
    dimensions := [("sales", { name := "region", column := some "region" })]
    conditions := []
    edges := []
    fanout := false
    tree := []
    mask := [] }
  alias_ := "sales"
  column := "amount"
  quantile := "0.5"
  name := "median"
  dims := [⟨Expr.col "region" "sales", "region"⟩]
  from_ := [⟨.from, .source "sales" "sales", "sales", []⟩]
  dims_eq := rfl
  from_eq := rfl
  notNull_eq := rfl
  plain := fun p hp => by
    rw [List.mem_singleton.mp hp]
    exact Expr.isPlain_col _ _

private def halves (text : String) : Option ℚ := if text = "0.5" then some (1 / 2) else none

/-- An amount in region 1, none in region 2. -/
private def regionTable (_ : String) : Table ℚ :=
  ⟨["region", "amount"], [[.data 1, .data 5], [.data 2, .null]]⟩

/-- Region 2 is lost. -/
theorem matchesNative_counterexample :
    (medianLeaf.statement.evalOver (Sql.reference halves).engine regionTable fun _ => none).rows =
        [[.data 1, .data 5]] ∧
      ¬ medianLeaf.MatchesNative (Sql.reference halves) regionTable (1 / 2) := by
  have hrows : (medianLeaf.statement.evalOver (Sql.reference halves).engine regionTable
      fun _ => none).rows = [[.data 1, .data 5]] := by decide +kernel
  refine ⟨hrows, ?_⟩
  rintro ⟨percentile, hperm, -⟩
  have hlen := hperm.length_eq
  rw [hrows, List.length_map] at hlen
  have hgroups : ((Sql.reference halves).engine.groupKeys medianLeaf.keys
      (medianLeaf.rows (Sql.reference halves) regionTable)).length = 2 := by decide
  rw [hgroups] at hlen
  simp at hlen

/-- Amounts in both regions, one of them unknown. -/
private def pricedTable (_ : String) : Table ℚ :=
  ⟨["region", "amount"], [[.data 1, .data 5], [.data 1, .data 7], [.data 2, .null],
    [.data 2, .data 3]]⟩

theorem matchesNative_regions :
    medianLeaf.MatchesNative (Sql.reference halves) pricedTable (1 / 2) :=
  (medianLeaf.matchesNative_iff (Sql.reference halves) pricedTable
    (by unfold Projection.Consistent; decide +kernel) rfl (by norm_num)).mpr
    (Or.inr (by decide +kernel))

end Canonic
