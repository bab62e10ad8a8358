import Mathlib
import Canonic.Sql.Eval
import Canonic.Compiler.Pipeline

set_option autoImplicit false

/-! # The composition law

`compose` joins the leaves onto a spine, the union of their dimension tuples. The leaves are taken
here as arbitrary relations with at most one row for a dimension tuple (and `is_final`), and the
composed statement is evaluated over them: its joined rows are to be one for each key of the spine,
and every leaf row is to be carried by exactly one of them (`OneRowPerKey`).

A leaf without a finality rule stands in the spine as final, but it is joined on the dimensions
alone. So its rows are carried a second time by the provisional row of another leaf, and the law
holds exactly where the leaves do not overlap in this way (`Aligned`). -/

namespace Canonic

open Sql (Expr Query FromItem Projection Statement Value Table Bound Scope Engine)

variable {α : Type}

/-! ## Keys -/

/-- The identity of a row: the values of the dimensions, and whether it is final. -/
abbrev RowKey (α : Type) := List (Value α) × Value α

/-- The key of a leaf row. Rows of a leaf without a finality rule are final by definition. -/
def rowKey (dims : List String) (p : Physical) (t : Table α) (r : List (Value α)) : RowKey α :=
  (dims.map (t.value r), if p.projectsIsFinal then t.value r isFinalName else .bool true)

/-- A relation a leaf may compute: one row for each key at most, and the marker of a finality leaf
a truth value in a column of its own. -/
structure IsLeafTable (dims : List String) (p : Physical) (t : Table α) : Prop where
  unique : (t.rows.map (rowKey dims p t)).Nodup
  marked : p.projectsIsFinal = true → dims ≠ [] ∧ isFinalName ∉ dims ∧
    ∀ r ∈ t.rows, ∃ b, t.value r isFinalName = .bool b

/-- Leaf rows with the same key are the same row. -/
theorem IsLeafTable.eq_of_rowKey {dims : List String} {p : Physical} {t : Table α}
    (h : IsLeafTable dims p t) {r r' : List (Value α)} (hr : r ∈ t.rows) (hr' : r' ∈ t.rows)
    (heq : rowKey dims p t r = rowKey dims p t r') : r = r' :=
  List.inj_on_of_nodup_map h.unique hr hr' heq

theorem rowKey_nil {p : Physical} {t : Table α} (h : IsLeafTable [] p t) (r : List (Value α)) :
    rowKey [] p t r = ([], .bool true) := by
  have hp : p.projectsIsFinal = false := by
    by_contra hp
    exact (h.marked (by simpa using hp)).1 rfl
  simp [rowKey, hp]

/-- The keys of all leaves. -/
def Named.keys (n : Named) (rel : String → Table α) : List (RowKey α) :=
  n.leaves.flatMap fun x => (rel x.1).rows.map (rowKey n.dims x.2 (rel x.1))

/-- The key of a joined row, read from the relation the dimensions of the result come from. -/
def scopeKey (n : Named) (src : String) (s : Scope α) : RowKey α :=
  (n.dims.map (s.value src), if n.withIsFinal then s.value src isFinalName else .bool true)

/-- Every joined row carries, from each leaf, the row of its own key and no other. -/
def CarriesOwn (n : Named) (rel : String → Table α) (src : String) (s : Scope α) : Prop :=
  ∀ x ∈ n.leaves, ∃ o, s.lookup x.1 = some ⟨(rel x.1).columns, o⟩ ∧
    ∀ r, o = some r ↔ r ∈ (rel x.1).rows ∧ rowKey n.dims x.2 (rel x.1) r = scopeKey n src s

/-! ## Leaves in scope -/

theorem lookup_cons_ne {a b : String} (h : a ≠ b) (x : Bound α) (s : Scope α) :
    List.lookup a ((b, x) :: s) = s.lookup a := by
  rw [List.lookup_cons, beq_eq_false_iff_ne.mpr h]

/-- A scope extended by several leaves, each bound to the row picked for it. -/
def attach (rel : String → Table α) (pick : String × Physical → Option (List (Value α)))
    (xs : List (String × Physical)) (s : Scope α) : Scope α :=
  xs.foldl (fun s x => (x.1, ⟨(rel x.1).columns, pick x⟩) :: s) s

theorem lookup_attach_ne {rel : String → Table α} {a : String}
    {pick : String × Physical → Option (List (Value α))}
    {xs : List (String × Physical)} (h : a ∉ xs.map (·.1)) (s : Scope α) :
    (attach rel pick xs s).lookup a = s.lookup a := by
  induction xs generalizing s with
  | nil => rfl
  | cons x xs ih =>
      simp only [List.map_cons, List.mem_cons, not_or] at h
      rw [attach, List.foldl_cons]
      exact (ih h.2 _).trans (lookup_cons_ne h.1 _ _)

theorem lookup_attach {rel : String → Table α}
    {pick : String × Physical → Option (List (Value α))}
    {xs : List (String × Physical)} (hn : (xs.map (·.1)).Nodup) {x : String × Physical}
    (hx : x ∈ xs) (s : Scope α) :
    (attach rel pick xs s).lookup x.1 = some ⟨(rel x.1).columns, pick x⟩ := by
  induction xs generalizing s with
  | nil => simp at hx
  | cons y ys ih =>
      rw [List.map_cons, List.nodup_cons] at hn
      rw [attach, List.foldl_cons]
      rcases List.mem_cons.mp hx with rfl | hx
      · refine (lookup_attach_ne hn.1 _).trans ?_
        simp
      · exact ih hn.2 hx _

/-! ## The law -/

variable [DecidableEq α]

/-- What the joined rows of a composed statement are to be. -/
structure OneRowPerKey (n : Named) (rel : String → Table α) (src : String)
    (joined : List (Scope α)) : Prop where
  /-- No key has two rows, and the keys are those of the leaves. -/
  nodup : (joined.map (scopeKey n src)).Nodup
  keys : ∀ k, k ∈ joined.map (scopeKey n src) ↔ k ∈ n.keys rel
  /-- Every leaf row is carried by exactly one joined row. -/
  once : ∀ x ∈ n.leaves, ∀ r ∈ (rel x.1).rows,
    (joined.filter fun s => s.rowOf x.1 = some r).length = 1
  /-- Where a leaf has no row for a key, its columns are `NULL`. -/
  missing : ∀ x ∈ n.leaves, ∀ s ∈ joined,
    (∀ r ∈ (rel x.1).rows, rowKey n.dims x.2 (rel x.1) r ≠ scopeKey n src s) →
      ∀ c, s.value x.1 c = .null
  /-- The sum of a column over the result is its sum over the leaf. -/
  sums : ∀ x ∈ n.leaves, ∀ (M : Type) [AddCommMonoid M] (amount : Value α → M),
    amount .null = 0 → ∀ c, (joined.map fun s => amount (s.value x.1 c)).sum =
      ((rel x.1).rows.map fun r => amount ((rel x.1).value r c)).sum

/-! ## Rows that carry their own key -/

theorem sum_filterMap {β γ M : Type} [AddCommMonoid M] (f : β → Option γ) (g : γ → M)
    (l : List β) : ((l.filterMap f).map g).sum = (l.map fun b => ((f b).map g).getD 0).sum := by
  induction l with
  | nil => rfl
  | cons b l ih =>
      cases hb : f b with
      | none => simp [hb, ih]
      | some c => simp [hb, ih]

section
variable {n : Named} {rel : String → Table α} {src : String} {joined : List (Scope α)}

/-- The law from what each joined row carries. -/
theorem oneRowPerKey_of_carries
    (hrel : ∀ x ∈ n.leaves, IsLeafTable n.dims x.2 (rel x.1))
    (hnodup : (joined.map (scopeKey n src)).Nodup)
    (hkeys : ∀ k, k ∈ joined.map (scopeKey n src) ↔ k ∈ n.keys rel)
    (hcarry : ∀ s ∈ joined, CarriesOwn n rel src s) : OneRowPerKey n rel src joined := by
  -- a scope carries the row of a leaf exactly when their keys agree
  have hrow {x : String × Physical} (hx : x ∈ n.leaves) {s : Scope α} (hs : s ∈ joined)
      (r : List (Value α)) : s.rowOf x.1 = some r ↔
        r ∈ (rel x.1).rows ∧ rowKey n.dims x.2 (rel x.1) r = scopeKey n src s := by
    obtain ⟨o, ho, hiff⟩ := hcarry s hs x hx
    rw [Scope.rowOf_eq ho]
    exact hiff r
  refine ⟨hnodup, hkeys, fun x hx r hr => ?_, fun x hx s hs hno c => ?_,
    fun x hx M _ amount hnull c => ?_⟩
  -- the key of a row is that of one joined scope, by the count in the list of keys
  · have hkey : rowKey n.dims x.2 (rel x.1) r ∈ joined.map (scopeKey n src) :=
      (hkeys _).mpr (List.mem_flatMap.mpr ⟨x, hx, List.mem_map_of_mem hr⟩)
    have hcount := List.count_eq_one_of_mem hnodup hkey
    rw [List.count_eq_countP, List.countP_map, List.countP_eq_length_filter] at hcount
    rw [← hcount]
    congr 1
    refine List.filter_congr fun s hs => ?_
    rw [Bool.eq_iff_iff, decide_eq_true_iff, hrow hx hs]
    simp only [Function.comp_apply, beq_iff_eq, hr, true_and]
    exact eq_comm
  · refine Scope.value_of_rowOf_none (Option.eq_none_iff_forall_not_mem.mpr fun r hr => ?_) c
    obtain ⟨hmem, hkey⟩ := (hrow hx hs r).mp hr
    exact hno r hmem hkey
  · -- the rows carried are the rows of the leaf, in another order
    have hperm : (joined.filterMap fun s => s.rowOf x.1).Perm (rel x.1).rows := by
      refine (List.perm_ext_iff_of_nodup ?_ (List.Nodup.of_map _ (hrel x hx).unique)).mpr ?_
      · refine List.pairwise_filterMap.mpr ?_
        rw [List.Nodup, List.pairwise_map] at hnodup
        refine hnodup.imp_of_mem fun {s s'} hs hs' hne r hr r' hr' heq => hne ?_
        rw [← ((hrow hx hs r).mp hr).2, ← ((hrow hx hs' r').mp hr').2, heq]
      · intro r
        rw [List.mem_filterMap]
        constructor
        · rintro ⟨s, hs, hr⟩
          exact ((hrow hx hs r).mp hr).1
        · intro hr
          obtain ⟨s, hs, hkey⟩ := List.mem_map.mp ((hkeys (rowKey n.dims x.2 (rel x.1) r)).mpr
            (List.mem_flatMap.mpr ⟨x, hx, List.mem_map_of_mem hr⟩))
          exact ⟨s, hs, (hrow hx hs r).mpr ⟨hr, hkey.symm⟩⟩
    rw [← (hperm.map fun r => amount ((rel x.1).value r c)).sum_eq, sum_filterMap]
    congr 1
    refine List.map_congr_left fun s hs => ?_
    obtain ⟨o, ho, -⟩ := hcarry s hs x hx
    rw [Scope.rowOf_eq ho]
    cases o with
    | none => simp [Scope.value, ho, Bound.value, hnull]
    | some r => simp [Scope.value, ho, Bound.value, Table.value]

/-- What is known of the names of a composed statement. -/
structure Named.Ok (n : Named) : Prop where
  names : (n.leaves.map (·.1)).Nodup
  grain : grainName ∉ n.leaves.map (·.1)
  named : "" ∉ n.leaves.map (·.1)
  marker : n.withIsFinal = n.leaves.any fun x => x.2.projectsIsFinal

variable (E : Engine α) (db : String → Table α) {ctes : String → Table α}

/-- The joined rows of the outer `SELECT`. -/
def Named.joinedRows (n : Named) (ctes : String → Table α) (single : Bool) : List (Scope α) :=
  Query.evalItems E db ctes (outerFrom n single) [[]]

/-! ## One leaf -/

/-- A single leaf is read as it is. -/
theorem joined_single {x : String × Physical} (hn : n.leaves = [x]) (hctes : ctes x.1 = rel x.1) :
    n.joinedRows E db ctes true =
      (rel x.1).rows.map fun r => [(x.1, ⟨(rel x.1).columns, some r⟩)] := by
  simp [Named.joinedRows, outerFrom, hn, readCte, Engine.join_nil, hctes]

theorem oneRowPerKey_single {x : String × Physical} (hok : n.Ok) (hn : n.leaves = [x])
    (hrel : ∀ x ∈ n.leaves, IsLeafTable n.dims x.2 (rel x.1)) : OneRowPerKey n rel x.1
      ((rel x.1).rows.map fun r => [(x.1, ⟨(rel x.1).columns, some r⟩)]) := by
  have hleaf := hrel x (by simp [hn])
  have hkey (r : List (Value α)) : scopeKey n x.1 [(x.1, ⟨(rel x.1).columns, some r⟩)] =
      rowKey n.dims x.2 (rel x.1) r := by
    have hm : n.withIsFinal = x.2.projectsIsFinal := by simp [hok.marker, hn]
    simp only [scopeKey, rowKey, hm, Scope.value_cons_self, Prod.mk.injEq, and_true]
    exact List.map_congr_left fun d _ => Scope.value_cons_self _ _ _ _ _
  have hmap : (((rel x.1).rows.map fun r => ([(x.1, ⟨(rel x.1).columns, some r⟩)] : Scope α)).map
      (scopeKey n x.1)) = (rel x.1).rows.map (rowKey n.dims x.2 (rel x.1)) := by
    rw [List.map_map]
    exact List.map_congr_left fun r _ => hkey r
  refine oneRowPerKey_of_carries hrel (hmap ▸ hleaf.unique) (fun k => ?_) fun s hs y hy => ?_
  · rw [hmap]
    simp [Named.keys, hn]
  · obtain ⟨r, hr, rfl⟩ := List.mem_map.mp hs
    obtain rfl : y = x := by simpa [hn] using hy
    refine ⟨some r, by simp, fun r' => ?_⟩
    rw [hkey]
    constructor
    · intro h
      obtain rfl := Option.some.inj h
      exact ⟨hr, rfl⟩
    · rintro ⟨hr', heq⟩
      rw [hleaf.eq_of_rowKey hr' hr heq]

/-! ## No dimensions -/

/-- A `FROM` clause over named relations without conditions. -/
def SideBySide (xs : List (String × Physical)) (items : List (FromItem Query)) : Prop :=
  List.Forall₂ (fun x i => i.kind ≠ .left ∧ i.rel = .cte x.1 ∧ i.alias_ = x.1 ∧ i.on = []) xs items

theorem evalItems_nil_scopes (items : List (FromItem Query)) :
    Query.evalItems E db ctes items [] = [] := by
  induction items with
  | nil => simp
  | cons i is ih => simpa using ih

/-- One empty relation empties the product. -/
theorem evalItems_of_empty {xs : List (String × Physical)} {items : List (FromItem Query)}
    (h : SideBySide xs items) {x : String × Physical} (hx : x ∈ xs) (hempty : (ctes x.1).rows = [])
    (ss : List (Scope α)) : Query.evalItems E db ctes items ss = [] := by
  induction h generalizing ss with
  | nil => simp at hx
  | @cons y i ys is hi _ ih =>
      rw [Query.evalItems_cons]
      rcases List.mem_cons.mp hx with rfl | hx
      · have hjoin :
            ss.flatMap (E.join i.kind i.alias_ i.on (Query.evalRel E db ctes i.rel)) = [] := by
          simp [hi.2.1, hi.2.2.2, E.join_nil hi.1, hempty]
        rw [hjoin, evalItems_nil_scopes]
      · exact ih hx _

/-- Relations of one row each make one row. -/
theorem evalItems_of_one {xs : List (String × Physical)} {items : List (FromItem Query)}
    (h : SideBySide xs items) (hctes : ∀ x ∈ xs, ctes x.1 = rel x.1)
    (hone : ∀ x ∈ xs, (rel x.1).rows.length = 1) (s : Scope α) :
    Query.evalItems E db ctes items [s] = [attach rel (fun x => (rel x.1).rows.head?) xs s] := by
  induction h generalizing s with
  | nil => simp [attach]
  | @cons y i ys is hi _ ih =>
      obtain ⟨r, hr⟩ := List.length_eq_one_iff.mp (hone y (by simp))
      have hjoin : [s].flatMap (E.join i.kind i.alias_ i.on (Query.evalRel E db ctes i.rel)) =
          [(y.1, ⟨(rel y.1).columns, some r⟩) :: s] := by
        simp [hi.2.1, hi.2.2.1, hi.2.2.2, E.join_nil hi.1, hctes y (by simp), hr]
      rw [Query.evalItems_cons, hjoin, ih (fun x hx => hctes x (by simp [hx]))
        fun x hx => hone x (by simp [hx])]
      simp [attach, hr]

/-- Without dimensions the leaves stand side by side. -/
theorem outerFrom_sideBySide (hdims : n.dims = []) : SideBySide n.leaves (outerFrom n false) := by
  have cross (ps : List (String × Physical)) :
      SideBySide ps (ps.map fun q => readCte .cross q.1 []) := by
    induction ps with
    | nil => exact .nil
    | cons p ps ih => exact .cons ⟨by simp [readCte], rfl, rfl, rfl⟩ ih
  unfold outerFrom
  cases n.leaves with
  | nil => exact .nil
  | cons p ps =>
      simp only [hdims, List.isEmpty_nil, Bool.false_eq_true, ↓reduceIte]
      exact .cons ⟨by simp [readCte], rfl, rfl, rfl⟩ (cross ps)

/-- The leaves have a row each, or none has one. -/
def SameCount (n : Named) (rel : String → Table α) : Prop :=
  (∀ x ∈ n.leaves, (rel x.1).rows = []) ∨ ∀ x ∈ n.leaves, (rel x.1).rows ≠ []

/-- **Without dimensions**, the law holds exactly when the leaves have the same number of rows. -/
theorem oneRowPerKey_cross (hok : n.Ok) (hne : n.leaves ≠ []) (hdims : n.dims = [])
    (hrel : ∀ x ∈ n.leaves, IsLeafTable n.dims x.2 (rel x.1))
    (hctes : ∀ x ∈ n.leaves, ctes x.1 = rel x.1) :
    OneRowPerKey n rel grainName (n.joinedRows E db ctes false) ↔ SameCount n rel := by
  have hside := outerFrom_sideBySide hdims
  rw [hdims] at hrel
  have hkey : ∀ k, k ∈ n.keys rel ↔ k = ([], .bool true) ∧ ∃ x ∈ n.leaves, (rel x.1).rows ≠ [] := by
    intro k
    simp only [Named.keys, hdims, List.mem_flatMap, List.mem_map]
    constructor
    · rintro ⟨x, hx, r, hr, rfl⟩
      exact ⟨rowKey_nil (hrel x hx) r, x, hx, List.ne_nil_of_mem hr⟩
    · rintro ⟨rfl, x, hx, hrows⟩
      obtain ⟨r, hr⟩ := List.exists_mem_of_ne_nil _ hrows
      exact ⟨x, hx, r, hr, rowKey_nil (hrel x hx) r⟩
  constructor
  · intro h
    by_contra hcount
    simp only [SameCount, not_or, not_forall] at hcount
    obtain ⟨⟨x, hx, hrows⟩, y, hy, hempty⟩ := hcount
    have hjoined : n.joinedRows E db ctes false = [] :=
      evalItems_of_empty E db hside hy (by rw [hctes y hy]; exact not_not.mp hempty) _
    have := (h.keys ([], .bool true)).mpr ((hkey _).mpr ⟨rfl, x, hx, hrows⟩)
    simp [hjoined] at this
  · rintro (hempty | hrows)
    · obtain ⟨x, hx⟩ := List.exists_mem_of_ne_nil _ hne
      have hjoined : n.joinedRows E db ctes false = [] :=
        evalItems_of_empty E db hside hx (by rw [hctes x hx]; exact hempty x hx) _
      rw [hjoined]
      refine oneRowPerKey_of_carries (hdims ▸ hrel) (by simp) (fun k => ?_) (by simp)
      simpa [hkey k] using fun _ x hx => hempty x hx
    · have hone : ∀ x ∈ n.leaves, (rel x.1).rows.length = 1 := by
        intro x hx
        -- all rows have the same key
        have hpair := (hrel x hx).unique
        cases hr : (rel x.1).rows with
        | nil => exact absurd hr (hrows x hx)
        | cons r rs =>
            cases rs with
            | nil => rfl
            | cons r' rs => simp [hr, rowKey_nil (hrel x hx)] at hpair
      have hfinal : n.withIsFinal = false := by
        rw [hok.marker, List.any_eq_false]
        intro x hx hp
        exact ((hrel x hx).marked hp).1 rfl
      have hjoined : n.joinedRows E db ctes false =
          [attach rel (fun x => (rel x.1).rows.head?) n.leaves []] :=
        evalItems_of_one E db hside hctes hone []
      rw [hjoined]
      have hscope (s : Scope α) : scopeKey n grainName s = ([], .bool true) := by
        simp [scopeKey, hdims, hfinal]
      refine oneRowPerKey_of_carries (hdims ▸ hrel) (by simp) (fun k => ?_) fun s hs x hx => ?_
      · obtain ⟨x, hx⟩ := List.exists_mem_of_ne_nil _ hne
        simp only [List.map_cons, List.map_nil, List.mem_singleton, hscope, hkey k]
        exact ⟨fun h => ⟨h, x, hx, hrows x hx⟩, fun h => h.1⟩
      · obtain rfl := List.mem_singleton.mp hs
        refine ⟨_, lookup_attach hok.names hx [], fun r => ?_⟩
        obtain ⟨r0, hr0⟩ := List.length_eq_one_iff.mp (hone x hx)
        rw [hscope, hdims, rowKey_nil (hrel x hx), hr0]
        simp [eq_comm]

/-! ## The spine -/

/-- A key as a row of the spine. -/
def spineRow (n : Named) (k : RowKey α) : List (Value α) :=
  k.1 ++ if n.withIsFinal then [k.2] else []

/-- The columns of the spine. -/
def spineColumns (n : Named) : List String :=
  n.dims ++ if n.withIsFinal then [isFinalName] else []

theorem readDims_plain (table : String) (names : List String) :
    ∀ p ∈ readDims table names, p.expr.isPlain = true := by
  intro p hp
  obtain ⟨d, -, rfl⟩ := List.mem_map.mp hp
  simp

theorem eval_col (s : Scope α) {table : String} (ht : table ≠ "") (name : String) :
    E.eval s (Expr.col name table) = s.value table name := by
  simp [Expr.col, Engine.eval, Engine.column, ht]

/-- A branch of the spine lists the keys of its leaf. -/
theorem spineBranch_eval {x : String × Physical} (hname : x.1 ≠ "") (hctes : ctes x.1 = rel x.1) :
    (spineBranch n.dims n.withIsFinal x.1 x.2).eval E db ctes = ⟨spineColumns n,
      (rel x.1).rows.map fun r => spineRow n (rowKey n.dims x.2 (rel x.1) r)⟩ := by
  have hplain : ∀ p ∈ readDims x.1 n.dims ++ (if n.withIsFinal then
      [(⟨if x.2.projectsIsFinal then Expr.col isFinalName x.1 else .node (.bool true) [],
        isFinalName⟩ : Projection)] else []), p.expr.isPlain = true := by
    intro p hp
    rcases List.mem_append.mp hp with hp | hp
    · exact readDims_plain _ _ p hp
    · split at hp
      · obtain rfl := List.mem_singleton.mp hp
        split <;> simp [Sql.Op.readsGroup]
      · simp at hp
  have hnil (s : Scope α) : E.holds s [] = true := rfl
  unfold spineBranch
  simp only [Query.eval, E.project_plain hplain, Query.evalItems_cons, Query.evalItems_nil, readCte,
    Query.evalRel_cte, hctes, hnil, List.filter_true, List.flatMap_cons, List.flatMap_nil,
    List.append_nil, E.join_nil (show Sql.JoinKind.from ≠ .left by simp), List.map_map]
  congr 1
  · simp only [readDims, spineColumns, List.map_append, List.map_map, Function.comp_def,
      List.map_id']
    split <;> rfl
  · refine List.map_congr_left fun r _ => ?_
    simp only [Function.comp_apply, spineRow, rowKey, readDims, List.map_append, List.map_map]
    congr 1
    · refine List.map_congr_left fun d _ => ?_
      simp only [Function.comp_apply]
      rw [eval_col E _ hname, Scope.value_cons_self]
    · split
      · split
        · simp only [List.map_cons, List.map_nil]
          rw [eval_col E _ hname, Scope.value_cons_self]
        · simp [Engine.eval]
      · rfl

/-- The spine as a table. -/
def spineTable (n : Named) (ctes : String → Table α) : Table α :=
  (buildSpine n.dims n.withIsFinal n.leaves []).eval E db ctes

omit [DecidableEq α] in
theorem Named.Ok.ne {a : String} (hok : n.Ok) {x : String × Physical} (hx : x ∈ n.leaves)
    (ha : a = grainName ∨ a = "") : x.1 ≠ a := by
  have hmem : x.1 ∈ n.leaves.map (·.1) := List.mem_map_of_mem hx
  rintro rfl
  rcases ha with ha | ha
  · exact hok.grain (ha ▸ hmem)
  · exact hok.named (ha ▸ hmem)

/-- The rows of the spine are the keys of the leaves, each of them once. -/
theorem spineTable_spec (hok : n.Ok) (hctes : ∀ x ∈ n.leaves, ctes x.1 = rel x.1)
    (htwo : 2 ≤ n.leaves.length) : (spineTable E db n ctes).columns = spineColumns n ∧
      (spineTable E db n ctes).rows.Nodup ∧
        ∀ k, k ∈ (spineTable E db n ctes).rows ↔ ∃ κ ∈ n.keys rel, spineRow n κ = k := by
  have hbranch (x : String × Physical) (hx : x ∈ n.leaves) :
      (spineBranch n.dims n.withIsFinal x.1 x.2).eval E db ctes = ⟨spineColumns n,
        (rel x.1).rows.map fun r => spineRow n (rowKey n.dims x.2 (rel x.1) r)⟩ :=
    spineBranch_eval E db (hok.ne hx (.inr rfl)) (hctes x hx)
  unfold spineTable buildSpine
  simp only [List.map_nil, List.append_nil]
  obtain ⟨x, y, rest, hleaves⟩ : ∃ x y rest, n.leaves = x :: y :: rest := by
    match hl : n.leaves with
    | [] => simp [hl] at htwo
    | [x] => simp [hl] at htwo
    | x :: y :: rest => exact ⟨x, y, rest, rfl⟩
  have hmem (k : List (Value α)) : (∃ κ ∈ n.keys rel, spineRow n κ = k) ↔
      ∃ x ∈ n.leaves, k ∈ ((spineBranch n.dims n.withIsFinal x.1 x.2).eval E db ctes).rows := by
    simp only [Named.keys, List.mem_flatMap, List.mem_map]
    constructor
    · rintro ⟨κ, ⟨x, hx, r, hr, rfl⟩, rfl⟩
      exact ⟨x, hx, by rw [hbranch x hx]; exact List.mem_map.mpr ⟨r, hr, rfl⟩⟩
    · rintro ⟨x, hx, hk⟩
      rw [hbranch x hx] at hk
      obtain ⟨r, hr, rfl⟩ := List.mem_map.mp hk
      exact ⟨_, ⟨x, hx, r, hr, rfl⟩, rfl⟩
  simp only [hmem, hleaves, List.map_cons, unionDistinct]
  refine ⟨?_, Query.nodup_unionAll E db, fun k => ?_⟩
  · rw [Query.columns_unionAll, hbranch x (by simp [hleaves])]
  · rw [Query.mem_unionAll]
    simp

/-! ## Leaves joined onto the spine -/

/-- A leaf row meets the join condition of its leaf at a key: the dimensions agree, and for a
finality leaf the marker does. -/
def Matches (n : Named) (rel : String → Table α) (κ : RowKey α) (x : String × Physical)
    (r : List (Value α)) : Prop :=
  n.dims.map ((rel x.1).value r) = κ.1 ∧
    (x.2.projectsIsFinal = true → (rel x.1).value r isFinalName = κ.2)

instance (κ : RowKey α) (x : String × Physical) : DecidablePred (Matches n rel κ x) :=
  fun _ => inferInstanceAs (Decidable (_ ∧ _))

/-- The row of a leaf that a key is joined with. -/
def picked (n : Named) (rel : String → Table α) (κ : RowKey α) (x : String × Physical) :
    Option (List (Value α)) := (rel x.1).rows.find? fun r => Matches n rel κ x r

theorem isTrue_nullSafeEq (s : Scope α) {a b : String} (ha : a ≠ "") (hb : b ≠ "") (c : String) :
    (E.eval s (nullSafeEq (Expr.col c a) (Expr.col c b))).isTrue =
      decide (s.value a c = s.value b c) := by
  simp only [nullSafeEq, Expr.mkEq, Expr.mkAnd, Expr.isNull, Engine.eval, eval_col E s ha,
    eval_col E s hb, Value.isTrue_or3, Value.isTrue_eq3, Value.isTrue_and3, Value.isTrue_bool]
  rw [Bool.eq_iff_iff]
  simp only [Bool.or_eq_true, Bool.and_eq_true, decide_eq_true_eq]
  constructor
  · rintro (⟨-, h⟩ | ⟨h, h'⟩)
    · exact h
    · rw [h, h']
  · intro h
    by_cases hnull : s.value a c = .null
    · exact .inr ⟨hnull, h ▸ hnull⟩
    · exact .inl ⟨hnull, h⟩

/-- The join condition of a leaf, over a scope that holds a row of the spine. -/
theorem holds_joinLeaf (hok : n.Ok) (hrel : ∀ x ∈ n.leaves, IsLeafTable n.dims x.2 (rel x.1))
    {x : String × Physical} (hx : x ∈ n.leaves) {r : List (Value α)} (hr : r ∈ (rel x.1).rows)
    (s : Scope α) :
    E.holds ((x.1, ⟨(rel x.1).columns, some r⟩) :: s) (joinLeaf n.dims x).on =
      decide (Matches n rel (scopeKey n grainName s) x r) := by
  have hname := hok.ne hx (.inr rfl)
  have hgrain : grainName ≠ x.1 := (hok.ne hx (.inl rfl)).symm
  have hdims : ((nullSafeJoinOn grainName x.1 n.dims).all fun e =>
      (E.eval ((x.1, ⟨(rel x.1).columns, some r⟩) :: s) e).isTrue) =
        decide (n.dims.map ((rel x.1).value r) = n.dims.map (s.value grainName)) := by
    rw [nullSafeJoinOn, List.all_map, Bool.eq_iff_iff, List.all_eq_true, decide_eq_true_eq,
      List.map_inj_left]
    refine forall₂_congr fun d _ => ?_
    simp only [Function.comp_apply]
    rw [isTrue_nullSafeEq E _ (by simp [grainName]) hname, decide_eq_true_eq,
      Scope.value_cons_ne hgrain, Scope.value_cons_self]
    exact eq_comm
  have hmarker (hp : x.2.projectsIsFinal = true) : (E.eval
      ((x.1, ⟨(rel x.1).columns, some r⟩) :: s)
        (.mkEq (Expr.col isFinalName grainName) (Expr.col isFinalName x.1))).isTrue =
          decide ((rel x.1).value r isFinalName = (scopeKey n grainName s).2) := by
    have hw : n.withIsFinal = true := by
      rw [hok.marker, List.any_eq_true]
      exact ⟨x, hx, hp⟩
    obtain ⟨b, hb⟩ := ((hrel x hx).marked hp).2.2 r hr
    simp only [Expr.mkEq, Engine.eval, eval_col E _ hname,
      eval_col E _ (show grainName ≠ "" by simp [grainName]), Scope.value_cons_ne hgrain,
      Scope.value_cons_self, Value.isTrue_eq3, scopeKey, hw, if_true]
    rw [Bool.eq_iff_iff, decide_eq_true_eq, decide_eq_true_eq, hb]
    exact ⟨fun h => h.2.symm, fun h => ⟨by simp [← h], h.symm⟩⟩
  rw [Engine.holds, joinLeaf, readCte, List.all_append, hdims, Bool.eq_iff_iff]
  by_cases hp : x.2.projectsIsFinal = true
  · simp only [hp, if_true, List.all_cons, List.all_nil, Bool.and_true, hmarker hp,
      Bool.and_eq_true,
      decide_eq_true_eq, Matches, true_implies]
    rfl
  · simp only [hp, Bool.false_eq_true, if_false, List.all_nil, Bool.and_true, decide_eq_true_eq,
      Matches, false_implies, and_true]
    rfl

omit [DecidableEq α] in
/-- Rows of one leaf that match the same key are the same row. -/
theorem Matches.eq (hrel : ∀ x ∈ n.leaves, IsLeafTable n.dims x.2 (rel x.1))
    {x : String × Physical} (hx : x ∈ n.leaves) {κ : RowKey α} {r r' : List (Value α)}
    (hr : r ∈ (rel x.1).rows) (hr' : r' ∈ (rel x.1).rows) (h : Matches n rel κ x r)
    (h' : Matches n rel κ x r') : r = r' := by
  refine (hrel x hx).eq_of_rowKey hr hr' ?_
  unfold rowKey
  by_cases hp : x.2.projectsIsFinal = true
  · simp [hp, h.1, h'.1, h.2 hp, h'.2 hp]
  · simp [hp, h.1, h'.1]

theorem picked_eq_some (hrel : ∀ x ∈ n.leaves, IsLeafTable n.dims x.2 (rel x.1))
    {x : String × Physical} (hx : x ∈ n.leaves) {κ : RowKey α} {r : List (Value α)} :
    picked n rel κ x = some r ↔ r ∈ (rel x.1).rows ∧ Matches n rel κ x r := by
  constructor
  · intro h
    exact ⟨List.mem_of_find?_eq_some h, by simpa using List.find?_some h⟩
  · rintro ⟨hr, hm⟩
    obtain ⟨r', hr'⟩ := Option.isSome_iff_exists.mp
      (List.find?_isSome (p := fun r => decide (Matches n rel κ x r)) |>.mpr
        ⟨r, hr, by simpa using hm⟩)
    have hmem := List.mem_of_find?_eq_some hr'
    have hm' : Matches n rel κ x r' := by simpa using List.find?_some hr'
    rw [picked, hr', Matches.eq hrel hx hmem hr hm' hm]

/-- One leaf joined: every row of the left side is kept once. -/
theorem join_joinLeaf (hok : n.Ok) (hrel : ∀ x ∈ n.leaves, IsLeafTable n.dims x.2 (rel x.1))
    {x : String × Physical} (hx : x ∈ n.leaves) (s : Scope α) :
    E.join .left x.1 (joinLeaf n.dims x).on (rel x.1) s =
      [(x.1, ⟨(rel x.1).columns, picked n rel (scopeKey n grainName s) x⟩) :: s] := by
  have hfilter : (rel x.1).rows.filter (fun r => E.holds ((x.1, ⟨(rel x.1).columns, some r⟩) :: s)
      (joinLeaf n.dims x).on) = (rel x.1).rows.filter
        fun r => Matches n rel (scopeKey n grainName s) x r :=
    List.filter_congr fun r hr => holds_joinLeaf E hok hrel hx hr s
  rw [E.join_left_of_unique]
  · rw [← List.head?_filter, hfilter, List.head?_filter]
    rfl
  · rw [hfilter]
    have hnodup := (List.Nodup.of_map _ (hrel x hx).unique).filter
      fun r => decide (Matches n rel (scopeKey n grainName s) x r)
    match hl : (rel x.1).rows.filter fun r => Matches n rel (scopeKey n grainName s) x r with
    | [] => simp
    | [_] => simp
    | r :: r' :: rest =>
        have hr : r ∈ (rel x.1).rows.filter fun r =>
            Matches n rel (scopeKey n grainName s) x r := by
          simp [hl]
        have hr' : r' ∈ (rel x.1).rows.filter
            fun r => Matches n rel (scopeKey n grainName s) x r := by simp [hl]
        rw [List.mem_filter, decide_eq_true_eq] at hr hr'
        obtain rfl := Matches.eq hrel hx hr.1 hr'.1 hr.2 hr'.2
        simp [hl] at hnodup

/-- All leaves joined, one after the other. -/
theorem evalItems_joinLeaf (hok : n.Ok)
    (hrel : ∀ x ∈ n.leaves, IsLeafTable n.dims x.2 (rel x.1))
    (hctes : ∀ x ∈ n.leaves, ctes x.1 = rel x.1) {xs : List (String × Physical)}
    (hxs : xs ⊆ n.leaves) (ss : List (Scope α)) :
    Query.evalItems E db ctes (xs.map (joinLeaf n.dims)) ss =
      ss.map fun s => attach rel (picked n rel (scopeKey n grainName s)) xs s := by
  induction xs generalizing ss with
  | nil => simp [attach]
  | cons x xs ih =>
      have hx : x ∈ n.leaves := hxs (by simp)
      have hgrain : grainName ≠ x.1 := (hok.ne hx (.inl rfl)).symm
      have hjoin : ss.flatMap (E.join (joinLeaf n.dims x).kind (joinLeaf n.dims x).alias_
          (joinLeaf n.dims x).on (Query.evalRel E db ctes (joinLeaf n.dims x).rel)) =
          ss.map fun s =>
            (x.1, ⟨(rel x.1).columns, picked n rel (scopeKey n grainName s) x⟩) :: s := by
        rw [List.map_eq_flatMap]
        refine List.flatMap_congr fun s _ => ?_
        have hj := join_joinLeaf E hok hrel hx s
        rwa [← hctes x hx] at hj ⊢
      rw [List.map_cons, Query.evalItems_cons, hjoin, ih (fun y hy => hxs (by simp [hy])),
        List.map_map]
      refine List.map_congr_left fun s _ => ?_
      have hkey (b : Bound α) : scopeKey n grainName ((x.1, b) :: s) = scopeKey n grainName s := by
        simp only [scopeKey, Scope.value_cons_ne hgrain]
        congr 1
        exact List.map_congr_left fun d _ => Scope.value_cons_ne hgrain _ _ _
      simp only [Function.comp_apply, hkey]
      rfl

/-! ## The law over the spine -/

/-- A row of the spine on its own. -/
def spineScope (n : Named) (k : List (Value α)) : Scope α :=
  [(grainName, ⟨spineColumns n, some k⟩)]

/-- The joined row of a row of the spine. -/
def joinedAt (n : Named) (rel : String → Table α) (k : List (Value α)) : Scope α :=
  attach rel (picked n rel (scopeKey n grainName (spineScope n k))) n.leaves (spineScope n k)

theorem joinedRows_spine (hok : n.Ok) (hrel : ∀ x ∈ n.leaves, IsLeafTable n.dims x.2 (rel x.1))
    (hctes : ∀ x ∈ n.leaves, ctes x.1 = rel x.1) (hdims : n.dims ≠ [])
    (htwo : 2 ≤ n.leaves.length) {ctes' : String → Table α}
    (hctes' : ∀ x ∈ n.leaves, ctes' x.1 = rel x.1)
    (hgrain : ctes grainName = spineTable E db n ctes') :
    n.joinedRows E db ctes false = (spineTable E db n ctes').rows.map (joinedAt n rel) := by
  have hcols := (spineTable_spec E db hok hctes' htwo).1
  have hfrom : outerFrom n false =
      readCte .from grainName [] :: n.leaves.map (joinLeaf n.dims) := by
    unfold outerFrom
    cases hl : n.leaves with
    | nil => simp [hl] at htwo
    | cons p ps => simp [hdims]
  have hstart : ([[]] : List (Scope α)).flatMap (E.join .from grainName []
      (Query.evalRel E db ctes (.cte grainName))) =
        (spineTable E db n ctes').rows.map (spineScope n) := by
    simp only [Query.evalRel_cte, hgrain, List.flatMap_cons, List.flatMap_nil, List.append_nil,
      E.join_nil (show Sql.JoinKind.from ≠ .left by simp), hcols]
    rfl
  rw [Named.joinedRows, hfrom, Query.evalItems_cons]
  simp only [readCte]
  rw [hstart, evalItems_joinLeaf E db hok hrel hctes (fun _ h => h), List.map_map]
  rfl

omit [DecidableEq α] in
/-- A row of the spine has the key it was listed for. -/
theorem scopeKey_spineScope (hok : n.Ok)
    (hrel : ∀ x ∈ n.leaves, IsLeafTable n.dims x.2 (rel x.1)) {κ : RowKey α}
    (hκ : κ ∈ n.keys rel) : scopeKey n grainName (spineScope n (spineRow n κ)) = κ := by
  obtain ⟨x, hx, hκ⟩ := List.mem_flatMap.mp hκ
  obtain ⟨r, -, rfl⟩ := List.mem_map.mp hκ
  have hvalue (c : String) : Scope.value (spineScope n (spineRow n (rowKey n.dims x.2 (rel x.1) r)))
      grainName c = (Table.mk (spineColumns n) []).value
        (spineRow n (rowKey n.dims x.2 (rel x.1) r)) c :=
    Scope.value_cons_self grainName (Table.mk (spineColumns n) []) _ [] c
  have hdims : n.dims.map (Scope.value (spineScope n (spineRow n (rowKey n.dims x.2 (rel x.1) r)))
      grainName) = n.dims.map ((rel x.1).value r) := by
    refine List.map_congr_left fun d hd => ?_
    rw [hvalue]
    exact Table.value_map n.dims _ hd _ _ _
  unfold scopeKey
  rw [hdims]
  by_cases hw : n.withIsFinal = true
  · obtain ⟨y, hy, hp⟩ := List.any_eq_true.mp (hok.marker ▸ hw)
    have hnot := ((hrel y hy).marked hp).2.1
    simp only [hw, if_true, hvalue]
    refine Prod.ext rfl ?_
    simp only [spineColumns, spineRow, hw, if_true]
    exact Table.value_append n.dims _ hnot _ _ _
  · have hp : x.2.projectsIsFinal = false := by
      rw [hok.marker, List.any_eq_true] at hw
      exact Bool.eq_false_iff.mpr fun hp => hw ⟨x, hx, hp⟩
    simp [hw, rowKey, hp]

/-- No row of a leaf without a finality rule has the dimensions of a provisional row. -/
def NoOverlap (n : Named) (rel : String → Table α) : Prop :=
  ∀ x ∈ n.leaves, x.2.projectsIsFinal = false → ∀ y ∈ n.leaves, y.2.projectsIsFinal = true →
    ∀ r ∈ (rel x.1).rows, ∀ r' ∈ (rel y.1).rows,
      n.dims.map ((rel x.1).value r) = n.dims.map ((rel y.1).value r') →
        (rel y.1).value r' isFinalName = .bool true

omit [DecidableEq α] in
/-- Without an overlap a row is matched by its own key only. -/
theorem matches_iff_of_noOverlap (hno : NoOverlap n rel) {x : String × Physical}
    (hx : x ∈ n.leaves) {κ : RowKey α} (hκ : κ ∈ n.keys rel) {r : List (Value α)}
    (hr : r ∈ (rel x.1).rows) : Matches n rel κ x r ↔ rowKey n.dims x.2 (rel x.1) r = κ := by
  constructor
  · intro hm
    refine Prod.ext hm.1 ?_
    unfold rowKey
    by_cases hp : x.2.projectsIsFinal = true
    · simpa [hp] using hm.2 hp
    · -- the key is final, whichever leaf it comes from
      obtain ⟨y, hy, hκ⟩ := List.mem_flatMap.mp hκ
      obtain ⟨r', hr', rfl⟩ := List.mem_map.mp hκ
      by_cases hq : y.2.projectsIsFinal = true
      · simp only [rowKey, hp, hq, if_true, if_false, Bool.false_eq_true]
        exact (hno x hx (by simpa using hp) y hy hq r hr r' hr' hm.1).symm
      · simp [rowKey, hp, hq]
  · rintro rfl
    exact ⟨rfl, fun hp => by simp [rowKey, hp]⟩

/-- **Over the spine**, the law holds exactly when no row without a finality rule has the
dimensions of a provisional row. -/
theorem oneRowPerKey_spine (hok : n.Ok) (hrel : ∀ x ∈ n.leaves, IsLeafTable n.dims x.2 (rel x.1))
    {spine : List (List (Value α))} (hnodup : spine.Nodup)
    (hspine : ∀ k, k ∈ spine ↔ ∃ κ ∈ n.keys rel, spineRow n κ = k) :
    OneRowPerKey n rel grainName (spine.map (joinedAt n rel)) ↔ NoOverlap n rel := by
  have hkey (k : List (Value α)) :
      scopeKey n grainName (joinedAt n rel k) = scopeKey n grainName (spineScope n k) := by
    have hl : (joinedAt n rel k).lookup grainName = (spineScope n k).lookup grainName :=
      lookup_attach_ne hok.grain _
    simp only [scopeKey, Scope.value, hl]
    congr 1
    exact List.map_congr_left fun d _ => by simp only [Scope.value, hl]
  have hof {k : List (Value α)} (hk : k ∈ spine) : ∃ κ ∈ n.keys rel,
      spineRow n κ = k ∧ scopeKey n grainName (joinedAt n rel k) = κ := by
    obtain ⟨κ, hκ, rfl⟩ := (hspine k).mp hk
    exact ⟨κ, hκ, rfl, by rw [hkey, scopeKey_spineScope hok hrel hκ]⟩
  have hrow {κ : RowKey α} (hκ : κ ∈ n.keys rel) {x : String × Physical} (hx : x ∈ n.leaves) :
      (joinedAt n rel (spineRow n κ)).lookup x.1 =
        some ⟨(rel x.1).columns, picked n rel κ x⟩ := by
    rw [joinedAt, lookup_attach hok.names hx, scopeKey_spineScope hok hrel hκ]
  constructor
  · intro h x hx hp y hy hq r hr r' hr' hdims
    obtain ⟨b, hb⟩ := ((hrel y hy).marked hq).2.2 r' hr'
    cases b with
    | true => exact hb
    | false =>
        -- both rows of the spine carry the row of the untagged leaf
        exfalso
        have hmem {z : String × Physical} (hz : z ∈ n.leaves) {q : List (Value α)}
            (hq : q ∈ (rel z.1).rows) : rowKey n.dims z.2 (rel z.1) q ∈ n.keys rel :=
          List.mem_flatMap.mpr ⟨z, hz, List.mem_map_of_mem hq⟩
        have carries {κ : RowKey α} (hκ : κ ∈ n.keys rel)
            (heq : n.dims.map ((rel x.1).value r) = κ.1) :
            joinedAt n rel (spineRow n κ) ∈ (spine.map (joinedAt n rel)).filter
              fun s => s.rowOf x.1 = some r := by
          rw [List.mem_filter, decide_eq_true_eq, Scope.rowOf_eq (hrow hκ hx)]
          exact ⟨List.mem_map_of_mem ((hspine _).mpr ⟨κ, hκ, rfl⟩),
            (picked_eq_some hrel hx).mpr ⟨hr, heq, fun h => by simp [hp] at h⟩⟩
        obtain ⟨s, hs⟩ := List.length_eq_one_iff.mp (h.once x hx r hr)
        have h1 := carries (hmem hx hr) rfl
        have h2 := carries (hmem hy hr') hdims
        rw [hs, List.mem_singleton] at h1 h2
        have hkeys := congrArg (scopeKey n grainName) (h1.trans h2.symm)
        rw [hkey, hkey, scopeKey_spineScope hok hrel (hmem hx hr),
          scopeKey_spineScope hok hrel (hmem hy hr')] at hkeys
        simp [rowKey, hp, hq, hb] at hkeys
  · intro hno
    refine oneRowPerKey_of_carries hrel ?_ (fun κ => ?_) fun s hs x hx => ?_
    · rw [List.map_map]
      refine hnodup.map_on fun k hk k' hk' heq => ?_
      obtain ⟨κ, -, rfl, hκ⟩ := hof hk
      obtain ⟨κ', -, rfl, hκ'⟩ := hof hk'
      simp only [Function.comp_apply] at heq
      rw [← hκ, heq, hκ']
    · simp only [List.map_map, List.mem_map, Function.comp_apply]
      constructor
      · rintro ⟨k, hk, rfl⟩
        obtain ⟨κ, hκ, -, heq⟩ := hof hk
        exact heq ▸ hκ
      · intro hκ
        exact ⟨spineRow n κ, (hspine _).mpr ⟨κ, hκ, rfl⟩,
          by rw [hkey, scopeKey_spineScope hok hrel hκ]⟩
    · obtain ⟨k, hk, rfl⟩ := List.mem_map.mp hs
      obtain ⟨κ, hκ, rfl, heq⟩ := hof hk
      refine ⟨_, hrow hκ hx, fun r => ?_⟩
      rw [picked_eq_some hrel hx, heq]
      exact and_congr_right fun hr => matches_iff_of_noOverlap hno hx hκ hr

end

/-! ## The names of a composition -/

theorem leafCteName_injective : Function.Injective leafCteName := by
  intro a b h
  refine Nat.repr_injective (m := a) (n := b) ?_
  simpa [leafCteName, toString] using h

theorem leafCteName_ne (k : Nat) : leafCteName k ≠ grainName ∧ leafCteName k ≠ "" := by
  have hlist : (leafCteName k).toList = "_leaf_".toList ++ (toString k).toList :=
    String.toList_append
  constructor
  · intro h
    have := congrArg String.toList h
    rw [hlist] at this
    simp [grainName] at this
  · intro h
    have := congrArg String.toList h
    rw [hlist] at this
    simp at this

section
variable {dims : List String} {ps : List Physical} {ownerOf : List Nat}

theorem mem_sortOrder {i : Nat} : i ∈ sortOrder ps ↔ i < ps.length := by
  rw [sortOrder, (List.perm_insertionSort _ _).mem_iff, List.mem_range]

theorem mem_nameLeaves {x : String × Physical} : x ∈ (nameLeaves dims ps ownerOf).leaves ↔
    ∃ i, ps[i]? = some x.2 ∧ nameOf (sortOrder ps) i = x.1 := by
  simp only [nameLeaves, List.mem_filterMap, mem_sortOrder, Option.map_eq_some_iff]
  constructor
  · rintro ⟨i, -, p, hp, rfl⟩
    exact ⟨i, hp, rfl⟩
  · rintro ⟨i, hp, hname⟩
    exact ⟨i, (List.getElem?_eq_some_iff.mp hp).1, x.2, hp, Prod.ext hname rfl⟩

theorem nameLeaves_length : (nameLeaves dims ps ownerOf).leaves.length = ps.length := by
  have hlen : (sortOrder ps).length = ps.length := by simp [sortOrder]
  rw [nameLeaves, List.length_filterMap_eq_countP, ← hlen, List.countP_eq_length]
  intro i hi
  simp [mem_sortOrder.mp hi]

/-- The names `compose` gives are distinct, and none of them is the spine's. -/
theorem nameLeaves_ok : (nameLeaves dims ps ownerOf).Ok := by
  have name {a : String} (ha : a ∈ (nameLeaves dims ps ownerOf).leaves.map (·.1)) :
      ∃ k, a = leafCteName k := by
    obtain ⟨x, hx, rfl⟩ := List.mem_map.mp ha
    obtain ⟨i, -, hname⟩ := mem_nameLeaves.mp hx
    exact ⟨_, hname.symm⟩
  refine ⟨?_, fun h => ?_, fun h => ?_, ?_⟩
  · have hnodup : (sortOrder ps).Nodup :=
      (List.perm_insertionSort _ _).nodup_iff.mpr List.nodup_range
    rw [nameLeaves, List.map_filterMap]
    refine List.pairwise_filterMap.mpr
      (hnodup.imp_of_mem fun {i j} hi hj hne a ha b hb heq => hne ?_)
    simp only [Option.map_map, Option.map_eq_some_iff, Function.comp_apply] at ha hb
    obtain ⟨-, -, rfl⟩ := ha
    obtain ⟨-, -, rfl⟩ := hb
    exact (List.idxOf_inj hi).mp (leafCteName_injective heq)
  · obtain ⟨k, hk⟩ := name h
    exact (leafCteName_ne k).1 hk.symm
  · obtain ⟨k, hk⟩ := name h
    exact (leafCteName_ne k).2 hk.symm
  · rw [Bool.eq_iff_iff, List.any_eq_true]
    simp only [nameLeaves, List.any_eq_true]
    constructor
    · rintro ⟨p, hp, hfinal⟩
      obtain ⟨i, hi⟩ := List.mem_iff_getElem?.mp hp
      exact ⟨(nameOf (sortOrder ps) i, p),
        (@mem_nameLeaves dims ps ownerOf _).mpr ⟨i, hi, rfl⟩, hfinal⟩
    · rintro ⟨x, hx, hfinal⟩
      obtain ⟨i, hi, -⟩ := (@mem_nameLeaves dims ps ownerOf _).mp hx
      exact ⟨x.2, List.mem_of_getElem? hi, hfinal⟩
end

/-! ## Plain metrics -/

/-- A metric computed row by row from leaf columns: no running total, and no aggregate in the
template of a derived metric. -/
def MetricPlan.isPlain (m : MetricPlan) : Bool :=
  m.accumulate.isNone && ((m.template.map (·.isPlain)).getD true)

/-- All metrics of a query are plain, the operands of a derived metric included. -/
def PlainMetrics (ms : List MetricPlan) : Prop := ∀ m ∈ ms.flatMap (·.walk), m.isPlain = true

theorem combineExpr_plain (combine : Combine) {es : List Expr} (h : ∀ e ∈ es, e.isPlain = true) :
    (combineExpr combine es).isPlain = true := by
  match es with
  | [] => simp [combineExpr, Sql.Op.readsGroup]
  | [c] => simpa [combineExpr] using h
  | [n, d] =>
      have hn := h n (by simp)
      have hd := h d (by simp)
      cases combine <;> simp [combineExpr, guardDivision, hn, hd, Sql.Op.readsGroup]
  | c :: _ :: _ :: _ => simpa [combineExpr] using h c (by simp)

theorem columnsOf_plain (leafName : Nat → String) (refs : List LeafRef) :
    ∀ e ∈ columnsOf leafName refs, e.isPlain = true := by
  intro e he
  obtain ⟨r, -, rfl⟩ := List.mem_map.mp he
  simp

theorem substituteOperands_plain {template : Expr} {values : List Expr}
    (ht : template.isPlain = true) (hv : ∀ e ∈ values, e.isPlain = true) :
    (substituteOperands template values).isPlain = true := by
  refine Expr.isPlain_mapColumns (fun c => ?_) ht
  split
  · split
    next i hi =>
      have hlt : i < values.length := by
        simpa using List.mem_of_find?_eq_some hi
      simp [Sql.Op.readsGroup, List.getD_eq_getElem?_getD, List.getElem?_eq_getElem hlt,
        hv _ (List.getElem_mem hlt)]
    · simp
  · simp

mutual
theorem metricValue_plain (env : Env) (leafName : Nat → String) : ∀ {m : MetricPlan},
    (∀ p ∈ m.walk, p.isPlain = true) → (metricValue env leafName m).isPlain = true
  | ⟨name, refs, combine, acc, cum, operands, template, division⟩, h => by
      have hself := h _ (by rw [MetricPlan.walk]; exact List.mem_cons_self)
      simp only [MetricPlan.isPlain, Bool.and_eq_true, Option.isNone_iff_eq_none] at hself
      obtain ⟨hacc, htemplate⟩ := hself
      rw [metricValue]
      split
      · have hops := @operandValues_plain env leafName operands
          fun p hp => h p (by rw [MetricPlan.walk]; exact List.mem_cons_of_mem _ hp)
        refine substituteOperands_plain ?_ hops
        cases template with
        | none => simp [Sql.Op.readsGroup]
        | some t => simpa using htemplate
      · rw [hacc]
        exact combineExpr_plain combine (columnsOf_plain leafName refs)

theorem operandValues_plain (env : Env) (leafName : Nat → String) : ∀ {ms : List MetricPlan},
    (∀ p ∈ MetricPlan.walkList ms, p.isPlain = true) →
      ∀ e ∈ operandValues env leafName ms, e.isPlain = true
  | [], _, e, he => by simp [operandValues] at he
  | m :: ms, h, e, he => by
      rw [operandValues] at he
      rw [MetricPlan.walkList] at h
      rcases List.mem_cons.mp he with rfl | he
      · exact metricValue_plain env leafName fun p hp => h p (List.mem_append_left _ hp)
      · exact operandValues_plain env leafName (fun p hp => h p (List.mem_append_right _ hp)) e he
end

mutual
/-- What stands under an operand stands under the metric. -/
theorem walk_subset : ∀ {m p : MetricPlan}, p ∈ m.walk → p.walk ⊆ m.walk
  | ⟨name, refs, combine, acc, cum, operands, template, division⟩, p, hp => by
      rw [MetricPlan.walk] at hp
      rcases List.mem_cons.mp hp with rfl | hp
      · exact fun _ h => h
      · intro q hq
        rw [MetricPlan.walk]
        exact List.mem_cons_of_mem _ (walkList_subset hp hq)

theorem walkList_subset : ∀ {ms : List MetricPlan} {p : MetricPlan},
    p ∈ MetricPlan.walkList ms → p.walk ⊆ MetricPlan.walkList ms
  | [], p, hp => by simp [MetricPlan.walkList] at hp
  | m :: ms, p, hp => by
      rw [MetricPlan.walkList] at hp ⊢
      rcases List.mem_append.mp hp with hp | hp
      · exact fun q hq => List.mem_append_left _ (walk_subset hp hq)
      · exact fun q hq => List.mem_append_right _ (walkList_subset hp hq)
end

/-- The operands of a metric, and everything under them. -/
theorem operands_subset (m : MetricPlan) : MetricPlan.walkList m.operands ⊆ m.walk := by
  cases m with
  | mk name refs combine acc cum operands template division =>
      intro p hp
      rw [MetricPlan.walk]
      exact List.mem_cons_of_mem _ hp

theorem mem_walk_self (m : MetricPlan) : m ∈ m.walk := by
  cases m with
  | mk name refs combine acc cum operands template division =>
      rw [MetricPlan.walk]
      exact List.mem_cons_self

theorem denominators_plain (env : Env) (leafName : Nat → String) {m : MetricPlan}
    (h : ∀ p ∈ m.walk, p.isPlain = true) :
    ∀ e ∈ denominators env leafName m, e.isPlain = true := by
  intro e he
  unfold denominators at he
  split at he
  · obtain ⟨d, hd, rfl⟩ := List.mem_map.mp he
    obtain ⟨x, hx, hg⟩ := List.mem_filterMap.mp hd
    have htemplate : (m.template.getD (.node .null [])).isPlain = true := by
      have hself := h m (mem_walk_self m)
      simp only [MetricPlan.isPlain, Bool.and_eq_true] at hself
      cases ht : m.template with
      | none => simp [Sql.Op.readsGroup]
      | some t => simpa [ht] using hself.2
    have hplain : x.isPlain = true := Expr.isPlain_of_mem_nodes htemplate (Expr.mem_walk.mp hx)
    refine substituteOperands_plain ?_
      (operandValues_plain env leafName fun p hp => h p (operands_subset m hp))
    unfold guardedDenominator at hg
    split at hg
    next d' args =>
      obtain rfl := Option.some.inj hg
      simp only [Expr.isPlain_node, List.all_cons, Bool.and_eq_true] at hplain
      exact hplain.2.2.1.2.1
    · simp at hg
  · obtain he := List.mem_of_getElem? (Option.mem_toList.mp he)
    exact columnsOf_plain leafName m.refs e he

theorem mkOr_plain {es : List Expr} (h : ∀ e ∈ es, e.isPlain = true) :
    (mkOr es).isPlain = true := by
  cases es with
  | nil => simp [mkOr, Sql.Op.readsGroup]
  | cons e es =>
      rw [mkOr]
      have run : ∀ (es : List Expr) (a : Expr), a.isPlain = true → (∀ e ∈ es, e.isPlain = true) →
          (es.foldl (fun a b => Expr.node .or [a, b]) a).isPlain = true := by
        intro es
        induction es with
        | nil => exact fun a ha _ => ha
        | cons b bs ih =>
            intro a ha hbs
            refine ih _ ?_ fun e he => hbs e (by simp [he])
            simp [ha, hbs b (by simp), Sql.Op.readsGroup]
      exact run es e (h e (by simp)) fun e' he' => h e' (by simp [he'])

theorem zeroDenominatorFlag_plain {ds : List Expr} (h : ∀ d ∈ ds, d.isPlain = true) :
    (zeroDenominatorFlag ds).isPlain = true := by
  have hor : (mkOr (ds.map fun d => Expr.mkEq d (.number "0"))).isPlain = true := by
    refine mkOr_plain fun e he => ?_
    obtain ⟨d, hd, rfl⟩ := List.mem_map.mp he
    simp [Expr.mkEq, h d hd, Sql.Op.readsGroup]
  simp [zeroDenominatorFlag, hor, Sql.Op.readsGroup]

/-- The projections of a query's first `SELECT`. -/
def Sql.Query.projections : Query → List Projection
  | .select _ ps _ _ _ => ps
  | .union _ l _ => l.projections

/-- The outer `SELECT` of plain metrics works row by row. -/
theorem outerSelect_plain {env : Env} {n : Named} {single visibility : Bool}
    {metrics : List MetricPlan} (h : PlainMetrics metrics) :
    ∀ p ∈ (outerSelect env n single visibility metrics).projections, p.expr.isPlain = true := by
  have hwalk {m : MetricPlan} (hm : m ∈ metrics) : ∀ p ∈ m.walk, p.isPlain = true :=
    fun p hp => h p (List.mem_flatMap.mpr ⟨m, hm, hp⟩)
  intro p hp
  simp only [outerSelect, Sql.Query.projections, List.mem_append] at hp
  rcases hp with ((hp | hp) | hp) | hp
  · exact readDims_plain _ _ p hp
  · obtain ⟨i, m, hm, rfl⟩ := List.mem_mapIdx.mp hp
    exact metricValue_plain env _ (hwalk (List.getElem_mem _))
  · split at hp
    · obtain rfl := List.mem_singleton.mp hp
      simp
    · simp at hp
  · obtain ⟨m, hm, rfl⟩ := List.mem_map.mp hp
    have hm := (List.mem_filter.mp hm).1
    refine zeroDenominatorFlag_plain fun d hd => ?_
    rcases List.mem_append.mp hd with hd | hd
    · split at hd
      · exact denominators_plain env _ (hwalk hm) d hd
      · simp at hd
    · obtain ⟨q, hq, hd⟩ := List.mem_flatMap.mp hd
      have hq := (List.mem_filter.mp hq).1
      refine denominators_plain env _ (fun x hx => ?_) d hd
      exact hwalk hm x (operands_subset m (walkList_subset hq hx))

/-! ## The composed statement -/

section
variable {n : Named} {env : Env} {metrics : List MetricPlan} {st : Statement}

/-- The statement of plain metrics: the leaves, the spine where there is one, the outer `SELECT`. -/
theorem composeStatement_plain (h : composeStatement env n metrics = .ok st)
    (hplain : PlainMetrics metrics) : ∃ lc, leafCtes n.leaves = .ok lc ∧ st =
      ⟨lc ++ if (n.leaves.length == 1) || n.dims.isEmpty then []
        else [(grainName, buildSpine n.dims n.withIsFinal n.leaves [])],
        outerSelect env n (n.leaves.length == 1) false metrics⟩ := by
  have hacc : ((metrics.flatMap (·.walk)).filter fun m => m.accumulate.isSome) = [] := by
    refine List.filter_eq_nil_iff.mpr fun m hm => ?_
    have := hplain m hm
    simp only [MetricPlan.isPlain, Bool.and_eq_true, Option.isNone_iff_eq_none] at this
    simp [this.1]
  simp only [composeStatement, hacc, bind_eq_ok, pure_eq_ok] at h
  obtain ⟨lc, hlc, rfl⟩ := h
  refine ⟨lc, hlc, ?_⟩
  simp [accumulations, Dict.sorted]

/-- Every leaf has its own common table expression. -/
theorem leafCtes_name {xs : List (String × Physical)} {lc : List (String × Query)}
    (h : leafCtes xs = .ok lc) {x : String × Physical} (hx : x ∈ xs) : x.1 ∈ lc.map (·.1) := by
  simp only [leafCtes, bind_eq_ok, pure_eq_ok] at h
  obtain ⟨cs, hcs, rfl⟩ := h
  obtain ⟨c, hc, hbuilt⟩ := forall₂_mem_left (mapM_eq_ok.mp hcs) hx
  simp only [bind_eq_ok, pure_eq_ok] at hbuilt
  obtain ⟨built, -, rfl⟩ := hbuilt
  exact List.mem_map.mpr ⟨(x.1, built.1), List.mem_flatten.mpr ⟨_, hc, by simp⟩, rfl⟩

end

section
variable {α : Type} [DecidableEq α] (E : Engine α) (db : String → Table α)

/-- The leaves' relations, by the names the leaves have in the statement. -/
def givenLeaves (n : Named) (rel : String → Table α) (a : String) : Option (Table α) :=
  if a ∈ n.leaves.map (·.1) then some (rel a) else none

/-- A given table is what the name stands for. -/
theorem tables_of_given {given : String → Option (Table α)} {a : String} {t : Table α}
    (hgiven : given a = some t) {st : Statement} (ha : a ∈ st.ctes.map (·.1)) :
    st.tables E db given a = t := by
  have run : ∀ (cs : List (String × Query)) (env : String → Table α),
      (a ∈ cs.map (·.1) ∨ env a = t) → cs.foldl (fun env c n =>
        if n = c.1 then (given n).getD (c.2.eval E db env) else env n) env a = t := by
    intro cs
    induction cs with
    | nil => exact fun env h => h.elim (by simp) id
    | cons c cs ih =>
        intro env h
        rw [List.foldl_cons]
        refine ih _ ?_
        by_cases hac : a = c.1
        · exact .inr (by rw [if_pos hac, hgiven]; rfl)
        · rcases h with h | h
          · exact .inl (by simpa [hac] using h)
          · exact .inr (by rw [if_neg hac, h])
  exact run _ _ (.inl ha)

/-- The leaves do not overlap: there is only one of them, or no row without a finality rule has
the dimensions of a provisional row; without dimensions, all have a row or none has. -/
def Aligned (n : Named) (rel : String → Table α) : Prop :=
  n.leaves.length = 1 ∨ (n.dims ≠ [] ∧ NoOverlap n rel) ∨ (n.dims = [] ∧ SameCount n rel)

/-- The law for the statement over named leaves. -/
theorem composeStatement_oneRowPerKey {n : Named} {env : Env} {metrics : List MetricPlan}
    {st : Statement} (h : composeStatement env n metrics = .ok st) (hplain : PlainMetrics metrics)
    (hok : n.Ok) (hne : n.leaves ≠ []) {rel : String → Table α}
    (hrel : ∀ x ∈ n.leaves, IsLeafTable n.dims x.2 (rel x.1)) :
    (st.evalOver E db (givenLeaves n rel)).rows =
        (n.joinedRows E db (st.tables E db (givenLeaves n rel)) (n.leaves.length == 1)).map
          (fun s => (outerSelect env n (n.leaves.length == 1) false metrics).projections.map
            fun p => E.eval s p.expr) ∧
      (OneRowPerKey n rel (dimSource n (n.leaves.length == 1))
        (n.joinedRows E db (st.tables E db (givenLeaves n rel)) (n.leaves.length == 1)) ↔
          Aligned n rel) := by
  obtain ⟨lc, hlc, rfl⟩ := composeStatement_plain h hplain
  set st : Statement := ⟨_, _⟩ with hst
  have hgiven {x : String × Physical} (hx : x ∈ n.leaves) :
      givenLeaves n rel x.1 = some (rel x.1) :=
    if_pos (List.mem_map_of_mem hx)
  have hctes : ∀ x ∈ n.leaves, st.tables E db (givenLeaves n rel) x.1 = rel x.1 := by
    intro x hx
    refine tables_of_given E db (hgiven hx) ?_
    rw [hst, List.map_append]
    exact List.mem_append_left _ (leafCtes_name hlc hx)
  constructor
  · have heval (ps : List Projection) (fs : List (FromItem Query)) (ctes : String → Table α)
        (hps : ∀ p ∈ ps, p.expr.isPlain = true) :
        ((Query.select .none ps fs [] []).eval E db ctes).rows =
          (Query.evalItems E db ctes fs [[]]).map fun s => ps.map fun p => E.eval s p.expr := by
      have hnil (s : Scope α) : E.holds s [] = true := rfl
      simp only [Query.eval, E.project_plain hps, hnil, List.filter_true]
    exact heval _ _ _ (outerSelect_plain hplain)
  · by_cases hone : n.leaves.length = 1
    · obtain ⟨x, hx⟩ := List.length_eq_one_iff.mp hone
      simp only [hone, beq_self_eq_true, Aligned, true_or, iff_true]
      have hjoined := joined_single E db hx (hctes x (by simp [hx]))
      rw [hjoined]
      have hsrc : dimSource n true = x.1 := by simp [dimSource, hx]
      rw [hsrc]
      exact oneRowPerKey_single hok hx hrel
    · have hsingle : (n.leaves.length == 1) = false := by simpa using hone
      have hsrc : dimSource n false = grainName := by
        unfold dimSource
        split <;> rfl
      rw [hsingle, hsrc]
      by_cases hdims : n.dims = []
      · rw [oneRowPerKey_cross E db hok hne hdims hrel hctes]
        simp [Aligned, hone, hdims]
      · have htwo : 2 ≤ n.leaves.length := by
          have := List.length_pos_iff.mpr hne
          omega
        -- the spine is evaluated over the leaves alone
        have hgrain : st.tables E db (givenLeaves n rel) grainName = spineTable E db n
            (Statement.tables E db (givenLeaves n rel) ⟨lc, st.body⟩) := by
          have hnone : givenLeaves n rel grainName = none := if_neg hok.grain
          have hspine : (n.leaves.length == 1 || n.dims.isEmpty) = false := by
            simp [hone, hdims]
          simp only [Statement.tables, hst, hspine, Bool.false_eq_true, if_false,
            List.foldl_append, List.foldl_cons, List.foldl_nil, if_true, hnone, Option.getD_none]
          rfl
        have hctes' : ∀ x ∈ n.leaves,
            Statement.tables E db (givenLeaves n rel) ⟨lc, st.body⟩ x.1 = rel x.1 :=
          fun x hx => tables_of_given E db (hgiven hx) (leafCtes_name hlc hx)
        obtain ⟨-, hnodup, hmem⟩ := spineTable_spec E db hok hctes' htwo
        rw [joinedRows_spine E db hok hrel hctes hdims htwo hctes' hgrain,
          oneRowPerKey_spine hok hrel hnodup hmem]
        simp [Aligned, hone, hdims]

/-- The named leaves of a composition. -/
def composedOf (dedup : Bool) (leaves : List LeafPlan) : Named :=
  nameLeaves ((leaves.head?.map (·.dimNames)).getD []) (fuse dedup leaves).1 (fuse dedup leaves).2

/-- An expression is opened for the first leaf. -/
theorem fuse_ne_nil {dedup : Bool} {leaves : List LeafPlan} (h : leaves ≠ []) :
    (fuse dedup leaves).1 ≠ [] := by
  have run : ∀ (ls : List LeafPlan) (f : Fusion), (ls ≠ [] ∨ f.physical ≠ []) →
      (ls.foldl (fuseLeaf dedup) f).physical ≠ [] := by
    intro ls
    induction ls with
    | nil => exact fun f hf => hf.elim (fun h => absurd rfl h) id
    | cons l ls ih =>
        intro f hf
        refine ih _ (.inr ?_)
        unfold fuseLeaf
        split
        next k hk =>
          intro hnil
          have hphysical : f.physical = [] := by
            simpa using congrArg List.length hnil
          split at hk
          · simp [Fusion.indexOf, hphysical] at hk
          · simp at hk
        · simp
  simpa [fuse] using run leaves {} (.inl h)

section
variable {env : Env} {leaves : List LeafPlan} {metrics : List MetricPlan} {dedup : Bool}
  {res : ComposeResult}

theorem compose_ne_nil (h : compose env leaves metrics dedup = .ok res) : leaves ≠ [] := by
  rintro rfl
  simp [compose] at h

theorem compose_physicalStatement (h : compose env leaves metrics dedup = .ok res) :
    ∃ count, physicalStatement env (composedOf dedup leaves).dims (fuse dedup leaves).1
      (fuse dedup leaves).2 metrics = .ok (res.statement, count) := by
  unfold compose at h
  split at h
  · simp at h
  · simp only [bind_eq_ok, composeResult, pure_eq_ok] at h
    obtain ⟨_, -, ⟨st, count⟩, hst, _, -, rfl⟩ := h
    exact ⟨count, hst⟩

theorem PlainMetrics.accumulate (h : PlainMetrics metrics) :
    ((metrics.flatMap (·.walk)).all fun m => m.accumulate.isNone) = true := by
  refine List.all_eq_true.mpr fun m hm => ?_
  have := h m hm
  simp only [MetricPlan.isPlain, Bool.and_eq_true] at this
  exact this.1

/-- A lone leaf whose columns are the output is the statement. -/
theorem compose_lone (h : compose env leaves metrics dedup = .ok res)
    (hplain : PlainMetrics metrics) {p : Physical} (hp : (fuse dedup leaves).1 = [p])
    (hout : projectionIsOutput metrics p = true) : loneStatement p = .ok res.statement := by
  obtain ⟨count, hst⟩ := compose_physicalStatement h
  rw [hp] at hst
  simp only [physicalStatement, hplain.accumulate, hout, Bool.and_self, if_true, bind_eq_ok,
    pure_eq_ok] at hst
  obtain ⟨s, hs, heq⟩ := hst
  obtain ⟨rfl, -⟩ := Prod.mk.inj heq
  exact hs

/-- Any other query is the statement over the named leaves. -/
theorem compose_statement (h : compose env leaves metrics dedup = .ok res)
    (hplain : PlainMetrics metrics)
    (hout : ∀ p, (fuse dedup leaves).1 = [p] → projectionIsOutput metrics p = false) :
    composeStatement env (composedOf dedup leaves) metrics = .ok res.statement := by
  obtain ⟨count, hst⟩ := compose_physicalStatement h
  unfold physicalStatement at hst
  split at hst
  next p hps =>
    rw [hplain.accumulate, hout p hps] at hst
    simp only [Bool.and_false, Bool.false_eq_true, if_false, bind_eq_ok, pure_eq_ok] at hst
    obtain ⟨s, hs, heq⟩ := hst
    obtain ⟨rfl, -⟩ := Prod.mk.inj heq
    exact hs
  · simp only [bind_eq_ok, pure_eq_ok] at hst
    obtain ⟨s, hs, heq⟩ := hst
    obtain ⟨rfl, -⟩ := Prod.mk.inj heq
    exact hs

end

/-- **The composition law.** A lone leaf whose columns are the output is the statement itself.
Otherwise the statement returns one row for each joined row, and the joined rows are one for each
key, every leaf row carried by exactly one of them, if and only if the leaves are aligned. -/
theorem compose_oneRowPerKey_iff {env : Env} {leaves : List LeafPlan} {metrics : List MetricPlan}
    {dedup : Bool} {res : ComposeResult} (h : compose env leaves metrics dedup = .ok res)
    (hplain : PlainMetrics metrics) {rel : String → Table α}
    (hrel : ∀ x ∈ (composedOf dedup leaves).leaves,
      IsLeafTable (composedOf dedup leaves).dims x.2 (rel x.1)) :
    (∀ p, (fuse dedup leaves).1 = [p] → projectionIsOutput metrics p = true →
      loneStatement p = .ok res.statement) ∧
    ((∀ p, (fuse dedup leaves).1 = [p] → projectionIsOutput metrics p = false) →
      let n := composedOf dedup leaves
      let single := n.leaves.length == 1
      let joined := n.joinedRows E db (res.statement.tables E db (givenLeaves n rel)) single
      (res.statement.evalOver E db (givenLeaves n rel)).rows = joined.map (fun s =>
        (outerSelect env n single false metrics).projections.map fun p => E.eval s p.expr) ∧
      (OneRowPerKey n rel (dimSource n single) joined ↔ Aligned n rel)) := by
  have hne : (composedOf dedup leaves).leaves ≠ [] := by
    refine List.ne_nil_of_length_pos ?_
    rw [composedOf, nameLeaves_length]
    exact List.length_pos_iff.mpr (fuse_ne_nil (compose_ne_nil h))
  exact ⟨fun p hp hout => compose_lone h hplain hp hout, fun hout =>
    composeStatement_oneRowPerKey E db (compose_statement h hplain hout) hplain nameLeaves_ok hne
      hrel⟩

end

/-! ### Revenue and visitors by day -/

private def siteTexts : List (String × Expr) :=
  [("SUM(amount)", .node (.agg .sum) [Expr.bare "amount"])]

private def daily (name : String) : SemanticSource where
  name := name
  connection := "wh"
  table := name
  columns := [⟨"day", .date, true⟩, ⟨"amount", .decimal, true⟩]
  measures := [{ name := "amount", expr := "SUM(amount)" }]
  dimensions := [{ name := "day", column := some "day" }]
  measures_nodup := List.nodup_singleton "amount"
  dimensions_nodup := List.nodup_singleton "day"

/-- Revenue is under a finality rule, the visitors are not. -/
private def siteProject : Project where
  lib := Lib.ofTexts siteTexts
  sources := { list := [daily "closed_sales", daily "open_sales", daily "visits"] }
  resolver := {
    bindings := [
      { metric := "revenue", canonical := { of := .single "closed_sales" "amount" } },
      { metric := "visitors", canonical := { of := .single "visits" "amount" } }]
    finality := [{
      metric := "revenue"
      realizations := [
        { source := "closed_sales", role := .final, watermark := some "business_day"
          tz := some "UTC" },
        { source := "open_sales", role := .provisional }] }] }

private def siteByDay : SemanticQuery :=
  { metrics := ["revenue", "visitors"], dimensions := ["day"] }

private def noEngine : Engine Nat := ⟨fun _ _ => .null, fun _ _ => .null, fun _ _ _ _ => []⟩

/-- Day 1 has final revenue and visitors; the provisional revenue is of the given day. -/
private def siteTables (provisionalDay : Nat) (name : String) : Table Nat :=
  if name = "_leaf_0" then ⟨["day", "revenue", "is_final"],
    [[.data 1, .data 10, .bool true], [.data provisionalDay, .data 5, .bool false]]⟩
  else ⟨["day", "visitors"], [[.data 1, .data 100]]⟩

/-- What of the plan the tables fit. -/
private def siteFits (day : Nat) (plan : Plan) : Bool :=
  let n := composedOf true plan.leaves
  (compose plan.ctx.env plan.leaves plan.metrics true).isOk &&
    (plan.metrics.flatMap (·.walk)).all (·.isPlain) && n.leaves.length == 2 &&
      n.dims == ["day"] && n.leaves.all fun x => decide
        (((siteTables day x.1).rows.map (rowKey n.dims x.2 (siteTables day x.1))).Nodup ∧
          (x.2.projectsIsFinal = true → ∀ r ∈ (siteTables day x.1).rows,
            ∃ b, (siteTables day x.1).value r isFinalName = .bool b))

/-- A plan the tables fit is composed over leaf relations. -/
private theorem siteFits_spec {day : Nat} {plan : Plan} (h : siteFits day plan = true) :
    (∃ res, compose plan.ctx.env plan.leaves plan.metrics true = .ok res) ∧
      PlainMetrics plan.metrics ∧ (composedOf true plan.leaves).leaves.length = 2 ∧
        (composedOf true plan.leaves).dims = ["day"] ∧ ∀ x ∈ (composedOf true plan.leaves).leaves,
          IsLeafTable (composedOf true plan.leaves).dims x.2 (siteTables day x.1) := by
  simp only [siteFits, Bool.and_eq_true, beq_iff_eq, List.all_eq_true, decide_eq_true_eq] at h
  obtain ⟨⟨⟨⟨hres, hplain⟩, hlen⟩, hdims⟩, hleaves⟩ := h
  refine ⟨exists_ok_of_isOk hres, hplain, hlen, hdims, fun x hx => ?_⟩
  refine ⟨(hleaves x hx).1, fun hp => ⟨by simp [hdims], ?_, (hleaves x hx).2 hp⟩⟩
  rw [hdims]
  decide

/-- The visitors of day 1 are carried by its final row and by its provisional row. -/
theorem compose_oneRowPerKey_counterexample :
    ∃ plan res, planQuery siteProject siteByDay {} = .ok plan ∧
      compose plan.ctx.env plan.leaves plan.metrics true = .ok res ∧ PlainMetrics plan.metrics ∧
      let n := composedOf true plan.leaves
      (∀ x ∈ n.leaves, IsLeafTable n.dims x.2 (siteTables 1 x.1)) ∧
        ¬ OneRowPerKey n (siteTables 1) (dimSource n (n.leaves.length == 1))
          (n.joinedRows noEngine (fun _ => ⟨[], []⟩) (res.statement.tables noEngine
            (fun _ => ⟨[], []⟩) (givenLeaves n (siteTables 1))) (n.leaves.length == 1)) := by
  obtain ⟨plan, hplan, hall⟩ := exists_ok_of_any (x := planQuery siteProject siteByDay {})
    (P := fun plan => siteFits 1 plan && (composedOf true plan.leaves).leaves.any fun x =>
      !x.2.projectsIsFinal && x.1 == "_leaf_1" && (composedOf true plan.leaves).leaves.any fun y =>
        y.2.projectsIsFinal && y.1 == "_leaf_0") (by decide +kernel)
  simp only [Bool.and_eq_true, List.any_eq_true, Bool.not_eq_true', beq_iff_eq] at hall
  obtain ⟨hfits, x, hx, ⟨hfinal, hxname⟩, y, hy, hyfinal, hyname⟩ := hall
  obtain ⟨⟨res, hres⟩, hplain, hlen, hdims, hrel⟩ := siteFits_spec hfits
  refine ⟨plan, res, hplan, hres, hplain, hrel, fun hlaw => ?_⟩
  have hst : composeStatement plan.ctx.env (composedOf true plan.leaves) plan.metrics =
      .ok res.statement :=
    compose_statement hres hplain fun p hp => by
      rw [composedOf, nameLeaves_length, hp] at hlen
      simp at hlen
  have haligned := ((composeStatement_oneRowPerKey noEngine (fun _ => ⟨[], []⟩) hst hplain
    nameLeaves_ok (List.ne_nil_of_mem hx) hrel).2).mp hlaw
  rcases haligned with hone | ⟨-, hno⟩ | ⟨hnil, -⟩
  · omega
  · have := hno x hx hfinal y hy hyfinal [.data 1, .data 100] (by simp [siteTables, hxname])
      [.data 1, .data 5, .bool false] (by simp [siteTables, hyname])
      (by simp [hdims, hxname, hyname, siteTables, Table.value])
    rw [hyname] at this
    exact absurd this (by decide)
  · simp [hdims] at hnil

/-- With the provisional revenue on a day without visitors the law holds. -/
theorem compose_oneRowPerKey_site :
    ∃ plan res, planQuery siteProject siteByDay {} = .ok plan ∧
      compose plan.ctx.env plan.leaves plan.metrics true = .ok res ∧
      let n := composedOf true plan.leaves
      OneRowPerKey n (siteTables 2) (dimSource n (n.leaves.length == 1))
        (n.joinedRows noEngine (fun _ => ⟨[], []⟩) (res.statement.tables noEngine
          (fun _ => ⟨[], []⟩) (givenLeaves n (siteTables 2))) (n.leaves.length == 1)) := by
  obtain ⟨plan, hplan, hall⟩ := exists_ok_of_any (x := planQuery siteProject siteByDay {})
    (P := fun plan => siteFits 2 plan && (composedOf true plan.leaves).leaves.all fun x =>
      x.2.projectsIsFinal == (x.1 == "_leaf_0")) (by decide +kernel)
  simp only [Bool.and_eq_true, List.all_eq_true, beq_iff_eq] at hall
  obtain ⟨hfits, hnames⟩ := hall
  obtain ⟨⟨res, hres⟩, hplain, hlen, hdims, hrel⟩ := siteFits_spec hfits
  refine ⟨plan, res, hplan, hres, ?_⟩
  refine ((compose_oneRowPerKey_iff noEngine (fun _ => ⟨[], []⟩) hres hplain hrel).2
    fun p hp => ?_).2.mpr (.inr (.inl ⟨by simp [hdims], ?_⟩))
  · rw [composedOf, nameLeaves_length, hp] at hlen
    simp at hlen
  · intro x hx hxf y hy hyf r hr r' hr' heq
    have hxname : x.1 ≠ "_leaf_0" := by simpa [hxf] using (hnames x hx).symm
    have hyname : y.1 = "_leaf_0" := by simpa [hyf] using (hnames y hy).symm
    simp only [siteTables, hxname, hyname, if_true, if_false, List.mem_cons, List.not_mem_nil,
      or_false] at hr hr'
    subst hr
    rcases hr' with rfl | rfl
    · rw [hyname]
      decide
    · simp [hdims, hxname, hyname, siteTables, Table.value] at heq

end Canonic
