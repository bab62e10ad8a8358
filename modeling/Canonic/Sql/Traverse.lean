import Canonic.Except
import Canonic.Sql.Query

set_option autoImplicit false

/-! # Traversals of expression trees

The columns and tables of a tree, constructor by constructor, and what a rewriting does to them.
A walk in breadth-first order lists the same nodes as the recursion over the tree, so membership is
decided by the structure; a rewriting of column references reads what the replacements read. -/

namespace Canonic.Sql

namespace Expr

/-- Induction over a tree with one hypothesis for all arguments of a node. -/
@[elab_as_elim]
theorem induct {P : Expr → Prop} (column : ∀ c, P (.column c))
    (literal : ∀ s t, P (.literal s t)) (table : ∀ d n, P (.table d n))
    (node : ∀ op args, (∀ a ∈ args, P a) → P (.node op args)) : ∀ e, P e :=
  fun e => go e
where
  go : ∀ e, P e
    | .column c => column c
    | .literal s t => literal s t
    | .table d n => table d n
    | .node op args => node op args (goList args)
  goList : ∀ es : List Expr, ∀ a ∈ es, P a
    | [], _, h => absurd h List.not_mem_nil
    | e :: es, a, h =>
        (List.mem_cons.mp h).elim (fun hae => hae ▸ go e) fun hes => goList es a hes

/-! ## Walking in levels -/

theorem nodesList_eq (es : List Expr) : nodesList es = es.flatMap nodes := by
  induction es with
  | nil => simp [nodesList]
  | cons e es ih => simp [nodesList, ih]

theorem mem_nodes {x e : Expr} : x ∈ e.nodes ↔ x = e ∨ ∃ a ∈ e.children, x ∈ a.nodes := by
  cases e <;> simp [nodes, children, nodesList_eq]

theorem depth_le_depthList {e : Expr} {es : List Expr} (h : e ∈ es) : e.depth ≤ depthList es := by
  induction es with
  | nil => simp at h
  | cons e' es ih =>
      rw [depthList]
      rcases List.mem_cons.mp h with rfl | h
      · exact Nat.le_max_left _ _
      · exact Nat.le_trans (ih h) (Nat.le_max_right _ _)

theorem depthList_le {es : List Expr} {n : Nat} (h : ∀ e ∈ es, e.depth ≤ n) :
    depthList es ≤ n := by
  induction es with
  | nil => simp [depthList]
  | cons e es ih =>
      rw [depthList]
      exact Nat.max_le.mpr ⟨h e (by simp), ih fun e' he' => h e' (by simp [he'])⟩

/-- A child is one level lower. -/
theorem depth_child {e a : Expr} {n : Nat} (ha : a ∈ e.children) (h : e.depth ≤ n + 1) :
    a.depth ≤ n := by
  cases e with
  | node op args =>
      rw [depth] at h
      have := depth_le_depthList (show a ∈ args from ha)
      omega
  | column | literal | table => simp [children] at ha

theorem mem_levels {x : Expr} (n : Nat) :
    ∀ {es : List Expr}, depthList es ≤ n → (x ∈ levels n es ↔ ∃ e ∈ es, x ∈ e.nodes) := by
  have hpos (e : Expr) : 1 ≤ e.depth := by cases e <;> simp [depth]
  induction n with
  | zero =>
      intro es h
      cases es with
      | nil => simp [levels]
      | cons e es =>
          rw [depthList] at h
          have := hpos e
          omega
  | succ n ih =>
      intro es h
      have hchildren : depthList (es.flatMap children) ≤ n := by
        refine depthList_le fun a ha => ?_
        obtain ⟨e, he, hae⟩ := List.mem_flatMap.mp ha
        exact depth_child hae (Nat.le_trans (depth_le_depthList he) h)
      rw [levels, List.mem_append, ih hchildren]
      constructor
      · rintro (hx | ⟨a, ha, hxa⟩)
        · exact ⟨x, hx, mem_nodes.mpr (.inl rfl)⟩
        · obtain ⟨e, he, hae⟩ := List.mem_flatMap.mp ha
          exact ⟨e, he, mem_nodes.mpr (.inr ⟨a, hae, hxa⟩)⟩
      · rintro ⟨e, he, hxe⟩
        rcases mem_nodes.mp hxe with rfl | ⟨a, hae, hxa⟩
        · exact .inl he
        · exact .inr ⟨a, List.mem_flatMap.mpr ⟨e, he, hae⟩, hxa⟩

/-- The walk visits the nodes of the tree. -/
theorem mem_walk {x e : Expr} : x ∈ e.walk ↔ x ∈ e.nodes := by
  rw [walk, mem_levels _ (by simp [depthList])]
  simp

/-! ## Columns and tables, by the constructor -/

theorem mem_columns {c : Column} {e : Expr} : c ∈ e.columns ↔ .column c ∈ e.nodes := by
  simp only [columns, List.mem_filterMap, mem_walk]
  constructor
  · rintro ⟨x, hx, hc⟩
    cases x <;> simp_all [asColumn]
  · exact fun h => ⟨_, h, rfl⟩

theorem mem_tables {t : String × String} {e : Expr} :
    t ∈ e.tables ↔ .table t.1 t.2 ∈ e.nodes := by
  simp only [tables, List.mem_filterMap, mem_walk]
  constructor
  · rintro ⟨x, hx, ht⟩
    cases x with
    | table d n =>
        obtain rfl := Option.some.inj ht
        exact hx
    | column | literal | node => simp [asTable] at ht
  · exact fun h => ⟨_, h, rfl⟩

@[simp] theorem mem_columns_column {c d : Column} : c ∈ (Expr.column d).columns ↔ c = d := by
  simp [mem_columns, nodes]

@[simp] theorem mem_columns_literal {c : Column} {s : Bool} {t : String} :
    c ∉ (Expr.literal s t).columns := by
  simp [mem_columns, nodes]

@[simp] theorem mem_columns_table {c : Column} {d n : String} :
    c ∉ (Expr.table d n).columns := by
  simp [mem_columns, nodes]

@[simp] theorem mem_columns_node {c : Column} {op : Op} {args : List Expr} :
    c ∈ (Expr.node op args).columns ↔ ∃ a ∈ args, c ∈ a.columns := by
  simp [mem_columns, nodes, nodesList_eq]

@[simp] theorem mem_tables_column {t : String × String} {d : Column} :
    t ∉ (Expr.column d).tables := by
  simp [mem_tables, nodes]

@[simp] theorem mem_tables_literal {t : String × String} {s : Bool} {x : String} :
    t ∉ (Expr.literal s x).tables := by
  simp [mem_tables, nodes]

@[simp] theorem mem_tables_table {t : String × String} {d n : String} :
    t ∈ (Expr.table d n).tables ↔ t = (d, n) := by
  simp [mem_tables, nodes, Prod.ext_iff]

@[simp] theorem mem_tables_node {t : String × String} {op : Op} {args : List Expr} :
    t ∈ (Expr.node op args).tables ↔ ∃ a ∈ args, t ∈ a.tables := by
  simp [mem_tables, nodes, nodesList_eq]

/-! ## Rewriting columns -/

@[simp] theorem mapColumns_column (f : Column → Expr) (c : Column) :
    (Expr.column c).mapColumns f = f c := rfl

@[simp] theorem mapColumns_literal (f : Column → Expr) (s : Bool) (t : String) :
    (Expr.literal s t).mapColumns f = .literal s t := rfl

@[simp] theorem mapColumns_table (f : Column → Expr) (d n : String) :
    (Expr.table d n).mapColumns f = .table d n := rfl

theorem mapColumnsList_eq (f : Column → Expr) (es : List Expr) :
    mapColumnsList f es = es.map (mapColumns f) := by
  induction es with
  | nil => simp [mapColumnsList]
  | cons e es ih => simp [mapColumnsList, ih]

@[simp] theorem mapColumns_node (f : Column → Expr) (op : Op) (args : List Expr) :
    (Expr.node op args).mapColumns f = .node op (args.map (mapColumns f)) := by
  simp only [mapColumns, mapColumnsList_eq]

/-- A rewriting that keeps every column of a tree keeps the tree. -/
theorem mapColumns_id {f : Column → Expr} {e : Expr} (h : ∀ c ∈ e.columns, f c = .column c) :
    e.mapColumns f = e := by
  induction e using induct with
  | column c => simpa using h
  | literal s t => simp
  | table d n => simp
  | node op args ih =>
      have hargs : args.map (mapColumns f) = args.map id :=
        List.map_congr_left fun a ha => ih a ha fun c hc => h c (mem_columns_node.mpr ⟨a, ha, hc⟩)
      rw [mapColumns_node, hargs, List.map_id]

/-- Two rewritings of a tree agree where they agree on its columns. -/
theorem mapColumns_eq_iff {f g : Column → Expr} {e : Expr} :
    e.mapColumns f = e.mapColumns g ↔ ∀ c ∈ e.columns, f c = g c := by
  induction e using induct with
  | column c => simp
  | literal s t => simp
  | table d n => simp
  | node op args ih =>
      rw [mapColumns_node, mapColumns_node, Expr.node.injEq]
      simp only [true_and, List.map_inj_left, mem_columns_node]
      constructor
      · rintro h c ⟨a, ha, hc⟩
        exact (ih a ha).mp (h a ha) c hc
      · exact fun h a ha => (ih a ha).mpr fun c hc => h c ⟨a, ha, hc⟩

end Expr

end Canonic.Sql
