import Canonic.Sql.Eval

set_option autoImplicit false

/-! # Groups, aggregates and windows

What the SQL standard says of the operators that an engine is otherwise free in: comparisons order
the values that are not `NULL`, `GROUP BY` forms one group for each tuple of keys, an aggregate
reads the rows of a group, and a window function reads the rows of a partition. An engine that
follows the standard carries these laws; everything else about it stays open, and a result about
every such engine holds for every database. -/

namespace Canonic.Sql

/-! ## The order of values -/

namespace Value

variable {α : Type}

/-- `NULL` before the truth values, and these before the data. -/
def toSum : Value α → WithBot (Bool ⊕ₗ α)
  | .null => ⊥
  | .bool b => ((toLex (Sum.inl b) : Bool ⊕ₗ α) : WithBot (Bool ⊕ₗ α))
  | .data a => ((toLex (Sum.inr a) : Bool ⊕ₗ α) : WithBot (Bool ⊕ₗ α))

theorem toSum_injective : Function.Injective (toSum : Value α → WithBot (Bool ⊕ₗ α)) := by
  intro a b h
  cases a <;> cases b <;> simp_all [toSum]

instance instLinearOrderValue [LinearOrder α] : LinearOrder (Value α) where
  le a b := a.toSum ≤ b.toSum
  le_refl a := le_refl a.toSum
  le_trans _ _ _ := le_trans (α := WithBot (Bool ⊕ₗ α))
  le_antisymm _ _ hab hba := toSum_injective (le_antisymm hab hba)
  le_total a b := le_total a.toSum b.toSum
  toDecidableLE a b := inferInstanceAs (Decidable (a.toSum ≤ b.toSum))
  toDecidableEq := inferInstance

theorem le_iff_toSum [LinearOrder α] {a b : Value α} : a ≤ b ↔ a.toSum ≤ b.toSum := Iff.rfl

theorem data_le_data [LinearOrder α] {a b : α} : (Value.data a : Value α) ≤ .data b ↔ a ≤ b := by
  rw [le_iff_toSum]
  simp [toSum]

def not3 : Value α → Value α
  | .bool b => .bool !b
  | _ => .null

/-- `a >= b`, unknown as soon as one side is `NULL`. -/
def ge3 [LinearOrder α] (a b : Value α) : Value α :=
  if a = .null ∨ b = .null then .null else .bool (decide (b ≤ a))

theorem isTrue_ge3 [LinearOrder α] (a b : Value α) :
    (ge3 a b).isTrue = decide (a ≠ .null ∧ b ≠ .null ∧ b ≤ a) := by
  unfold ge3
  split
  next h =>
    rcases h with rfl | rfl
    · simp [isTrue]
    · simp [isTrue]
  next h =>
    rw [not_or] at h
    simp [h]

/-- The values of a column that an aggregate reads. -/
def known [DecidableEq α] (vs : List (Value α)) : List (Value α) := vs.filter fun v => v ≠ .null

@[simp] theorem mem_known [DecidableEq α] {vs : List (Value α)} {v : Value α} :
    v ∈ known vs ↔ v ∈ vs ∧ v ≠ .null := by
  simp [known]

/-- `MIN`: the least value that is not `NULL`. -/
def least [LinearOrder α] (vs : List (Value α)) : Value α := ((known vs).min?).getD .null

theorem least_eq_null_iff [LinearOrder α] {vs : List (Value α)} :
    least vs = .null ↔ known vs = [] := by
  unfold least
  cases h : (known vs).min? with
  | none => simpa using h
  | some m =>
      have hm : m ∈ known vs := List.min?_mem h
      have hne : known vs ≠ [] := List.ne_nil_of_mem hm
      simpa [hne] using (mem_known.mp hm).2

/-- `MIN` of values that are known somewhere is the least of them. -/
theorem isLeast_least [LinearOrder α] {vs : List (Value α)} (h : known vs ≠ []) :
    IsLeast {v | v ∈ vs ∧ v ≠ .null} (least vs) := by
  unfold least
  cases hm : (known vs).min? with
  | none => exact absurd (List.min?_eq_none_iff.mp hm) h
  | some m =>
      obtain ⟨hmem, hle⟩ := List.min?_eq_some_iff.mp hm
      exact ⟨mem_known.mp hmem, fun v hv => hle v (mem_known.mpr hv)⟩

/-- `MIN` reads the known values, in any order and any number. -/
theorem least_congr [LinearOrder α] {vs ws : List (Value α)}
    (h : ∀ v, v ≠ .null → (v ∈ vs ↔ v ∈ ws)) : least vs = least ws := by
  have hknown : ∀ v, v ∈ known vs ↔ v ∈ known ws := by
    intro v
    rw [mem_known, mem_known]
    constructor
    · rintro ⟨hv, hne⟩
      exact ⟨(h v hne).mp hv, hne⟩
    · rintro ⟨hv, hne⟩
      exact ⟨(h v hne).mpr hv, hne⟩
  by_cases hvs : known vs = []
  · have hws : known ws = [] := by
      apply List.eq_nil_iff_forall_not_mem.mpr
      intro v hv
      have := (hknown v).mpr hv
      simp [hvs] at this
    rw [least_eq_null_iff.mpr hvs, least_eq_null_iff.mpr hws]
  · have hws : known ws ≠ [] := by
      obtain ⟨v, hv⟩ := List.exists_mem_of_ne_nil _ hvs
      exact List.ne_nil_of_mem ((hknown v).mp hv)
    have hset : {v | v ∈ vs ∧ v ≠ .null} = {v | v ∈ ws ∧ v ≠ .null} := by
      ext v
      rw [Set.mem_ofPred_eq, Set.mem_ofPred_eq, ← mem_known, ← mem_known]
      exact hknown v
    exact (isLeast_least hvs).unique (hset ▸ isLeast_least hws)

end Value

/-! ## Groups -/

namespace Engine

variable {α : Type} [DecidableEq α] (E : Engine α)

/-- The keys of a row. -/
def keyOf (keys : List Expr) (s : Scope α) : List (Value α) := keys.map (E.eval s)

/-- The groups of `GROUP BY`: one for each tuple of keys, and one of all rows without keys. -/
def groupKeys (keys : List Expr) (ss : List (Scope α)) : List (List (Value α)) :=
  if keys = [] then [[]] else (ss.map (E.keyOf keys)).dedup

/-- The rows of a group. -/
def groupOf (keys : List Expr) (k : List (Value α)) (ss : List (Scope α)) : List (Scope α) :=
  ss.filter fun s => E.keyOf keys s = k

@[simp] theorem mem_groupOf {keys : List Expr} {k : List (Value α)} {ss : List (Scope α)}
    {s : Scope α} : s ∈ E.groupOf keys k ss ↔ s ∈ ss ∧ E.keyOf keys s = k := by
  simp [groupOf]

theorem mem_groupKeys {keys : List Expr} (h : keys ≠ []) {k : List (Value α)}
    {ss : List (Scope α)} : k ∈ E.groupKeys keys ss ↔ ∃ s ∈ ss, E.keyOf keys s = k := by
  simp [groupKeys, h]

theorem nodup_groupKeys (keys : List Expr) (ss : List (Scope α)) :
    (E.groupKeys keys ss).Nodup := by
  unfold groupKeys
  split
  · exact List.nodup_singleton _
  · exact List.nodup_dedup _

end Engine

namespace Engine

variable {α : Type} [DecidableEq α] (E : Engine α) {keys keys' : List Expr}
  {f : Scope α → Scope α} {ss : List (Scope α)}

/-- Rows that are read elsewhere under the same keys form the same groups. -/
theorem groupKeys_map (hnil : keys' = [] ↔ keys = [])
    (h : ∀ s ∈ ss, E.keyOf keys' (f s) = E.keyOf keys s) :
    E.groupKeys keys' (ss.map f) = E.groupKeys keys ss := by
  unfold groupKeys
  by_cases hk : keys = []
  · rw [if_pos (hnil.mpr hk), if_pos hk]
  · have hmap : (ss.map f).map (E.keyOf keys') = ss.map (E.keyOf keys) := by
      rw [List.map_map]
      exact List.map_congr_left h
    rw [if_neg fun h' => hk (hnil.mp h'), if_neg hk, hmap]

theorem groupOf_map (h : ∀ s ∈ ss, E.keyOf keys' (f s) = E.keyOf keys s) (k : List (Value α)) :
    E.groupOf keys' k (ss.map f) = (E.groupOf keys k ss).map f := by
  unfold groupOf
  rw [List.filter_map]
  congr 1
  apply List.filter_congr
  intro s hs
  rw [Function.comp_apply, h s hs]

end Engine

/-- One group for each key of some rows, or one of all rows where there is no key. -/
def groupsOf {β γ : Type} [DecidableEq γ] (keyed : Prop) [Decidable keyed] (key : β → List γ)
    (rows : List β) : List (List γ) :=
  if keyed then (rows.map key).dedup else [[]]

/-! ## Sorting -/

/-- Whether a value sorts before another one, `NULL` first or last as the engine has it. -/
def Value.before {α : Type} [LinearOrder α] (nullsFirst : Bool → Bool) (desc : Bool)
    (a b : Value α) : Bool :=
  if a = .null then !decide (b = .null) && nullsFirst desc
  else if b = .null then !nullsFirst desc
  else if desc then decide (b < a) else decide (a < b)

/-- The same for the keys of two rows, the first key first. -/
def keysBefore {α : Type} [LinearOrder α] (nullsFirst : Bool → Bool) :
    List Bool → List (Value α) → List (Value α) → Bool
  | d :: ds, a :: as, b :: bs =>
      a.before nullsFirst d b || (decide (a = b) && keysBefore nullsFirst ds as bs)
  | _, _, _ => false

section

variable {α : Type} [LinearOrder α] {nullsFirst : Bool → Bool}

theorem Value.before_irrefl {desc : Bool} (a : Value α) : a.before nullsFirst desc a = false := by
  unfold Value.before
  by_cases ha : a = .null
  · simp [ha]
  · simp [ha]

theorem Value.before_trans {desc : Bool} {a b c : Value α}
    (hab : a.before nullsFirst desc b = true) (hbc : b.before nullsFirst desc c = true) :
    a.before nullsFirst desc c = true := by
  unfold Value.before at *
  by_cases ha : a = .null
  · by_cases hb : b = .null
    · simp [ha, hb] at hab
    · by_cases hc : c = .null
      · simp_all
      · simp_all
  · by_cases hb : b = .null
    · by_cases hc : c = .null
      · simp_all
      · simp_all
    · by_cases hc : c = .null
      · simp_all
      · cases desc
        · simp only [ha, hb, hc, if_false, Bool.false_eq_true, decide_eq_true_eq] at hab hbc ⊢
          exact lt_trans hab hbc
        · simp only [ha, hb, hc, if_false, if_true, decide_eq_true_eq] at hab hbc ⊢
          exact lt_trans hbc hab

theorem Value.before_total {desc : Bool} (a b : Value α) :
    a.before nullsFirst desc b = true ∨ a = b ∨ b.before nullsFirst desc a = true := by
  unfold Value.before
  by_cases ha : a = .null
  · by_cases hb : b = .null
    · exact Or.inr (Or.inl (ha.trans hb.symm))
    · cases h : nullsFirst desc <;> simp [ha, hb]
  · by_cases hb : b = .null
    · cases h : nullsFirst desc <;> simp [ha, hb]
    · cases desc
      · simpa [ha, hb] using lt_trichotomy a b
      · simpa [ha, hb, @eq_comm _ a b] using lt_trichotomy b a

theorem keysBefore_irrefl (ds : List Bool) (a : List (Value α)) :
    keysBefore nullsFirst ds a a = false := by
  induction ds generalizing a with
  | nil => simp [keysBefore]
  | cons d ds ih =>
      cases a with
      | nil => simp [keysBefore]
      | cons x a => simp [keysBefore, Value.before_irrefl, ih]

theorem keysBefore_trans {ds : List Bool} {a b c : List (Value α)}
    (hab : keysBefore nullsFirst ds a b = true) (hbc : keysBefore nullsFirst ds b c = true) :
    keysBefore nullsFirst ds a c = true := by
  induction ds generalizing a b c with
  | nil => simp [keysBefore] at hab
  | cons d ds ih =>
      cases a <;> cases b <;> cases c <;> simp only [keysBefore, Bool.false_eq_true] at hab hbc ⊢
      simp only [Bool.or_eq_true, Bool.and_eq_true, decide_eq_true_eq] at hab hbc ⊢
      rcases hab with hab | ⟨rfl, hab⟩
      · rcases hbc with hbc | ⟨rfl, hbc⟩
        · exact Or.inl (Value.before_trans hab hbc)
        · exact Or.inl hab
      · rcases hbc with hbc | ⟨rfl, hbc⟩
        · exact Or.inl hbc
        · exact Or.inr ⟨rfl, ih hab hbc⟩

theorem keysBefore_total {ds : List Bool} {a b : List (Value α)} (ha : a.length = ds.length)
    (hb : b.length = ds.length) : keysBefore nullsFirst ds a b = true ∨ a = b ∨
      keysBefore nullsFirst ds b a = true := by
  induction ds generalizing a b with
  | nil =>
      right; left
      rw [List.length_eq_zero_iff.mp ha, List.length_eq_zero_iff.mp hb]
  | cons d ds ih =>
      cases a with
      | nil => simp at ha
      | cons x a =>
          cases b with
          | nil => simp at hb
          | cons y b =>
              simp only [keysBefore, Bool.or_eq_true, Bool.and_eq_true, decide_eq_true_eq,
                List.cons.injEq]
              rcases @Value.before_total _ _ nullsFirst d x y with h | rfl | h
              · exact Or.inl (Or.inl h)
              · rcases ih (by simpa using ha) (by simpa using hb) with h | h | h
                · exact Or.inl (Or.inr ⟨rfl, h⟩)
                · exact Or.inr (Or.inl ⟨rfl, h⟩)
                · exact Or.inr (Or.inr (Or.inr ⟨rfl, h⟩))
              · exact Or.inr (Or.inr (Or.inl h))

end

/-! ## Windows -/

/-- `ROW_NUMBER() OVER (PARTITION BY keys ORDER BY order)`, descending where an order says so. -/
def rowNumber (keys : List Expr) (order : List (Bool × Expr)) : Expr :=
  .node .window [.call "ROW_NUMBER" [], .call "PartitionBy" keys,
    .call "OrderBy" (order.map fun o => .node (.ordered o.1) [o.2]), .call "" []]

/-- `CUME_DIST() OVER (PARTITION BY keys ORDER BY x)`. -/
def cumeDist (keys : List Expr) (x : Expr) : Expr :=
  .node .window [.call "CUME_DIST" [], .call "PartitionBy" keys,
    .call "OrderBy" [.node (.ordered false) [x]], .call "" []]

/-- An expression that is a window function of the rows of its `SELECT`. -/
def Expr.isWindow : Expr → Bool
  | .node .window _ => true
  | _ => false

namespace Expr

@[simp] theorem isPlain_literal (isString : Bool) (t : String) :
    (Expr.literal isString t).isPlain = true := by
  simp [isPlain, nodes, readsGroup]

/-- Reading columns elsewhere leaves the kind of an expression. -/
theorem isPlain_mapColumns_column (f : Column → Column) (e : Expr) :
    (e.mapColumns fun c => .column (f c)).isPlain = e.isPlain := by
  induction e using Expr.induct with
  | column c => simp
  | literal s t => simp
  | table d n => simp
  | node op args ih =>
      rw [mapColumns_node, isPlain_node, isPlain_node, List.all_map]
      congr 1
      rw [Bool.eq_iff_iff, List.all_eq_true, List.all_eq_true]
      constructor
      · exact fun h a ha => (ih a ha).symm.trans (h a ha)
      · exact fun h a ha => (ih a ha).trans (h a ha)

theorem isWindow_mapColumns_column (f : Column → Column) (e : Expr) :
    (e.mapColumns fun c => .column (f c)).isWindow = e.isWindow := by
  cases e with
  | node op args =>
      rw [mapColumns_node]
      cases op <;> rfl
  | _ => simp [isWindow]

end Expr

/-! ## Engines that follow the standard -/

/-- An engine with its aggregates and window functions. Numbers are exact. -/
structure StandardSql (α : Type) [LinearOrder α] where
  engine : Engine α
  /-- The value of an aggregated expression over the rows of a group. -/
  aggregate : Expr → List (Scope α) → Value α
  /-- The value of a window function on one of the rows of a `SELECT`. -/
  window : Expr → List (Scope α) → Scope α → Value α
  number : ℚ → α
  /-- The number a literal stands for. -/
  numeral : String → Option ℚ
  number_strictMono : StrictMono number
  numeral_one : numeral "1" = some 1
  /-- Where `NULL` is sorted, for a descending order and for an ascending one. -/
  nullsFirst : Bool → Bool
  /-- An expression of one row reads the columns it names, wherever they are read. -/
  eval_congr : ∀ (e : Expr) (f g : Column → Column) {s s' : Scope α}, e.isPlain = true →
    (∀ c ∈ e.columns, engine.column s (f c) = engine.column s' (g c)) →
    engine.eval s (e.mapColumns fun c => .column (f c)) =
      engine.eval s' (e.mapColumns fun c => .column (g c))
  numeral_eq : ∀ s t q, numeral t = some q → engine.eval s (.number t) = .data (number q)
  not_eq : ∀ s e, engine.eval s (.node .not [e]) = .not3 (engine.eval s e)
  gte_eq : ∀ s a b, engine.eval s (.node .gte [a, b]) = .ge3 (engine.eval s a) (engine.eval s b)
  lte_eq : ∀ s a b, engine.eval s (.node .lte [a, b]) = .ge3 (engine.eval s b) (engine.eval s a)
  /-- A `SELECT` with keys and aggregates has one row for each group. -/
  grouped_perm : ∀ (ps as : List Projection) (ss : List (Scope α)),
    (∀ p ∈ ps, p.expr.isPlain = true) → (∀ a ∈ as, a.expr.isWindow = false) →
      (engine.grouped .none (ps ++ as) (ps.map (·.expr)) ss).Perm
        ((engine.groupKeys (ps.map (·.expr)) ss).map fun k =>
          k ++ as.map fun a => aggregate a.expr (engine.groupOf (ps.map (·.expr)) k ss))
  /-- A `SELECT` with windows has one row for each row it reads. -/
  grouped_window : ∀ (ps ws : List Projection) (ss : List (Scope α)),
    (∀ p ∈ ps, p.expr.isPlain = true) → ws ≠ [] → (∀ w ∈ ws, w.expr.isWindow = true) →
      engine.grouped .none (ps ++ ws) [] ss = ss.map fun s =>
        ps.map (fun p => engine.eval s p.expr) ++ ws.map fun w => window w.expr ss s
  /-- `DISTINCT ON` keeps some row for each tuple of keys. -/
  grouped_distinctOn : ∀ (keys : List Expr) (ps : List Projection) (ss : List (Scope α)),
    (∀ p ∈ ps, p.expr.isPlain = true) → ∃ pick : List (Value α) → Scope α,
      (∀ k ∈ ss.map (engine.keyOf keys), pick k ∈ engine.groupOf keys k ss) ∧
      (engine.grouped (.on keys) ps [] ss).Perm
        ((ss.map (engine.keyOf keys)).dedup.map fun k =>
          ps.map fun p => engine.eval (pick k) p.expr)
  /-- An aggregate reads a bag of rows, -/
  aggregate_perm : ∀ (e : Expr) {ss ss' : List (Scope α)}, ss.Perm ss' →
    aggregate e ss = aggregate e ss'
  /-- and of each row the columns of its expression, wherever they are read. -/
  aggregate_congr : ∀ (e : Expr) (f g : Column → Column) {ss ss' : List (Scope α)},
    List.Forall₂ (fun s s' => ∀ c ∈ e.columns, engine.column s (f c) = engine.column s' (g c))
      ss ss' →
    aggregate (e.mapColumns fun c => .column (f c)) ss =
      aggregate (e.mapColumns fun c => .column (g c)) ss'
  min_eq : ∀ x ss, aggregate (.node (.agg .min) [x]) ss = .least (ss.map fun s => engine.eval s x)
  /-- The fraction of a partition up to a row, where every row has a value. -/
  cumeDist_eq : ∀ keys x ss s, (∀ s' ∈ ss, engine.eval s' x ≠ .null) →
    window (cumeDist keys x) ss s = .data (number
      (((engine.groupOf keys (engine.keyOf keys s) ss).countP fun s' =>
          decide (engine.eval s' x ≤ engine.eval s x)) /
        (engine.groupOf keys (engine.keyOf keys s) ss).length))
  /-- Of the rows of a partition, one that no other sorts before has number 1. -/
  rowNumber_first : ∀ keys order ss k, ss.Nodup → engine.groupOf keys k ss ≠ [] →
    ∃ s₀ ∈ engine.groupOf keys k ss, ∀ s ∈ engine.groupOf keys k ss,
      (∃ n : ℕ, window (rowNumber keys order) ss s = .data (number n)) ∧
      (window (rowNumber keys order) ss s = .data (number 1) ↔ s = s₀) ∧
      keysBefore nullsFirst (order.map (·.1)) (engine.keyOf (order.map (·.2)) s)
        (engine.keyOf (order.map (·.2)) s₀) = false

/-! ## Reading what was projected -/

/-- Projections of one name project one value, so a name says which. -/
def Projection.Consistent (ps : List Projection) : Prop :=
  ∀ p ∈ ps, ∀ q ∈ ps, p.name = q.name → p.expr = q.expr

theorem Table.value_projections {α : Type} {ps : List Projection} (h : Projection.Consistent ps)
    (f : Expr → Value α) {p : Projection} (hp : p ∈ ps) (rows) :
    (Table.mk (ps.map (·.name)) rows).value (ps.map fun q => f q.expr) p.name = f p.expr := by
  unfold Table.value
  induction ps with
  | nil => simp at hp
  | cons q ps ih =>
      simp only [List.map_cons, List.zip_cons_cons, List.lookup_cons]
      by_cases hname : p.name = q.name
      · have hexpr : p.expr = q.expr := h p hp q List.mem_cons_self hname
        simp [hname, hexpr]
      · have hps : p ∈ ps := by
          rcases List.mem_cons.mp hp with rfl | hps
          · exact absurd rfl hname
          · exact hps
        simp only [beq_eq_false_iff_ne.mpr hname]
        exact ih (fun a ha b hb => h a (List.mem_cons_of_mem _ ha) b (List.mem_cons_of_mem _ hb))
          hps

/-- The row of a common table expression, in scope under its name. -/
def cteScope {α : Type} (name : String) (ps : List Projection) (f : Expr → Value α) : Scope α :=
  [(name, ⟨ps.map (·.name), some (ps.map fun p => f p.expr)⟩)]

/-- A projected column, read by its name next to other aliases. -/
theorem Engine.eval_projected {α : Type} [DecidableEq α] (E : Engine α) {name : String}
    (hname : name ≠ "") {ps : List Projection} (h : Projection.Consistent ps)
    (f : Expr → Value α) {p : Projection} (hp : p ∈ ps) (s : Scope α) :
    E.eval ((name, ⟨ps.map (·.name), some (ps.map fun p => f p.expr)⟩) :: s)
      (Expr.col p.name name) = f p.expr := by
  rw [Expr.col, Engine.eval, Engine.column, if_neg hname]
  have hcons := Scope.value_cons_self name (Table.mk (ps.map (·.name)) [])
    (ps.map fun q => f q.expr)
    s p.name
  rw [Table.value_projections h f hp] at hcons
  exact hcons

theorem Engine.eval_cteScope {α : Type} [DecidableEq α] (E : Engine α) {name : String}
    (hname : name ≠ "") {ps : List Projection} (h : Projection.Consistent ps)
    (f : Expr → Value α) {p : Projection} (hp : p ∈ ps) :
    E.eval (cteScope name ps f) (Expr.col p.name name) = f p.expr :=
  E.eval_projected hname h f hp []

namespace StandardSql

variable {α : Type} [LinearOrder α] (S : StandardSql α)

/-- What a projection is worth on a row of a `SELECT` without keys. -/
def rowValue (ss : List (Scope α)) (s : Scope α) (e : Expr) : Value α :=
  if e.isWindow then S.window e ss s else S.engine.eval s e

theorem isPlain_eq_false_of_isWindow {e : Expr} (h : e.isWindow = true) : e.isPlain = false := by
  cases e with
  | node op args =>
      cases op <;> simp_all [Expr.isWindow, Op.readsGroup]
  | _ => simp [Expr.isWindow] at h

theorem isWindow_eq_false_of_isPlain {e : Expr} (h : e.isPlain = true) : e.isWindow = false := by
  cases hw : e.isWindow with
  | false => rfl
  | true => rw [isPlain_eq_false_of_isWindow hw] at h; cases h

theorem rowValue_plain {e : Expr} (h : e.isPlain = true) (ss : List (Scope α)) (s : Scope α) :
    S.rowValue ss s e = S.engine.eval s e := by
  rw [rowValue, isWindow_eq_false_of_isPlain h, if_neg (by simp)]

/-- The rows of a `SELECT` with windows. -/
theorem project_window {ps ws : List Projection} (hps : ∀ p ∈ ps, p.expr.isPlain = true)
    (hne : ws ≠ []) (hws : ∀ w ∈ ws, w.expr.isWindow = true) (ss : List (Scope α)) :
    S.engine.project .none (ps ++ ws) [] ss =
      ss.map fun s => (ps ++ ws).map fun p => S.rowValue ss s p.expr := by
  obtain ⟨w, hw⟩ := List.exists_mem_of_ne_nil _ hne
  have hall : ((ps ++ ws).all fun p => p.expr.isPlain) = false := by
    rw [List.all_eq_false]
    exact ⟨w, List.mem_append_right _ hw, by simp [isPlain_eq_false_of_isWindow (hws w hw)]⟩
  rw [Engine.project, hall, Bool.and_false, if_neg (by simp), S.grouped_window ps ws ss hps hne hws]
  apply List.map_congr_left
  intro s _
  rw [List.map_append]
  congr 1
  · apply List.map_congr_left
    intro p hp
    rw [rowValue, isWindow_eq_false_of_isPlain (hps p hp), if_neg (by simp)]
  · apply List.map_congr_left
    intro w hw
    rw [rowValue, hws w hw, if_pos rfl]

/-- The rows of a `SELECT` with keys and aggregates. -/
theorem project_grouped {ps as : List Projection} (hps : ∀ p ∈ ps, p.expr.isPlain = true)
    (has : ps ≠ [] ∨ ∃ a ∈ as, a.expr.isPlain = false) (hwin : ∀ a ∈ as, a.expr.isWindow = false)
    (ss : List (Scope α)) :
    (S.engine.project .none (ps ++ as) (ps.map (·.expr)) ss).Perm
      ((S.engine.groupKeys (ps.map (·.expr)) ss).map fun k =>
        k ++ as.map fun a => S.aggregate a.expr (S.engine.groupOf (ps.map (·.expr)) k ss)) := by
  have hall : ((ps.map (·.expr)).isEmpty && (ps ++ as).all fun p => p.expr.isPlain) = false := by
    rcases has with hne | ⟨a, ha, hplain⟩
    · cases ps with
      | nil => exact absurd rfl hne
      | cons p ps => rfl
    · rw [Bool.and_eq_false_iff, List.all_eq_false]
      exact Or.inr ⟨a, List.mem_append_right _ ha, by simp [hplain]⟩
  rw [Engine.project, hall, if_neg (by simp)]
  exact S.grouped_perm ps as ss hps hwin

/-- The rows of a grouped `SELECT` over rows that are read in scope: one for each key of theirs. -/
theorem project_over {ps as : List Projection} (hps : ∀ p ∈ ps, p.expr.isPlain = true)
    (has : ps ≠ [] ∨ ∃ a ∈ as, a.expr.isPlain = false) (hwin : ∀ a ∈ as, a.expr.isWindow = false)
    {β : Type} {rows : List β} {f : β → Scope α} {key : β → List (Value α)}
    {ss : List (Scope α)} (hss : ss.Perm (rows.map f))
    (hkey : ∀ r ∈ rows, S.engine.keyOf (ps.map (·.expr)) (f r) = key r) :
    (S.engine.project .none (ps ++ as) (ps.map (·.expr)) ss).Perm
      ((groupsOf (ps ≠ []) key rows).map fun k =>
        k ++ as.map fun a => S.aggregate a.expr ((rows.filter fun r => key r = k).map f)) := by
  refine (S.project_grouped hps has hwin ss).trans ?_
  have hkeys : (S.engine.groupKeys (ps.map (·.expr)) ss).Perm (groupsOf (ps ≠ []) key rows) := by
    unfold Engine.groupKeys groupsOf
    by_cases hnil : ps = []
    · simp [hnil]
    · have hmap : (rows.map f).map (S.engine.keyOf (ps.map (·.expr))) = rows.map key := by
        rw [List.map_map]
        exact List.map_congr_left hkey
      rw [if_neg (by simpa using hnil), if_pos hnil, ← hmap]
      exact (hss.map _).dedup
  have hrow : (fun k => k ++ as.map fun a => S.aggregate a.expr
      (S.engine.groupOf (ps.map (·.expr)) k ss)) = fun k => k ++ as.map fun a =>
        S.aggregate a.expr ((rows.filter fun r => key r = k).map f) := by
    funext k
    congr 1
    apply List.map_congr_left
    intro a _
    apply S.aggregate_perm
    have hfilter : S.engine.groupOf (ps.map (·.expr)) k (rows.map f) =
        (rows.filter fun r => key r = k).map f := by
      unfold Engine.groupOf
      rw [List.filter_map]
      congr 1
      apply List.filter_congr
      intro r hr
      rw [Function.comp_apply, hkey r hr]
    rw [← hfilter]
    exact hss.filter _
  rw [hrow]
  exact hkeys.map _

/-- Whether a row is the first of its partition. -/
def isFirst (keys : List Expr) (order : List (Bool × Expr)) (ss : List (Scope α)) (s : Scope α) :
    Prop :=
  S.window (rowNumber keys order) ss s = .data (S.number 1)

instance isFirst_decidable (keys : List Expr) (order : List (Bool × Expr)) (ss : List (Scope α))
    (s : Scope α) : Decidable (S.isFirst keys order ss s) :=
  inferInstanceAs (Decidable (_ = _))

/-- Each partition has one first row, and no row of it sorts before that one. -/
theorem exists_first (keys : List Expr) (order : List (Bool × Expr)) {ss : List (Scope α)}
    (hss : ss.Nodup) : ∃ first : List (Value α) → Scope α, ∀ s ∈ ss,
      (first (S.engine.keyOf keys s) ∈ ss ∧
        S.engine.keyOf keys (first (S.engine.keyOf keys s)) = S.engine.keyOf keys s) ∧
      (S.isFirst keys order ss s ↔ s = first (S.engine.keyOf keys s)) ∧
      keysBefore S.nullsFirst (order.map (·.1)) (S.engine.keyOf (order.map (·.2)) s)
        (S.engine.keyOf (order.map (·.2)) (first (S.engine.keyOf keys s))) = false := by
  have hgroup : ∀ k, ∃ first : Scope α, S.engine.groupOf keys k ss ≠ [] →
      first ∈ S.engine.groupOf keys k ss ∧ ∀ s ∈ S.engine.groupOf keys k ss,
        (S.isFirst keys order ss s ↔ s = first) ∧
        keysBefore S.nullsFirst (order.map (·.1)) (S.engine.keyOf (order.map (·.2)) s)
          (S.engine.keyOf (order.map (·.2)) first) = false := by
    intro k
    by_cases hne : S.engine.groupOf keys k ss = []
    · exact ⟨[], fun h => absurd hne h⟩
    · obtain ⟨first, hfirst, hall⟩ := S.rowNumber_first keys order ss k hss hne
      exact ⟨first, fun _ => ⟨hfirst, fun s hs => (hall s hs).2⟩⟩
  choose first hfirst using hgroup
  refine ⟨first, ?_⟩
  intro s hs
  have hmem : s ∈ S.engine.groupOf keys (S.engine.keyOf keys s) ss :=
    S.engine.mem_groupOf.mpr ⟨hs, rfl⟩
  obtain ⟨hin, hall⟩ := hfirst _ (List.ne_nil_of_mem hmem)
  exact ⟨S.engine.mem_groupOf.mp hin, hall s hmem⟩

end StandardSql

/-! ## Joined rows -/

section

variable {α : Type} [DecidableEq α] (E : Engine α) (db : String → Table α)

/-- Each row is joined on its own. -/
theorem Query.evalItems_flatMap (ctes : String → Table α) (items : List (FromItem Query)) :
    ∀ ss : List (Scope α), Query.evalItems E db ctes items ss =
      ss.flatMap fun s => Query.evalItems E db ctes items [s] := by
  induction items with
  | nil =>
      intro ss
      simp
  | cons i is ih =>
      intro ss
      rw [Query.evalItems_cons, ih, List.flatMap_assoc]
      apply List.flatMap_congr
      intro s _
      rw [Query.evalItems_cons, ih (List.flatMap _ [s]), List.flatMap_singleton]

/-- A join adds its own alias. -/
theorem Engine.lookup_join {kind : JoinKind} {a b : String} (h : b ≠ a) {on : List Expr}
    {t : Table α} {s s' : Scope α} (hs : s' ∈ E.join kind a on t s) : s'.lookup b = s.lookup b := by
  have hadd : ∀ x : Bound α, List.lookup b ((a, x) :: s) = s.lookup b := by
    intro x
    rw [List.lookup_cons, beq_eq_false_iff_ne.mpr h]
  have hmatched : ∀ s'' ∈ (t.rows.map fun r => ((a, ⟨t.columns, some r⟩) :: s : Scope α)).filter
      (fun s'' => E.holds s'' on), s''.lookup b = s.lookup b := by
    intro s'' hs''
    obtain ⟨r, -, rfl⟩ := List.mem_map.mp (List.mem_filter.mp hs'').1
    exact hadd _
  unfold Engine.join at hs
  cases kind with
  | left =>
      simp only at hs
      split at hs
      · rw [List.mem_singleton.mp hs]
        exact hadd _
      · exact hmatched s' hs
  | _ => exact hmatched s' hs

/-- Joins leave the other aliases as they are. -/
theorem Query.lookup_evalItems {ctes : String → Table α} {items : List (FromItem Query)}
    {b : String} (h : ∀ i ∈ items, i.alias_ ≠ b) {s s' : Scope α}
    (hs : s' ∈ Query.evalItems E db ctes items [s]) : s'.lookup b = s.lookup b := by
  induction items generalizing s with
  | nil =>
      rw [Query.evalItems_nil, List.mem_singleton] at hs
      rw [hs]
  | cons i is ih =>
      rw [Query.evalItems_cons, Query.evalItems_flatMap, List.flatMap_singleton] at hs
      obtain ⟨t, ht, hs⟩ := List.mem_flatMap.mp hs
      rw [ih (fun j hj => h j (List.mem_cons_of_mem _ hj)) hs]
      exact E.lookup_join (Ne.symm (h i List.mem_cons_self)) ht

end

end Canonic.Sql
