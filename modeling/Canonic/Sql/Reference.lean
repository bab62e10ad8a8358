import Canonic.Sql.Analytic

set_option autoImplicit false

/-! # An engine over numbers

An engine that follows the standard and can be run: its data are rational numbers, its literals are
given by a table, and what no rule of the standard is about is `NULL`. -/

namespace Canonic.Sql

/-! ## Rows -/

section

variable (numerals : String → Option ℚ)

/-- The literals of the table, and 1. -/
def refNumeral (t : String) : Option ℚ := if t = "1" then some 1 else numerals t

/-- The value of an expression, from the values of its columns. -/
def refEval (f : Column → Value ℚ) : Expr → Value ℚ
  | .column c => f c
  | .node .paren [e] => refEval f e
  | .node .and [a, b] => .and3 (refEval f a) (refEval f b)
  | .node .or [a, b] => .or3 (refEval f a) (refEval f b)
  | .node .eq [a, b] => .eq3 (refEval f a) (refEval f b)
  | .node .is [a, b] => .bool (decide (refEval f a = refEval f b))
  | .node .null [] => .null
  | .node (.bool b) [] => .bool b
  | .node .not [e] => .not3 (refEval f e)
  | .node .gte [a, b] => .ge3 (refEval f a) (refEval f b)
  | .node .lte [a, b] => .ge3 (refEval f b) (refEval f a)
  | .literal false t => ((refNumeral numerals t).map Value.data).getD .null
  | _ => .null

/-- The engine without its groups. -/
def refRows : Engine ℚ where
  other e f := refEval numerals f e
  bare _ _ := .null
  grouped _ _ _ _ := []

theorem eval_eq_refEval (E : Engine ℚ) (h : ∀ e f, E.other e f = refEval numerals f e)
    (s : Scope ℚ) (e : Expr) : E.eval s e = refEval numerals (E.column s) e := by
  fun_induction Engine.eval E s e with
  | case1 c => rfl
  | case2 e ih => rw [refEval, ih]
  | case3 a b iha ihb => rw [refEval, iha, ihb]
  | case4 a b iha ihb => rw [refEval, iha, ihb]
  | case5 a b iha ihb => rw [refEval, iha, ihb]
  | case6 a b iha ihb => rw [refEval, iha, ihb]
  | case7 => rfl
  | case8 b => rfl
  | case9 => exact h _ _

/-- A value read under other names. -/
theorem refEval_mapColumns {f g : Column → Value ℚ} {h k : Column → Column} (e : Expr)
    (hfg : ∀ c ∈ e.columns, f (h c) = g (k c)) :
    refEval numerals f (e.mapColumns fun c => .column (h c)) =
      refEval numerals g (e.mapColumns fun c => .column (k c)) := by
  induction e using Expr.induct with
  | column c => simpa [refEval] using hfg c (by simp)
  | literal s t => cases s <;> simp [refEval]
  | table d n => simp [refEval]
  | node op args ih =>
      have harg : ∀ a ∈ args, refEval numerals f (a.mapColumns fun c => .column (h c)) =
          refEval numerals g (a.mapColumns fun c => .column (k c)) := fun a ha =>
        ih a ha fun c hc => hfg c (Expr.mem_columns_node.mpr ⟨a, ha, hc⟩)
      simp only [Expr.mapColumns_node]
      match args with
      | [] => cases op <;> simp [refEval]
      | [a] =>
          have ha := harg a (by simp)
          cases op <;> simp [refEval, ha]
      | [a, b] =>
          have ha := harg a (by simp)
          have hb := harg b (by simp)
          cases op <;> simp [refEval, ha, hb]
      | a :: b :: c :: rest => cases op <;> simp [refEval]

/-! ## Groups -/

/-- The number a value is. -/
def Value.datum : Value ℚ → Option ℚ
  | .data q => some q
  | _ => none

/-- The sum of some numbers, `NULL` when there is none. -/
def sumNumbers : List ℚ → Value ℚ
  | [] => .null
  | q :: qs => .data (q + qs.sum)

theorem sumNumbers_perm {qs rs : List ℚ} (h : qs.Perm rs) : sumNumbers qs = sumNumbers rs := by
  cases qs with
  | nil => rw [h.nil_eq]
  | cons q qs =>
      cases rs with
      | nil => exact absurd h.eq_nil (by simp)
      | cons r rs =>
          have hsum := h.sum_eq
          rw [List.sum_cons, List.sum_cons] at hsum
          simp only [sumNumbers, hsum]

/-- The value of an aggregate call, from the values of its argument. -/
def foldCall : Agg → List (Value ℚ) → Value ℚ
  | .min, vs => .least vs
  | .sum, vs => sumNumbers (vs.filterMap Value.datum)
  | .count, vs => .data ((Value.known vs).length : ℕ)
  | _, _ => .null

theorem foldCall_perm {a : Agg} {vs ws : List (Value ℚ)} (h : vs.Perm ws) :
    foldCall a vs = foldCall a ws := by
  cases a with
  | min => exact Value.least_congr fun v _ => h.mem_iff
  | sum => exact sumNumbers_perm (h.filterMap _)
  | count =>
      have hlen : (Value.known vs).length = (Value.known ws).length := (h.filter _).length_eq
      simp only [foldCall, hlen]
  | _ => rfl

/-- The value of an aggregate call. -/
def refAggregate : Expr → List (Scope ℚ) → Value ℚ
  | .node (.agg a) [x], ss => foldCall a (ss.map fun s => (refRows numerals).eval s x)
  | _, _ => .null

theorem refAggregate_perm (e : Expr) {ss ss' : List (Scope ℚ)} (h : ss.Perm ss') :
    refAggregate numerals e ss = refAggregate numerals e ss' := by
  unfold refAggregate
  split
  · exact foldCall_perm (h.map _)
  · rfl

theorem refAggregate_congr (e : Expr) (f g : Column → Column) {ss ss' : List (Scope ℚ)}
    (h : List.Forall₂ (fun s s' => ∀ c ∈ e.columns,
      (refRows numerals).column s (f c) = (refRows numerals).column s' (g c)) ss ss') :
    refAggregate numerals (e.mapColumns fun c => .column (f c)) ss =
      refAggregate numerals (e.mapColumns fun c => .column (g c)) ss' := by
  cases e with
  | node op args =>
      simp only [Expr.mapColumns_node]
      match args with
      | [x] =>
          cases op with
          | agg a =>
              simp only [List.map_singleton, refAggregate]
              congr 1
              induction h with
              | nil => rfl
              | cons hs _ ih =>
                  rw [List.map_cons, List.map_cons, ih]
                  congr 1
                  rw [eval_eq_refEval numerals _ (fun _ _ => rfl),
                    eval_eq_refEval numerals _ fun _ _ => rfl]
                  exact refEval_mapColumns numerals x fun c hc =>
                    hs c (Expr.mem_columns_node.mpr ⟨x, List.mem_singleton_self x, hc⟩)
          | _ => rfl
      | [] => cases op <;> rfl
      | a :: b :: rest => cases op <;> rfl
  | _ => rfl

/-- Whether a row does not sort after another one. `NULL` comes first where the order descends. -/
def sortsUpTo (order : List (Bool × Expr)) (s t : Scope ℚ) : Prop :=
  keysBefore id (order.map (·.1)) ((refRows numerals).keyOf (order.map (·.2)) t)
    ((refRows numerals).keyOf (order.map (·.2)) s) = false

instance sortsUpTo_decidable (order : List (Bool × Expr)) :
    DecidableRel (sortsUpTo numerals order) := fun _ _ =>
  inferInstanceAs (Decidable (_ = false))

theorem sortsUpTo_trans (order : List (Bool × Expr)) {s t u : Scope ℚ}
    (hst : sortsUpTo numerals order s t) (htu : sortsUpTo numerals order t u) :
    sortsUpTo numerals order s u := by
  unfold sortsUpTo at *
  rw [← Bool.not_eq_true] at *
  intro hus
  have hlen : ∀ x : Scope ℚ, ((refRows numerals).keyOf (order.map (·.2)) x).length =
      (order.map (·.1)).length := by simp [Engine.keyOf]
  -- `t` is past `u`, or has its keys
  rcases @keysBefore_total _ _ id _ _ _ (hlen t) (hlen u) with h | h | h
  · exact hst (keysBefore_trans h hus)
  · rw [h] at hst
    exact hst hus
  · exact htu h

theorem sortsUpTo_total (order : List (Bool × Expr)) (s t : Scope ℚ) :
    sortsUpTo numerals order s t ∨ sortsUpTo numerals order t s := by
  unfold sortsUpTo
  by_contra h
  rw [not_or, Bool.not_eq_false, Bool.not_eq_false] at h
  have := keysBefore_trans h.1 h.2
  rw [keysBefore_irrefl] at this
  cases this

instance sortsUpTo_isTrans (order : List (Bool × Expr)) :
    IsTrans (Scope ℚ) (sortsUpTo numerals order) := ⟨fun _ _ _ => sortsUpTo_trans numerals order⟩

instance sortsUpTo_isTotal (order : List (Bool × Expr)) :
    Std.Total (sortsUpTo numerals order) := ⟨sortsUpTo_total numerals order⟩

/-- The rows of a partition in order. -/
def sortRows (order : List (Bool × Expr)) (ss : List (Scope ℚ)) : List (Scope ℚ) :=
  ss.insertionSort (sortsUpTo numerals order)

/-- The order of an `ORDER BY`. -/
def orderOf (args : List Expr) : List (Bool × Expr) :=
  args.filterMap fun e =>
    match e with
    | .node (.ordered d) [x] => some (d, x)
    | _ => none

theorem orderOf_map (order : List (Bool × Expr)) :
    orderOf (order.map fun o => .node (.ordered o.1) [o.2]) = order := by
  induction order with
  | nil => rfl
  | cons o order ih =>
      rw [List.map_cons, orderOf, List.filterMap_cons]
      exact congrArg (o :: ·) ih

/-- The value of a window function. -/
def refWindow : Expr → List (Scope ℚ) → Scope ℚ → Value ℚ
  | .node .window [.node (.func "CUME_DIST") [], .node (.func "PartitionBy") keys,
      .node (.func "OrderBy") [.node (.ordered false) [x]], .node (.func "") []], ss, s =>
      let E := refRows numerals
      let group := E.groupOf keys (E.keyOf keys s) ss
      .data ((group.countP fun s' => decide (E.eval s' x ≤ E.eval s x) : ℕ) / (group.length : ℚ))
  | .node .window [.node (.func "ROW_NUMBER") [], .node (.func "PartitionBy") keys,
      .node (.func "OrderBy") order, .node (.func "") []], ss, s =>
      let E := refRows numerals
      let group := E.groupOf keys (E.keyOf keys s) ss
      .data (((sortRows numerals (orderOf order) group).idxOf s + 1 : ℕ) : ℚ)
  | _, _, _ => .null

/-- The rows of a projection that aggregates or ranks. -/
def refGrouped : Distinct → List Projection → List Expr → List (Scope ℚ) →
    List (List (Value ℚ))
  | .none, ps, [], ss =>
      if ps.any fun p => p.expr.isWindow then
        ss.map fun s => ps.map fun p =>
          if p.expr.isWindow then refWindow numerals p.expr ss s
          else (refRows numerals).eval s p.expr
      else [ps.map fun a => refAggregate numerals a.expr ss]
  | .none, ps, keys, ss =>
      ((refRows numerals).groupKeys keys ss).map fun k =>
        k ++ (ps.drop keys.length).map fun a =>
          refAggregate numerals a.expr ((refRows numerals).groupOf keys k ss)
  | .on keys, ps, _, ss =>
      ((ss.map ((refRows numerals).keyOf keys)).dedup).map fun k =>
        ps.map fun p => (refRows numerals).eval
          ((((refRows numerals).groupOf keys k ss).head?).getD []) p.expr
  | .rows, _, _, _ => []

def refEngine : Engine ℚ := { refRows numerals with grouped := refGrouped numerals }

theorem refEngine_eval : (refEngine numerals).eval = (refRows numerals).eval := by
  funext s e
  rw [eval_eq_refEval numerals _ (fun _ _ => rfl), eval_eq_refEval numerals _ fun _ _ => rfl]
  rfl

theorem refEngine_keyOf : (refEngine numerals).keyOf = (refRows numerals).keyOf := by
  funext keys s
  rw [Engine.keyOf, refEngine_eval]
  rfl

theorem refEngine_groupOf : (refEngine numerals).groupOf = (refRows numerals).groupOf := by
  funext keys k ss
  rw [Engine.groupOf, refEngine_keyOf]
  rfl

theorem refEngine_groupKeys : (refEngine numerals).groupKeys = (refRows numerals).groupKeys := by
  funext keys ss
  rw [Engine.groupKeys, refEngine_keyOf]
  rfl

theorem refGrouped_keys (ps as : List Projection) (ss : List (Scope ℚ))
    (has : ∀ a ∈ as, a.expr.isWindow = false) :
    refGrouped numerals .none (ps ++ as) (ps.map (·.expr)) ss =
      ((refRows numerals).groupKeys (ps.map (·.expr)) ss).map fun k =>
        k ++ as.map fun a => refAggregate numerals a.expr
          ((refRows numerals).groupOf (ps.map (·.expr)) k ss) := by
  cases ps with
  | nil =>
      have hany : (as.any fun p => p.expr.isWindow) = false := by
        rw [List.any_eq_false]
        intro a ha
        rw [has a ha]
        simp
      have hall : (refRows numerals).groupOf [] [] ss = ss :=
        List.filter_eq_self.mpr fun _ _ => rfl
      have hkeys : (refRows numerals).groupKeys [] ss = [[]] := rfl
      rw [List.map_nil, List.nil_append, hkeys, List.map_singleton, hall, refGrouped, hany,
        if_neg (by simp), List.nil_append]
  | cons p ps =>
      rw [List.map_cons, refGrouped]
      · apply List.map_congr_left
        intro k _
        rw [List.length_cons, List.length_map, List.cons_append, List.drop_succ_cons,
          List.drop_left]
      · simp

theorem refGrouped_window (ps ws : List Projection) (ss : List (Scope ℚ))
    (hps : ∀ p ∈ ps, p.expr.isPlain = true) (hne : ws ≠ [])
    (hws : ∀ w ∈ ws, w.expr.isWindow = true) :
    refGrouped numerals .none (ps ++ ws) [] ss = ss.map fun s =>
      ps.map (fun p => (refRows numerals).eval s p.expr) ++
        ws.map fun w => refWindow numerals w.expr ss s := by
  obtain ⟨w, hw⟩ := List.exists_mem_of_ne_nil _ hne
  have hany : ((ps ++ ws).any fun p => p.expr.isWindow) = true :=
    List.any_eq_true.mpr ⟨w, List.mem_append_right _ hw, hws w hw⟩
  rw [refGrouped, hany, if_pos rfl]
  apply List.map_congr_left
  intro s _
  rw [List.map_append]
  congr 1
  · apply List.map_congr_left
    intro p hp
    rw [StandardSql.isWindow_eq_false_of_isPlain (hps p hp), if_neg (by simp)]
  · apply List.map_congr_left
    intro w hw
    rw [hws w hw, if_pos rfl]

theorem head_mem_of_mem {α : Type} {ss : List (Scope α)} {s : Scope α} (h : s ∈ ss) :
    ss.head?.getD [] ∈ ss := by
  cases ss with
  | nil => simp at h
  | cons t ss => simp

/-- The first row of a partition has number 1. -/
theorem refWindow_first (keys : List Expr) (order : List (Bool × Expr)) (ss : List (Scope ℚ))
    (k : List (Value ℚ)) (hne : (refRows numerals).groupOf keys k ss ≠ []) :
    ∃ s₀ ∈ (refRows numerals).groupOf keys k ss, ∀ s ∈ (refRows numerals).groupOf keys k ss,
      (∃ n : ℕ, refWindow numerals (rowNumber keys order) ss s = .data (id (n : ℚ))) ∧
      (refWindow numerals (rowNumber keys order) ss s = .data (id 1) ↔ s = s₀) ∧
      keysBefore id (order.map (·.1)) ((refRows numerals).keyOf (order.map (·.2)) s)
        ((refRows numerals).keyOf (order.map (·.2)) s₀) = false := by
  have hsorted := List.pairwise_insertionSort (sortsUpTo numerals order)
    ((refRows numerals).groupOf keys k ss)
  have hperm := List.perm_insertionSort (sortsUpTo numerals order)
    ((refRows numerals).groupOf keys k ss)
  have hwindow : ∀ s ∈ (refRows numerals).groupOf keys k ss,
      refWindow numerals (rowNumber keys order) ss s =
        .data (((sortRows numerals order ((refRows numerals).groupOf keys k ss)).idxOf s + 1 : ℕ) :
          ℚ) := by
    intro s hs
    have hkey := ((refRows numerals).mem_groupOf.mp hs).2
    simp only [rowNumber, refWindow, Expr.call, orderOf_map, hkey]
  change List.Pairwise _ (sortRows numerals order _) at hsorted
  change (sortRows numerals order _).Perm _ at hperm
  cases hrows : sortRows numerals order ((refRows numerals).groupOf keys k ss) with
  | nil =>
      rw [hrows] at hperm
      exact absurd hperm.nil_eq.symm hne
  | cons s₀ rest =>
      rw [hrows] at hsorted hperm hwindow
      refine ⟨s₀, hperm.mem_iff.mp List.mem_cons_self, ?_⟩
      intro s hs
      refine ⟨⟨_, hwindow s hs⟩, ?_, ?_⟩
      · rw [hwindow s hs]
        by_cases h : s = s₀
        · simp [h]
        · have hne' : (s₀ == s) = false := by simpa using fun h' => h h'.symm
          rw [List.idxOf_cons, hne']
          constructor
          · intro hone
            simp only [cond_false, id_eq, Value.data.injEq] at hone
            have hnat : rest.idxOf s + 1 + 1 = 1 := by exact_mod_cast hone
            omega
          · exact fun h' => absurd h' h
      · rcases List.mem_cons.mp (hperm.mem_iff.mpr hs) with rfl | hrest
        · exact keysBefore_irrefl _ _
        · exact (List.pairwise_cons.mp hsorted).1 s hrest

/-- The engine follows the standard. -/
def reference : StandardSql ℚ where
  engine := refEngine numerals
  aggregate := refAggregate numerals
  window := refWindow numerals
  number := id
  numeral := refNumeral numerals
  number_strictMono := strictMono_id
  numeral_one := rfl
  nullsFirst := id
  eval_congr e f g s s' _ h := by
    rw [eval_eq_refEval numerals _ (fun _ _ => rfl), eval_eq_refEval numerals _ fun _ _ => rfl]
    exact refEval_mapColumns numerals e h
  numeral_eq s t q h := by
    rw [eval_eq_refEval numerals _ (fun _ _ => rfl), Expr.number, refEval, h]
    rfl
  lte_eq s a b := by
    rw [eval_eq_refEval numerals _ (fun _ _ => rfl), eval_eq_refEval numerals _ (fun _ _ => rfl),
      eval_eq_refEval numerals _ fun _ _ => rfl]
    rfl
  not_eq s e := by
    rw [eval_eq_refEval numerals _ (fun _ _ => rfl), eval_eq_refEval numerals _ fun _ _ => rfl]
    rfl
  gte_eq s a b := by
    rw [eval_eq_refEval numerals _ (fun _ _ => rfl), eval_eq_refEval numerals _ (fun _ _ => rfl),
      eval_eq_refEval numerals _ fun _ _ => rfl]
    rfl
  grouped_perm ps as ss _ has := by
    rw [refEngine_groupKeys, refEngine_groupOf]
    exact List.Perm.of_eq (refGrouped_keys numerals ps as ss has)
  grouped_window ps ws ss hps hne hws := by
    rw [refEngine_eval]
    exact refGrouped_window numerals ps ws ss hps hne hws
  grouped_distinctOn keys ps ss _ := by
    rw [refEngine_groupOf, refEngine_keyOf, refEngine_eval]
    refine ⟨fun k => (((refRows numerals).groupOf keys k ss).head?).getD [], ?_, List.Perm.refl _⟩
    intro k hk
    obtain ⟨s, hs, rfl⟩ := List.mem_map.mp hk
    exact head_mem_of_mem ((refRows numerals).mem_groupOf.mpr ⟨hs, rfl⟩)
  aggregate_perm e _ _ h := refAggregate_perm numerals e h
  aggregate_congr e f g _ _ h := refAggregate_congr numerals e f g h
  rowNumber_first keys order ss k _ hne := by
    rw [refEngine_groupOf, refEngine_keyOf] at *
    exact refWindow_first numerals keys order ss k hne
  min_eq x ss := by rw [refEngine_eval]; rfl
  cumeDist_eq keys x ss s _ := by
    rw [refEngine_eval, refEngine_groupOf, refEngine_keyOf]
    rfl

end

end Canonic.Sql
