import Mathlib
import Canonic.Sql.Traverse

set_option autoImplicit false

/-! # Aggregates over bags of rows

What an expression with aggregate calls is worth over a group of rows. `SUM`, `MIN` and `MAX` fold
the values that are not `NULL`, `COUNT` counts them, and every other aggregate, operator and
function is a parameter, so a result holds for every engine. Numbers are exact: rounding and
overflow are left out. -/

namespace Canonic.Sql

/-! ## Folding values -/

section Fold

variable {α : Type} (op : α → α → α) [Std.Commutative op] [Std.Associative op]

/-- An aggregate that skips `NULL`, and is `NULL` where nothing else is found. -/
def foldValues (vs : Multiset (Option α)) : Option α := vs.fold (Option.merge op) none

@[simp] theorem foldValues_zero : foldValues op 0 = none := rfl

theorem foldValues_cons (v : Option α) (vs : Multiset (Option α)) :
    foldValues op (v ::ₘ vs) = v.merge op (foldValues op vs) :=
  Multiset.fold_cons_left _ _ _ _

@[simp] theorem foldValues_singleton (v : Option α) : foldValues op {v} = v := by
  rw [← Multiset.cons_zero, foldValues_cons, foldValues_zero, Option.merge_none_right]

theorem foldValues_add (vs ws : Multiset (Option α)) :
    foldValues op (vs + ws) = (foldValues op vs).merge op (foldValues op ws) := by
  have h := Multiset.fold_add (Option.merge op) none none vs ws
  rwa [Option.merge_none_left] at h

/-- A fold that ignores repetition is one of the distinct values. -/
theorem foldValues_dedup [DecidableEq α] [Std.IdempotentOp op] (vs : Multiset (Option α)) :
    foldValues op vs.dedup = foldValues op vs :=
  Multiset.fold_dedup_idem _ _ _

/-- Rows that do not count are `NULL` to a fold. -/
theorem foldValues_filter {ρ : Type} (keep : ρ → Bool) (f : ρ → Option α) (rows : Multiset ρ) :
    foldValues op ((rows.filter fun r => keep r = true).map f) =
      foldValues op (rows.map fun r => if keep r then f r else none) := by
  induction rows using Multiset.induction with
  | empty => rfl
  | cons r rows ih =>
      rw [Multiset.map_cons, foldValues_cons, ← ih, Multiset.filter_cons]
      by_cases hr : keep r = true
      · rw [if_pos hr, if_pos hr, Multiset.singleton_add, Multiset.map_cons, foldValues_cons]
      · rw [if_neg hr, if_neg hr, zero_add, Option.merge_none_left]

end Fold

/-- How an aggregate combines two values: `MIN` and `MAX` nest, every other one adds up. -/
def Agg.op {α : Type} [Add α] [LinearOrder α] : Agg → α → α → α
  | .min => fun a b => Min.min a b
  | .max => fun a b => Max.max a b
  | _ => fun a b => a + b

section Op

variable {α : Type} [AddCommMonoid α] [LinearOrder α]

instance Agg.op_commutative (a : Agg) : Std.Commutative (a.op : α → α → α) :=
  ⟨fun x y => by cases a <;> simp only [Agg.op, min_comm, max_comm, add_comm]⟩

instance Agg.op_associative (a : Agg) : Std.Associative (a.op : α → α → α) :=
  ⟨fun x y z => by cases a <;> simp only [Agg.op, min_assoc, max_assoc, add_assoc]⟩

instance Agg.idempotentOp_min : Std.IdempotentOp (Agg.min.op : α → α → α) :=
  ⟨fun x => min_self x⟩

instance Agg.idempotentOp_max : Std.IdempotentOp (Agg.max.op : α → α → α) :=
  ⟨fun x => max_self x⟩

end Op

/-- Counting rows adds up, over any rows but none. -/
theorem foldValues_count {α ρ : Type} [AddCommMonoidWithOne α] [LinearOrder α] (keep : ρ → Bool)
    {rows : Multiset ρ} (h : rows ≠ 0) :
    foldValues Agg.sum.op (rows.map fun r => some (if keep r then (1 : α) else 0)) =
      some ((rows.filter fun r => keep r = true).card : α) := by
  induction rows using Multiset.induction with
  | empty => exact absurd rfl h
  | cons r rows ih =>
      have hone : (if keep r then (1 : α) else 0) +
          ((rows.filter fun r => keep r = true).card : α) =
          (((r ::ₘ rows).filter fun r => keep r = true).card : α) := by
        rw [Multiset.filter_cons]
        by_cases hr : keep r = true
        · rw [if_pos hr, if_pos hr, Multiset.singleton_add, Multiset.card_cons, Nat.cast_succ,
            add_comm]
        · rw [if_neg hr, if_neg hr, zero_add, zero_add]
      rw [Multiset.map_cons, foldValues_cons, ← hone]
      by_cases hz : rows = 0
      · subst hz
        simp
      · rw [ih hz]
        rfl

/-! ## Expressions over a group -/

/-- A row, by its columns. -/
abbrev Row (α : Type) := Column → Option α

/-- What an engine brings to an aggregated expression. -/
structure Scalars (α : Type) where
  literal : Bool → String → Option α
  table : String → String → Option α
  /-- An operator or a function, from the values of its arguments. -/
  apply : Op → List (Option α) → Option α
  /-- A condition that keeps a row. -/
  truth : Option α → Bool
  /-- A nested query, which has rows of its own. -/
  nested : List Expr → Option α
  /-- A column outside of every aggregate, which most engines refuse. -/
  loose : Multiset (Row α) → Column → Option α
  /-- Any other aggregate, from the arguments of its rows. -/
  aggregate : Agg → Multiset (List (Option α)) → Option α

namespace Scalars

variable {α : Type} (S : Scalars α)

mutual
/-- The value of an expression on one row. -/
def rowValue (row : Row α) : Expr → Option α
  | .column c => row c
  | .literal s t => S.literal s t
  | .table d n => S.table d n
  | .node .paren [e] => rowValue row e
  | .node .subquery args => S.nested args
  | .node op args => S.apply op (rowValues row args)

def rowValues (row : Row α) : List Expr → List (Option α)
  | [] => []
  | e :: es => rowValue row e :: rowValues row es
end

variable [AddCommMonoidWithOne α] [LinearOrder α]

/-- No argument is `NULL`. -/
def complete (vs : List (Option α)) : Bool := vs.all Option.isSome

/-- The rows `COUNT` counts. -/
def countValue (rows : Multiset (Row α)) : List Expr → ℕ
  | [.node .star []] => rows.card
  | [.node .distinct xs] =>
      ((rows.map fun r => S.rowValues r xs).dedup.filter fun vs => complete vs = true).card
  | xs => (rows.filter fun r => complete (S.rowValues r xs) = true).card

/-- The value of an aggregate that folds. -/
def foldValue (rows : Multiset (Row α)) (a : Agg) : List Expr → Option α
  | [.node .distinct [x]] => foldValues a.op (rows.map fun r => S.rowValue r x).dedup
  | [.node .distinct xs] => S.aggregate a (rows.map fun r => S.rowValues r xs).dedup
  | [x] => foldValues a.op (rows.map fun r => S.rowValue r x)
  | xs => S.aggregate a (rows.map fun r => S.rowValues r xs)

/-- The value of an aggregate call over a group of rows. -/
def aggValue (rows : Multiset (Row α)) : Agg → List Expr → Option α
  | .count, xs => some (S.countValue rows xs : α)
  | .sum, xs => S.foldValue rows .sum xs
  | .min, xs => S.foldValue rows .min xs
  | .max, xs => S.foldValue rows .max xs
  | a, xs => S.aggregate a (rows.map fun r => S.rowValues r xs)

mutual
/-- The value of an expression over a group of rows. -/
def groupValue (rows : Multiset (Row α)) : Expr → Option α
  | .column c => S.loose rows c
  | .literal s t => S.literal s t
  | .table d n => S.table d n
  | .node (.agg a) args => S.aggValue rows a args
  | .node (.func "Filter") [.node (.agg a) args, .node (.func "Where") [c]] =>
      S.aggValue (rows.filter fun r => S.truth (S.rowValue r c) = true) a args
  | .node .paren [e] => groupValue rows e
  | .node .subquery args => S.nested args
  | .node op args => S.apply op (groupValues rows args)

def groupValues (rows : Multiset (Row α)) : List Expr → List (Option α)
  | [] => []
  | e :: es => groupValue rows e :: groupValues rows es
end

/-! ## Splitting a group -/

/-- **Re-aggregation**: over any non-empty groups of rows, the value over all rows is the aggregate
of the values of the groups. -/
def Reaggregates (a : Agg) (e : Expr) : Prop :=
  ∀ groups : Multiset (Multiset (Row α)), groups ≠ 0 → 0 ∉ groups →
    S.groupValue groups.join e = foldValues a.op (groups.map fun g => S.groupValue g e)

variable {S}

/-- Two groups at a time are enough. -/
theorem reaggregates_of_pairs {a : Agg} {e : Expr}
    (h : ∀ rows rows' : Multiset (Row α), rows ≠ 0 → rows' ≠ 0 →
      S.groupValue (rows + rows') e = (S.groupValue rows e).merge a.op (S.groupValue rows' e)) :
    S.Reaggregates a e := by
  intro groups
  induction groups using Multiset.induction with
  | empty => exact fun hne => absurd rfl hne
  | cons g groups ih =>
      intro _ hzero
      rw [Multiset.mem_cons, not_or] at hzero
      rw [Multiset.join_cons, Multiset.map_cons, foldValues_cons]
      by_cases hgroups : groups = 0
      · subst hgroups
        simp
      · have hjoin : groups.join ≠ 0 := by
          obtain ⟨g', hg'⟩ := Multiset.exists_mem_of_ne_zero hgroups
          obtain ⟨row, hrow⟩ := Multiset.exists_mem_of_ne_zero fun h0 => hzero.2 (h0 ▸ hg')
          intro h0
          have hmem : row ∈ groups.join := Multiset.mem_join.mpr ⟨g', hg', hrow⟩
          simp [h0] at hmem
        rw [h g groups.join (Ne.symm hzero.1) hjoin, ih hgroups hzero.2]

/-! ### Calls -/

/-- The calls that split over rows: `SUM` and `COUNT` without `DISTINCT`, `MIN` and `MAX`. -/
def splits : Agg → List Expr → Bool
  | .sum, [.node .distinct _] => false
  | .sum, [_] => true
  | .min, [.node .distinct xs] => xs.length = 1
  | .min, [_] => true
  | .max, [.node .distinct xs] => xs.length = 1
  | .max, [_] => true
  | .count, [.node .distinct _] => false
  | .count, _ => true
  | _, _ => false

/-- A fold reads each row once; of the distinct values only where repetition makes no difference. -/
theorem foldValue_eq {a : Agg} {x : Expr}
    (h : (∀ xs, x ≠ .node .distinct xs) ∨
      Std.IdempotentOp (a.op : α → α → α) ∧ ∀ xs, x = .node .distinct xs → xs.length = 1) :
    ∃ y, ∀ rows : Multiset (Row α),
      S.foldValue rows a [x] = foldValues a.op (rows.map fun r => S.rowValue r y) := by
  by_cases hx : ∃ xs, x = .node .distinct xs
  · obtain ⟨xs, rfl⟩ := hx
    obtain h | ⟨hidem, hlen⟩ := h
    · exact absurd rfl (h xs)
    · obtain ⟨y, rfl⟩ := List.length_eq_one_iff.mp (hlen xs rfl)
      exact ⟨y, fun rows => foldValues_dedup _ _⟩
  · refine ⟨x, fun rows => ?_⟩
    rw [foldValue]
    · intro y hy
      exact hx ⟨[y], hy⟩
    · intro xs hxs
      exact hx ⟨xs, hxs⟩

omit [AddCommMonoidWithOne α] in
/-- `COUNT` without `DISTINCT` counts rows one by one. -/
theorem countValue_eq {xs : List Expr} (h : ∀ ys, xs ≠ [.node .distinct ys]) :
    ∃ counts : Row α → Bool, ∀ rows : Multiset (Row α),
      S.countValue rows xs = (rows.filter fun row => counts row = true).card := by
  by_cases hstar : xs = [.node .star []]
  · subst hstar
    exact ⟨fun _ => true, fun rows => by simp [countValue]⟩
  · refine ⟨fun row => complete (S.rowValues row xs), fun rows => ?_⟩
    rw [countValue]
    · exact hstar
    · intro ys hys
      exact h ys hys

/-- A call that splits, over the rows a condition keeps. -/
theorem aggValue_filter {a : Agg} {args : List Expr} (h : splits a args = true)
    (keep : Row α → Bool) : ∃ r : Row α → Option α, ∀ rows : Multiset (Row α), rows ≠ 0 →
      S.aggValue (rows.filter fun row => keep row = true) a args =
        foldValues a.op (rows.map r) := by
  -- a row that is filtered out counts as NULL, which the fold leaves out
  have hfold : ∀ x, (∃ y, ∀ rows : Multiset (Row α),
      S.foldValue rows a [x] = foldValues a.op (rows.map fun r => S.rowValue r y)) →
      ∃ r : Row α → Option α, ∀ rows : Multiset (Row α),
        S.foldValue (rows.filter fun row => keep row = true) a [x] =
          foldValues a.op (rows.map r) := by
    rintro x ⟨y, hy⟩
    exact ⟨fun row => if keep row then S.rowValue row y else none, fun rows =>
      (hy _).trans (foldValues_filter _ _ _ _)⟩
  have hdistinct : ∀ {xs : List Expr}, decide (xs.length = 1) = true →
      ∀ ys, Expr.node .distinct xs = .node .distinct ys → ys.length = 1 := by
    intro xs hlen ys hys
    obtain rfl := (Expr.node.inj hys).2
    exact of_decide_eq_true hlen
  unfold splits at h
  split at h
  · cases h
  next x hx =>
    obtain ⟨r, hr⟩ := hfold x (foldValue_eq (Or.inl fun xs => hx xs))
    exact ⟨r, fun rows _ => hr rows⟩
  next xs =>
    obtain ⟨r, hr⟩ := hfold _ (foldValue_eq (Or.inr ⟨inferInstance, hdistinct h⟩))
    exact ⟨r, fun rows _ => hr rows⟩
  next x hx =>
    obtain ⟨r, hr⟩ := hfold x (foldValue_eq (Or.inl fun xs => hx xs))
    exact ⟨r, fun rows _ => hr rows⟩
  next xs =>
    obtain ⟨r, hr⟩ := hfold _ (foldValue_eq (Or.inr ⟨inferInstance, hdistinct h⟩))
    exact ⟨r, fun rows _ => hr rows⟩
  next x hx =>
    obtain ⟨r, hr⟩ := hfold x (foldValue_eq (Or.inl fun xs => hx xs))
    exact ⟨r, fun rows _ => hr rows⟩
  · cases h
  next hx =>
    obtain ⟨counts, hcounts⟩ := countValue_eq (S := S) hx
    refine ⟨fun row => some (if counts row && keep row then 1 else 0), fun rows hne => ?_⟩
    have hcard : (rows.filter fun row => (counts row && keep row) = true).card =
        S.countValue (rows.filter fun row => keep row = true) args := by
      rw [hcounts, Multiset.filter_filter]
      simp only [Bool.and_eq_true]
    rw [aggValue, ← hcard]
    exact (foldValues_count _ hne).symm
  · cases h

/-- Two groups of rows that a condition keeps, in a call that splits. -/
theorem aggValue_add {a : Agg} {args : List Expr} (h : splits a args = true) (keep : Row α → Bool)
    {rows rows' : Multiset (Row α)} (hrows : rows ≠ 0) (hrows' : rows' ≠ 0) :
    S.aggValue ((rows + rows').filter fun row => keep row = true) a args =
      (S.aggValue (rows.filter fun row => keep row = true) a args).merge a.op
        (S.aggValue (rows'.filter fun row => keep row = true) a args) := by
  obtain ⟨r, hr⟩ := aggValue_filter (S := S) h keep
  have hboth : rows + rows' ≠ 0 := fun h0 => hrows (add_eq_zero.mp h0).1
  rw [hr _ hboth, hr _ hrows, hr _ hrows', Multiset.map_add, foldValues_add]

/-! ### What stands around the calls -/

/-- The aggregate of a call, its `FILTER` aside. -/
def callAgg : Expr → Option Agg
  | .node (.agg a) _ => some a
  | .node (.func "Filter") [.node (.agg a) _, .node (.func "Where") [_]] => some a
  | _ => none

variable (S) in
mutual
/-- The value of an expression whose calls have given values. -/
def contextValue (vals : Expr → Option α) : Expr → Option α
  | .column c => vals (.column c)
  | .literal s t => S.literal s t
  | .table d n => S.table d n
  | .node (.agg a) args => vals (.node (.agg a) args)
  | .node (.func "Filter") [.node (.agg a) args, .node (.func "Where") [c]] =>
      vals (.node (.func "Filter") [.node (.agg a) args, .node (.func "Where") [c]])
  | .node .paren [e] => contextValue vals e
  | .node .subquery args => S.nested args
  | .node op args => S.apply op (contextValues vals args)

def contextValues (vals : Expr → Option α) : List Expr → List (Option α)
  | [] => []
  | e :: es => contextValue vals e :: contextValues vals es
end

mutual
/-- Every call splits, and no column stands outside of the calls. -/
def callsSplit : Expr → Bool
  | .column _ => false
  | .literal _ _ => true
  | .table _ _ => true
  | .node (.agg a) args => splits a args
  | .node (.func "Filter") [.node (.agg a) args, .node (.func "Where") [_]] => splits a args
  | .node .paren [e] => callsSplit e
  | .node .subquery _ => true
  | .node _ args => allSplit args

def allSplit : List Expr → Bool
  | [] => true
  | e :: es => callsSplit e && allSplit es
end

/-- The values of the calls over two groups together. -/
def mergeCalls (vals vals' : Expr → Option α) : Expr → Option α := fun e =>
  match callAgg e with
  | some a => (vals e).merge a.op (vals' e)
  | none => none

/-- A `COUNT` is a number of rows. -/
def CountsRows (vals : Expr → Option α) : Prop :=
  ∀ e, callAgg e = some .count → ∃ n : ℕ, vals e = some (n : α)

variable (S) in
/-- What stands around the calls **distributes**: it makes no difference whether the values of the
calls are combined before it is applied, or its own values after. -/
def Distributes (a : Agg) (e : Expr) : Prop :=
  ∀ vals vals' : Expr → Option α, CountsRows vals → CountsRows vals' →
    S.contextValue (mergeCalls vals vals') e =
      (S.contextValue vals e).merge a.op (S.contextValue vals' e)

mutual
theorem groupValue_eq_contextValue (rows : Multiset (Row α)) (e : Expr) :
    S.groupValue rows e = S.contextValue (S.groupValue rows) e := by
  unfold contextValue
  split
  next c => rfl
  next s t => rfl
  next d n => rfl
  next a args => rfl
  next a args c => rfl
  next e =>
    rw [groupValue]
    exact groupValue_eq_contextValue rows e
  next args => rfl
  next op args h₁ h₂ h₃ h₄ =>
    rw [groupValue, groupValues_eq_contextValues rows args] <;> assumption

theorem groupValues_eq_contextValues (rows : Multiset (Row α)) (es : List Expr) :
    S.groupValues rows es = S.contextValues (S.groupValue rows) es := by
  cases es with
  | nil => rfl
  | cons e es =>
      rw [groupValues, contextValues, ← groupValue_eq_contextValue rows e,
        groupValues_eq_contextValues rows es]
end

theorem countsRows_groupValue (rows : Multiset (Row α)) : CountsRows (S.groupValue rows) := by
  intro e he
  unfold callAgg at he
  split at he
  next a args =>
    obtain rfl := Option.some.inj he
    exact ⟨S.countValue rows args, rfl⟩
  next a args c =>
    obtain rfl := Option.some.inj he
    exact ⟨S.countValue (rows.filter fun r => S.truth (S.rowValue r c) = true) args, rfl⟩
  · cases he

mutual
/-- Where every call splits, a group of rows is its parts, call by call. -/
theorem contextValue_add {rows rows' : Multiset (Row α)} (hrows : rows ≠ 0) (hrows' : rows' ≠ 0)
    (e : Expr) (h : callsSplit e = true) :
    S.contextValue (S.groupValue (rows + rows')) e =
      S.contextValue (mergeCalls (S.groupValue rows) (S.groupValue rows')) e := by
  unfold callsSplit at h
  split at h
  · cases h
  next s t => rfl
  next d n => rfl
  next a args =>
    have hadd := aggValue_add (S := S) h (fun _ => true) hrows hrows'
    simpa [contextValue, groupValue, mergeCalls, callAgg] using hadd
  next a args c =>
    have hadd := aggValue_add (S := S) h (fun r => S.truth (S.rowValue r c)) hrows hrows'
    simpa [contextValue, groupValue, mergeCalls, callAgg] using hadd
  next e =>
    rw [contextValue, contextValue]
    exact contextValue_add hrows hrows' e h
  next args => rfl
  next op args h₁ h₂ h₃ h₄ =>
    rw [contextValue, contextValue, contextValues_add hrows hrows' args h] <;> assumption

theorem contextValues_add {rows rows' : Multiset (Row α)} (hrows : rows ≠ 0) (hrows' : rows' ≠ 0)
    (es : List Expr) (h : allSplit es = true) :
    S.contextValues (S.groupValue (rows + rows')) es =
      S.contextValues (mergeCalls (S.groupValue rows) (S.groupValue rows')) es := by
  cases es with
  | nil => rfl
  | cons e es =>
      rw [allSplit, Bool.and_eq_true] at h
      rw [contextValues, contextValues, contextValue_add hrows hrows' e h.1,
        contextValues_add hrows hrows' es h.2]
end

/-- **Calls that split under functions that distribute** re-aggregate. -/
theorem reaggregates_of_distributes {a : Agg} {e : Expr} (h : callsSplit e = true)
    (hd : S.Distributes a e) : S.Reaggregates a e := by
  refine reaggregates_of_pairs fun rows rows' hrows hrows' => ?_
  calc S.groupValue (rows + rows') e
      = S.contextValue (mergeCalls (S.groupValue rows) (S.groupValue rows')) e := by
        rw [groupValue_eq_contextValue, contextValue_add hrows hrows' e h]
    _ = (S.contextValue (S.groupValue rows) e).merge a.op
          (S.contextValue (S.groupValue rows') e) :=
        hd _ _ (countsRows_groupValue rows) (countsRows_groupValue rows')
    _ = (S.groupValue rows e).merge a.op (S.groupValue rows' e) := by
        rw [← groupValue_eq_contextValue, ← groupValue_eq_contextValue]

/-! ### One call -/

/-- An expression that is nothing but one call that splits, its `FILTER` and parentheses aside. -/
def isCall : Expr → Bool
  | .node (.agg a) args => splits a args
  | .node (.func "Filter") [.node (.agg a) args, .node (.func "Where") [_]] => splits a args
  | .node .paren [e] => isCall e
  | _ => false

/-- The aggregate of a node. -/
def asCall : Expr → Option Agg
  | .node (.agg a) _ => some a
  | _ => none

theorem findSome_walk_paren {β : Type} (f : Expr → Option β) (e : Expr)
    (h : f (.node .paren [e]) = none) :
    (Expr.node .paren [e]).walk.findSome? f = e.walk.findSome? f := by
  have hwalk : (Expr.node .paren [e]).walk = .node .paren [e] :: e.walk := by
    simp [Expr.walk, Expr.depth, Expr.depthList, Expr.levels, Expr.children]
  rw [hwalk, List.findSome?_cons, h]

theorem findSome_walk_filter (a : Agg) (args : List Expr) (c : Expr) :
    (Expr.node (.func "Filter") [.node (.agg a) args, .node (.func "Where") [c]]).walk.findSome?
      asCall = some a := by
  have hdepth : ∃ n, (Expr.node (.func "Filter")
      [.node (.agg a) args, .node (.func "Where") [c]]).depth = n + 2 :=
    ⟨max (Expr.depthList args) c.depth, by simp [Expr.depth, Expr.depthList]⟩
  obtain ⟨n, hn⟩ := hdepth
  rw [Expr.walk, hn]
  rfl

omit [AddCommMonoidWithOne α] [LinearOrder α] in
theorem callsSplit_of_isCall (e : Expr) (h : isCall e = true) : callsSplit e = true := by
  unfold isCall at h
  split at h
  next a args => exact h
  next a args c => exact h
  next e =>
    rw [callsSplit]
    exact callsSplit_of_isCall e h
  · cases h

/-- Around one call nothing is applied. -/
theorem distributes_of_isCall (e : Expr) (h : isCall e = true) :
    ∃ b, e.walk.findSome? asCall = some b ∧
      ∀ a : Agg, (a.op : α → α → α) = b.op → S.Distributes a e := by
  unfold isCall at h
  split at h
  next b args =>
    refine ⟨b, rfl, fun a hop vals vals' _ _ => ?_⟩
    simp only [contextValue, mergeCalls, callAgg, hop]
  next b args c =>
    refine ⟨b, findSome_walk_filter b args c, fun a hop vals vals' _ _ => ?_⟩
    simp only [contextValue, mergeCalls, callAgg, hop]
  next e =>
    obtain ⟨b, hb, hd⟩ := distributes_of_isCall e h
    refine ⟨b, (findSome_walk_paren asCall e rfl).trans hb, fun a hop vals vals' hv hv' => ?_⟩
    simp only [contextValue]
    exact hd a hop vals vals' hv hv'
  · cases h

end Scalars

end Canonic.Sql
