import Canonic.Sql.Aggregate

set_option autoImplicit false

/-! # Engines that tell calls apart

Engines over rows whose every value is one, in which a function is one only of ones and every other
aggregate depends on the number of rows alone. Whatever stands around or beside a call shows up in
the value over two such rows, so an expression that re-aggregates in all of them is little more than
a call. -/

namespace Canonic.Sql

namespace Scalars

/-! ## Rows of ones -/

/-- A number that is not one as soon as one of the arguments is not. -/
def allOnes (vs : List (Option ℚ)) : Option ℚ := if vs.all (· = some 1) then some 1 else some 0

/-- The engine in which every other aggregate is a function of the number of rows. -/
def tally (other : ℕ → ℚ) : Scalars ℚ where
  literal _ _ := some 1
  table _ _ := some 1
  apply _ vs := allOnes vs
  truth _ := true
  nested _ := some 1
  loose rows _ := some (other rows.card)
  aggregate _ rows := some (other rows.card)

/-- A row of ones. -/
def ones : Row ℚ := fun _ => some 1

mutual
theorem tally_rowValue (other : ℕ → ℚ) (e : Expr) :
    (tally other).rowValue ones e = some 1 := by
  unfold rowValue
  split
  next c => rfl
  next s t => rfl
  next d n => rfl
  next e => exact tally_rowValue other e
  next args => rfl
  next op args h₁ h₂ =>
    have hargs : ((tally other).rowValues ones args).all (· = some 1) = true := by
      simpa using tally_rowValues other args
    show (if _ then _ else _) = _
    rw [if_pos hargs]

theorem tally_rowValues (other : ℕ → ℚ) (es : List Expr) :
    ∀ v ∈ (tally other).rowValues ones es, v = some 1 := by
  cases es with
  | nil => exact fun v hv => absurd hv List.not_mem_nil
  | cons e es =>
      rw [rowValues, List.forall_mem_cons]
      exact ⟨tally_rowValue other e, tally_rowValues other es⟩
end

theorem tally_complete (other : ℕ → ℚ) (es : List Expr) :
    complete ((tally other).rowValues ones es) = true := by
  rw [complete, List.all_eq_true]
  intro v hv
  rw [tally_rowValues other es v hv]
  rfl

/-- Two rows of ones. -/
def twoOnes : Multiset (Row ℚ) := {ones, ones}

theorem map_twoOnes {β : Type} (f : Row ℚ → β) : twoOnes.map f = {f ones, f ones} := by
  simp [twoOnes]

theorem dedup_pair {β : Type} [DecidableEq β] (b : β) : ({b, b} : Multiset β).dedup = {b} := by
  rw [Multiset.insert_eq_cons, Multiset.dedup_cons_of_mem (Multiset.mem_singleton_self b),
    Multiset.dedup_singleton]

/-- A fold over two rows of ones. -/
def tallyFold (other : ℕ → ℚ) (a : Agg) : List Expr → ℚ
  | [.node .distinct _] => 1
  | [_] => a.op 1 1
  | _ => other 2

/-- A count over two rows of ones. -/
def tallyCount : List Expr → ℚ
  | [.node .distinct _] => 1
  | _ => 2

/-- A call over two rows of ones. -/
def tallyCall (other : ℕ → ℚ) : Agg → List Expr → ℚ
  | .count, xs => tallyCount xs
  | .sum, xs => tallyFold other .sum xs
  | .min, xs => tallyFold other .min xs
  | .max, xs => tallyFold other .max xs
  | _, _ => other 2

theorem tally_foldValue {other : ℕ → ℚ} (h1 : other 1 = 1) (a : Agg) (args : List Expr) :
    (tally other).foldValue twoOnes a args = some (tallyFold other a args) := by
  unfold foldValue
  split
  next x =>
    rw [map_twoOnes, tally_rowValue, dedup_pair, foldValues_singleton]
    rfl
  next xs hxs =>
    rw [map_twoOnes, dedup_pair]
    show some (other (Multiset.card {_})) = some 1
    rw [Multiset.card_singleton, h1]
  next x hx₁ hx₂ =>
    rw [map_twoOnes, tally_rowValue, Multiset.insert_eq_cons, foldValues_cons,
      foldValues_singleton, tallyFold]
    · rfl
    · exact hx₂
  next h₁ h₂ h₃ =>
    rw [map_twoOnes, tallyFold]
    · show some (other (Multiset.card {_, _})) = some (other 2)
      rw [Multiset.card_pair]
    · exact h₂
    · exact h₃

theorem tally_countValue (other : ℕ → ℚ) (args : List Expr) :
    ((tally other).countValue twoOnes args : ℚ) = tallyCount args := by
  unfold countValue
  split
  next => rfl
  next xs =>
    rw [map_twoOnes, dedup_pair, Multiset.filter_singleton, if_pos (tally_complete other xs),
      Multiset.card_singleton, Nat.cast_one]
    rfl
  next h₁ h₂ =>
    have hall : ∀ r ∈ twoOnes, complete ((tally other).rowValues r args) = true := by
      intro r hr
      obtain rfl : r = ones := by simpa [twoOnes] using hr
      exact tally_complete other args
    rw [Multiset.filter_eq_self.mpr hall, tallyCount]
    · rfl
    · exact h₂

theorem tally_aggValue {other : ℕ → ℚ} (h1 : other 1 = 1) (a : Agg) (args : List Expr) :
    (tally other).aggValue twoOnes a args = some (tallyCall other a args) := by
  cases a with
  | count => exact congrArg some (tally_countValue other args)
  | sum => exact tally_foldValue h1 .sum args
  | min => exact tally_foldValue h1 .min args
  | max => exact tally_foldValue h1 .max args
  | avg => exact congrArg (fun n => some (other n)) (by simp [twoOnes])
  | other name => exact congrArg (fun n => some (other n)) (by simp [twoOnes])

theorem tally_aggValue_one {other : ℕ → ℚ} (h1 : other 1 = 1) (a : Agg) (args : List Expr) :
    (tally other).aggValue {ones} a args = some 1 := by
  have hother : ∀ vs : Multiset (List (Option ℚ)), vs.card = 1 →
      (tally other).aggregate a vs = some 1 := by
    intro vs hvs
    show some (other vs.card) = some 1
    rw [hvs, h1]
  have hcount : (tally other).countValue {ones} args = 1 := by
    unfold countValue
    split
    · rfl
    · rw [Multiset.map_singleton, Multiset.dedup_singleton, Multiset.filter_singleton,
        if_pos (tally_complete other _), Multiset.card_singleton]
    · rw [Multiset.filter_singleton, if_pos (tally_complete other _), Multiset.card_singleton]
  have hfold : ∀ b : Agg, (tally other).foldValue {ones} b args = some 1 := by
    intro b
    unfold foldValue
    split
    · rw [Multiset.map_singleton, Multiset.dedup_singleton, foldValues_singleton, tally_rowValue]
    · rw [Multiset.map_singleton, Multiset.dedup_singleton]
      exact hother _ (Multiset.card_singleton _)
    · rw [Multiset.map_singleton, foldValues_singleton, tally_rowValue]
    · rw [Multiset.map_singleton]
      exact hother _ (Multiset.card_singleton _)
  cases a with
  | count =>
      show some ((_ : ℕ) : ℚ) = some 1
      rw [hcount, Nat.cast_one]
  | sum => exact hfold .sum
  | min => exact hfold .min
  | max => exact hfold .max
  | avg => exact hother _ (by simp)
  | other name => exact hother _ (by simp)

theorem tally_filter (other : ℕ → ℚ) (c : Expr) (rows : Multiset (Row ℚ)) :
    (rows.filter fun r => (tally other).truth ((tally other).rowValue r c) = true) = rows :=
  Multiset.filter_eq_self.mpr fun _ _ => rfl

theorem allOnes_eq_one {vs : List (Option ℚ)} :
    allOnes vs = some 1 ↔ ∀ v ∈ vs, v = some 1 := by
  rw [allOnes]
  split
  next h => simpa using h
  next h => simpa using h

mutual
theorem tally_groupValue_one {other : ℕ → ℚ} (h1 : other 1 = 1) (e : Expr) :
    (tally other).groupValue {ones} e = some 1 := by
  unfold groupValue
  split
  next c =>
    show some (other (Multiset.card {ones})) = some 1
    rw [Multiset.card_singleton, h1]
  next s t => rfl
  next d n => rfl
  next a args => exact tally_aggValue_one h1 a args
  next a args c =>
    rw [tally_filter]
    exact tally_aggValue_one h1 a args
  next e => exact tally_groupValue_one h1 e
  next args => rfl
  next op args h₁ h₂ h₃ h₄ => exact allOnes_eq_one.mpr (tally_groupValues_one h1 args)

theorem tally_groupValues_one {other : ℕ → ℚ} (h1 : other 1 = 1) (es : List Expr) :
    ∀ v ∈ (tally other).groupValues {ones} es, v = some 1 := by
  cases es with
  | nil => exact fun v hv => absurd hv List.not_mem_nil
  | cons e es =>
      rw [groupValues, List.forall_mem_cons]
      exact ⟨tally_groupValue_one h1 e, tally_groupValues_one h1 es⟩
end

/-! ## One call -/

/-- Over two rows of ones the values of the rows are combined. -/
theorem Reaggregates.twoOnes {other : ℕ → ℚ} (h1 : other 1 = 1) {a : Agg} {e : Expr}
    (h : (tally other).Reaggregates a e) :
    (tally other).groupValue twoOnes e = some (a.op 1 1) := by
  have hsplit := h {{ones}, {ones}} (by simp) (by simp)
  have hjoin : Multiset.join ({{ones}, {ones}} : Multiset (Multiset (Row ℚ))) =
      Scalars.twoOnes := by simp [Scalars.twoOnes]
  rw [hjoin, Multiset.insert_eq_cons, Multiset.map_cons, Multiset.map_singleton,
    tally_groupValue_one h1, foldValues_cons, foldValues_singleton] at hsplit
  exact hsplit

/-- Where every other aggregate is one, only a call is more than one over two rows. -/
theorem tally_le_one (e : Expr) (h : isCall e = false) :
    (tally fun _ => 1).groupValue twoOnes e = some 0 ∨
      (tally fun _ => 1).groupValue twoOnes e = some 1 := by
  have hcall : ∀ a args, splits a args = false → tallyCall (fun _ => 1) a args = 1 := by
    intro a args hsplits
    cases a <;> unfold splits at hsplits <;> split at hsplits <;>
      simp_all [tallyCall, tallyFold, tallyCount]
  unfold isCall at h
  split at h
  next a args => exact Or.inr ((tally_aggValue rfl a args).trans (congrArg some (hcall a args h)))
  next a args c =>
    rw [groupValue, tally_filter]
    exact Or.inr ((tally_aggValue rfl a args).trans (congrArg some (hcall a args h)))
  next e =>
    rw [groupValue]
    exact tally_le_one e h
  next h₁ h₂ h₃ =>
    unfold groupValue
    split
    · exact Or.inr rfl
    · exact Or.inr rfl
    · exact Or.inr rfl
    next a args => exact absurd rfl (h₁ a args)
    next a args c => exact absurd rfl (h₂ a args c)
    next e => exact absurd rfl (h₃ e)
    · exact Or.inr rfl
    next op args _ _ _ _ =>
      show allOnes _ = _ ∨ allOnes _ = _
      rw [allOnes]
      split
      · exact Or.inr rfl
      · exact Or.inl rfl

/-- Where values of rows add up in every engine, the expression is one call. -/
theorem isCall_of_reaggregates {a : Agg} {e : Expr} (hop : (a.op : ℚ → ℚ → ℚ) 1 1 = 2)
    (h : (tally fun _ => 1).Reaggregates a e) : isCall e = true := by
  by_contra hcall
  have htwo := Reaggregates.twoOnes rfl h
  rw [hop] at htwo
  obtain h0 | h1 := tally_le_one e (by simpa using hcall)
  · rw [h0] at htwo
    norm_num at htwo
  · rw [h1] at htwo
    norm_num at htwo

/-! ## Calls beside a `MIN` or a `MAX` -/

/-- The calls whose value depends on how often a row occurs: all but `MIN`, `MAX` and those of
distinct values. -/
def weighs : Agg → List Expr → Bool
  | .sum, [.node .distinct _] => false
  | .count, [.node .distinct _] => false
  | .min, [_] => false
  | .max, [_] => false
  | _, _ => true

mutual
/-- Such a call, or a column, stands outside of the other calls. -/
def weighsRows : Expr → Bool
  | .column _ => true
  | .literal _ _ => false
  | .table _ _ => false
  | .node (.agg a) args => weighs a args
  | .node (.func "Filter") [.node (.agg a) args, .node (.func "Where") [_]] => weighs a args
  | .node .paren [e] => weighsRows e
  | .node .subquery _ => false
  | .node _ args => weighsSome args

def weighsSome : List Expr → Bool
  | [] => false
  | e :: es => weighsRows e || weighsSome es
end

theorem tallyCall_of_weighs {a : Agg} {args : List Expr} (h : weighs a args = true) :
    tallyCall (fun n => n) a args = 2 := by
  have hsum : (∀ ys, args ≠ [.node .distinct ys]) → tallyFold (fun n => n) .sum args = 2 := by
    intro hargs
    unfold tallyFold
    split
    next ys => exact absurd rfl (hargs ys)
    · exact one_add_one_eq_two
    · rfl
  cases a <;> unfold weighs at h <;> split at h <;> simp_all [tallyCall, tallyFold, tallyCount]

mutual
/-- Where the other aggregates count rows, such a call shows up as far as the whole expression. -/
theorem tally_ne_one (e : Expr) (h : weighsRows e = true) :
    (tally fun n => n).groupValue twoOnes e ≠ some 1 := by
  have hcall : ∀ a args, weighs a args = true →
      (tally fun n => n).aggValue twoOnes a args ≠ some 1 := by
    intro a args hw
    rw [tally_aggValue Nat.cast_one, tallyCall_of_weighs hw]
    norm_num
  unfold weighsRows at h
  split at h
  next c =>
    show some ((Multiset.card twoOnes : ℕ) : ℚ) ≠ some 1
    simp [twoOnes]
  · cases h
  · cases h
  next a args => exact hcall a args h
  next a args c =>
    rw [groupValue, tally_filter]
    exact hcall a args h
  next e =>
    rw [groupValue]
    exact tally_ne_one e h
  · cases h
  next op args h₁ h₂ h₃ h₄ =>
    rw [groupValue]
    · exact fun hones => tally_exists_ne_one args h (allOnes_eq_one.mp hones)
    all_goals assumption

theorem tally_exists_ne_one (es : List Expr) (h : weighsSome es = true) :
    ¬ ∀ v ∈ (tally fun n => n).groupValues twoOnes es, v = some 1 := by
  cases es with
  | nil => cases h
  | cons e es =>
      rw [weighsSome, Bool.or_eq_true] at h
      rw [groupValues, List.forall_mem_cons]
      rintro ⟨he, hes⟩
      obtain h | h := h
      · exact tally_ne_one e h he
      · exact tally_exists_ne_one es h hes
end

/-- Where the least or the greatest values of rows nest in every engine, no call beside `MIN` and
`MAX` depends on how often a row occurs. -/
theorem weighsRows_of_reaggregates {a : Agg} {e : Expr} (hop : (a.op : ℚ → ℚ → ℚ) 1 1 = 1)
    (h : (tally fun n => n).Reaggregates a e) : weighsRows e = false := by
  by_contra hw
  refine tally_ne_one e (by simpa using hw) ?_
  rw [Reaggregates.twoOnes Nat.cast_one h, hop]

end Scalars

end Canonic.Sql
