import Mathlib
import Canonic.Core.DecomposeMethods

set_option autoImplicit false

/-! # Decompositions are exact and symmetric

The effects of a ratio add up to its change, the rows of a split add up to the effect they
split, and to swap the two periods negates every contribution and lists the same members in the
same order. -/

namespace Canonic

/-! ## Listing rows -/

section

variable {R R' : Type}

theorem ranked_perm (rows : List R) (magnitude : R → ℚ) (member : R → Member) :
    (ranked rows magnitude member).Perm rows :=
  List.perm_insertionSort _ _

/-- A change of the rows that keeps absolute magnitudes and members keeps the ranking. -/
theorem ranked_map {magnitude : R → ℚ} {member : R → Member} {magnitude' : R' → ℚ}
    {member' : R' → Member} (f : R → R') (hmag : ∀ r, |magnitude' (f r)| = |magnitude r|)
    (hmem : ∀ r, member' (f r) = member r) (rows : List R) :
    ranked (rows.map f) magnitude' member' = (ranked rows magnitude member).map f := by
  refine (List.map_insertionSort _ _ f rows fun a _ b _ => ?_).symm
  simp only [rankKey, hmag, hmem]

theorem top_map {merge : List R → R} {merge' : List R' → R'} (f : R → R')
    (hmerge : ∀ rows, merge' (rows.map f) = f (merge rows)) (rows : List R) (topN : Int) :
    top (rows.map f) topN merge' = (top rows topN merge).map f := by
  unfold top
  rw [List.length_map]
  split
  · rfl
  · rw [← List.map_take, ← List.map_drop, hmerge, List.map_append, List.map_singleton]

/-- The listed rows add up to all rows: the rest row stands for those that are not listed. -/
theorem sum_top {merge : List R → R} (weight : R → ℚ)
    (hmerge : ∀ rows, weight (merge rows) = (rows.map weight).sum) (rows : List R)
    (topN : Int) : ((top rows topN merge).map weight).sum = (rows.map weight).sum := by
  unfold top
  split
  · rfl
  · rw [List.map_append, List.sum_append, List.map_singleton, List.sum_singleton, hmerge,
      List.map_take, List.map_drop, List.sum_take_add_sum_drop]

theorem sum_top_ranked {merge : List R → R} (weight : R → ℚ) (member : R → Member)
    (hmerge : ∀ rows, weight (merge rows) = (rows.map weight).sum) (rows : List R)
    (topN : Int) :
    ((top (ranked rows weight member) topN merge).map weight).sum = (rows.map weight).sum := by
  rw [sum_top weight hmerge]
  exact ((ranked_perm rows weight member).map weight).sum_eq

end

/-! ## Swapped periods -/

/-- The values with base and compare swapped. -/
def LeafValues.swap (values : LeafValues) : LeafValues := values.map fun p => (p.1, p.2.swap)

def MemberValues.swap (members : MemberValues) : MemberValues :=
  members.map fun p => (p.1, LeafValues.swap p.2)

@[simp] theorem leafValue_swap (values : LeafValues) (metric : String) :
    leafValue values.swap metric = (leafValue values metric).swap := by
  induction values with
  | nil => rfl
  | cons p values ih =>
      obtain ⟨name, pair⟩ := p
      simp only [leafValue, Dict.getD, Dict.get, LeafValues.swap, List.map_cons,
        List.lookup_cons] at ih ⊢
      cases metric == name
      · exact ih
      · rfl

@[simp] theorem delta_swap (pair : ℚ × ℚ) : delta pair.swap = -delta pair := by
  simp [delta]

@[simp] theorem mid_swap (pair : ℚ × ℚ) : mid pair.swap = mid pair := by
  simp [mid, add_comm]

def Total.swap (t : Total) : Total := { base := t.compare, compare := t.base, delta := -t.delta }

def Effect.swap (e : Effect) : Effect :=
  { e with base := e.compare, compare := e.base, contribution := -e.contribution }

def Presence.swap : Presence → Presence
  | .both => .both
  | .baseOnly => .compareOnly
  | .compareOnly => .baseOnly

def AdditiveRow.swap (r : AdditiveRow) : AdditiveRow :=
  { r with base := r.compare, compare := r.base, contribution := -r.contribution }

def ShiftShareRow.swap (r : ShiftShareRow) : ShiftShareRow :=
  { r with
    shareBase := r.shareCompare, shareCompare := r.shareBase
    rateBase := r.rateCompare, rateCompare := r.rateBase
    mix := -r.mix, rate := -r.rate, contribution := -r.contribution
    presence := r.presence.map Presence.swap }

def DenominatorRow.swap (r : DenominatorRow) : DenominatorRow :=
  { r with base := r.compare, compare := r.base, delta := -r.delta }

/-- The rows swapped one by one, so the members stay where they are. -/
def Breakdown.swap {R : Type} (swapRow : R → R) (b : Breakdown R) : Breakdown R :=
  { rows := b.rows.map swapRow, residual := -b.residual }

def PartsBreakdown.swap (b : PartsBreakdown) : PartsBreakdown where
  parts := b.parts.map fun p => (p.1, p.2.swap AdditiveRow.swap)
  denominator := b.denominator.map DenominatorRow.swap

theorem sum_map_neg {R : Type} (rows : List R) (f : R → ℚ) :
    (rows.map fun r => -f r).sum = -(rows.map f).sum := by
  induction rows with
  | nil => simp
  | cons r rows ih => rw [List.map_cons, List.sum_cons, ih, List.map_cons, List.sum_cons, neg_add]

theorem sumRows_swap (rows : List AdditiveRow) :
    sumRows (rows.map AdditiveRow.swap) = -sumRows rows := by
  rw [sumRows, List.map_map, sumRows, ← sum_map_neg]
  rfl

theorem mergeAdditive_swap (rows : List AdditiveRow) :
    mergeAdditive (rows.map AdditiveRow.swap) = (mergeAdditive rows).swap := by
  rw [mergeAdditive, sumRows_swap]
  simp [mergeAdditive, AdditiveRow.swap, Function.comp_def]

theorem mergeShiftShare_swap (rows : List ShiftShareRow) :
    mergeShiftShare (rows.map ShiftShareRow.swap) = (mergeShiftShare rows).swap := by
  simp [mergeShiftShare, ShiftShareRow.swap, Function.comp_def, sum_map_neg]

theorem mergeDenominator_swap (rows : List DenominatorRow) :
    mergeDenominator (rows.map DenominatorRow.swap) = (mergeDenominator rows).swap := by
  simp [mergeDenominator, DenominatorRow.swap, Function.comp_def, sum_map_neg]

/-! ## Additive rows -/

/-- What a metric adds up to over the members, in both periods. -/
def MemberValues.sum (members : MemberValues) (metric : String) : ℚ × ℚ :=
  ((members.map fun p => (leafValue p.2 metric).1).sum,
    (members.map fun p => (leafValue p.2 metric).2).sum)

theorem sumRows_additiveRows (members : MemberValues) (metric : String) (scale : ℚ)
    (topN : Int) :
    sumRows (additiveRows members metric scale topN) = delta (members.sum metric) * scale := by
  rw [sumRows, additiveRows,
    sum_top_ranked AdditiveRow.contribution AdditiveRow.member (fun _ => rfl),
    List.map_map]
  induction members with
  | nil => simp [MemberValues.sum, delta]
  | cons p members ih =>
      rw [List.map_cons, List.sum_cons, ih]
      simp only [MemberValues.sum, delta, additiveRow, List.map_cons, List.sum_cons, Function.comp]
      ring

theorem abs_swap_contribution (r : AdditiveRow) : |r.swap.contribution| = |r.contribution| :=
  abs_neg _

theorem additiveRow_swap (metric : String) (scale : ℚ) (entry : Member × LeafValues) :
    additiveRow metric scale (entry.1, LeafValues.swap entry.2) =
      (additiveRow metric scale entry).swap := by
  simp only [additiveRow, leafValue_swap, AdditiveRow.swap, Prod.fst_swap, Prod.snd_swap,
    AdditiveRow.mk.injEq, true_and, and_true]
  ring

theorem additiveRows_swap (members : MemberValues) (metric : String) (scale : ℚ) (topN : Int) :
    additiveRows members.swap metric scale topN =
      (additiveRows members metric scale topN).map AdditiveRow.swap := by
  have hrows : members.swap.map (additiveRow metric scale) =
      (members.map (additiveRow metric scale)).map AdditiveRow.swap := by
    rw [MemberValues.swap, List.map_map, List.map_map]
    exact List.map_congr_left fun entry _ => additiveRow_swap metric scale entry
  rw [additiveRows, additiveRows, hrows,
    ranked_map AdditiveRow.swap abs_swap_contribution (fun _ => rfl),
    top_map AdditiveRow.swap mergeAdditive_swap]
  rfl

/-! ## Ratios -/

theorem divide_eq {x y : ℚ} (h : y ≠ 0) : divide x y = .ok (x / y) := if_neg h

/-- The denominator of a ratio is not zero in either period. -/
structure RatioTotals.Valued (ratio : RatioTotals) (overall : LeafValues) : Prop where
  base : (leafValue overall ratio.denominator).1 ≠ 0
  compare : (leafValue overall ratio.denominator).2 ≠ 0

namespace RatioTotals

variable {ratio : RatioTotals} {overall : LeafValues}

theorem Valued.swap (h : ratio.Valued overall) : ratio.Valued overall.swap where
  base := by simpa using h.compare
  compare := by simpa using h.base

variable (h : ratio.Valued overall)

include h

theorem total_eq : ratio.total overall = .ok
    { base := (leafValue overall ratio.numerator).1 / (leafValue overall ratio.denominator).1
      compare := (leafValue overall ratio.numerator).2 / (leafValue overall ratio.denominator).2
      delta := (leafValue overall ratio.numerator).2 / (leafValue overall ratio.denominator).2 -
        (leafValue overall ratio.numerator).1 / (leafValue overall ratio.denominator).1 } := by
  simp only [total, divide_eq h.base, divide_eq h.compare]
  rfl

theorem inverse_eq : ratio.inverse overall = .ok
    ((1 / (leafValue overall ratio.denominator).1 +
        1 / (leafValue overall ratio.denominator).2) / 2,
      1 / (leafValue overall ratio.denominator).2 -
        1 / (leafValue overall ratio.denominator).1) := by
  simp only [inverse, divide_eq h.base, divide_eq h.compare]
  rfl

/-- To swap the periods keeps `avg(1/D)` and negates `Δ(1/D)`. -/
theorem inverse_swap {avg change : ℚ} (hinv : ratio.inverse overall = .ok (avg, change)) :
    ratio.inverse overall.swap = .ok (avg, -change) := by
  rw [inverse_eq h] at hinv
  rw [inverse_eq h.swap]
  obtain ⟨rfl, rfl⟩ := Prod.mk.inj (Except.ok.inj hinv)
  simp [add_comm]

theorem total_swap : ratio.total overall.swap = (ratio.total overall).map Total.swap := by
  rw [total_eq h, total_eq h.swap]
  simp [Except.map, Total.swap]

end RatioTotals

/-! ## Shift-share -/

namespace RatioShiftShareMethod

variable {self : RatioShiftShareMethod} {overall : LeafValues}

theorem sum_effects (h : self.ratio.Valued overall) : ∃ t es, self.total overall = .ok t ∧
    self.effects overall = .ok es ∧ (es.map (·.contribution)).sum = t.delta := by
  have h0 := h.base
  have h1 := h.compare
  refine ⟨_, _, RatioTotals.total_eq h, bind_eq_ok.mpr ⟨_, RatioTotals.inverse_eq h, rfl⟩, ?_⟩
  simp only [List.map_cons, List.map_nil, List.sum_cons, List.sum_nil, delta, mid]
  field_simp
  ring

theorem effects_swap (h : self.ratio.Valued overall) :
    self.effects overall.swap = (self.effects overall).map (List.map Effect.swap) := by
  obtain ⟨⟨avg, change⟩, hinv⟩ : ∃ i, self.ratio.inverse overall = .ok i :=
    ⟨_, RatioTotals.inverse_eq h⟩
  rw [effects, effects, hinv, RatioTotals.inverse_swap h hinv]
  simp [Except.map, Effect.swap]

/-! ### Rows -/

section

variable {member : Member} {values : LeafValues} {D0 D1 : ℚ}

/-- The share, the rate and the two effects of a member in both periods. -/
def bothRow (member : Member) (s0 s1 r0 r1 : ℚ) : ShiftShareRow where
  member := member
  shareBase := s0
  shareCompare := s1
  rateBase := some r0
  rateCompare := some r1
  mix := (s1 - s0) * (r0 + r1) / 2
  rate := (s0 + s1) / 2 * (r1 - r0)
  contribution := (s1 - s0) * (r0 + r1) / 2 + (s0 + s1) / 2 * (r1 - r0)
  presence := some .both

def compareOnlyRow (member : Member) (s1 r1 : ℚ) : ShiftShareRow where
  member := member
  shareBase := 0
  shareCompare := s1
  rateBase := none
  rateCompare := some r1
  mix := s1 * r1
  rate := 0
  contribution := s1 * r1
  presence := some .compareOnly

def baseOnlyRow (member : Member) (s0 r0 : ℚ) : ShiftShareRow where
  member := member
  shareBase := s0
  shareCompare := 0
  rateBase := some r0
  rateCompare := none
  mix := -s0 * r0
  rate := 0
  contribution := -s0 * r0
  presence := some .baseOnly

/-- What `_row` returns, by the periods the member has a denominator in. -/
theorem row_eq (hD0 : D0 ≠ 0) (hD1 : D1 ≠ 0) {n d : ℚ × ℚ}
    (hn : leafValue values self.ratio.numerator = n)
    (hd : leafValue values self.ratio.denominator = d) :
    self.row member values D0 D1 = .ok
      (if d.1 = 0 then
        if d.2 = 0 then none else some (compareOnlyRow member (d.2 / D1) (n.2 / d.2))
      else if d.2 = 0 then some (baseOnlyRow member (d.1 / D0) (n.1 / d.1))
      else some (bothRow member (d.1 / D0) (d.2 / D1) (n.1 / d.1) (n.2 / d.2))) := by
  subst hn hd
  simp only [row, divide_eq hD0, divide_eq hD1, ok_bind]
  by_cases h0 : (leafValue values self.ratio.denominator).1 = 0
  · by_cases h1 : (leafValue values self.ratio.denominator).2 = 0
    · simp [h0, h1]
    · simp [h0, h1, divide_eq h1, compareOnlyRow]
  · by_cases h1 : (leafValue values self.ratio.denominator).2 = 0
    · simp [h0, h1, divide_eq h0, baseOnlyRow]
    · simp [h0, h1, divide_eq h0, divide_eq h1, bothRow]

theorem row_swap (hD0 : D0 ≠ 0) (hD1 : D1 ≠ 0) :
    self.row member values.swap D1 D0 =
      (self.row member values D0 D1).map (Option.map ShiftShareRow.swap) := by
  rw [row_eq hD1 hD0 (leafValue_swap _ _) (leafValue_swap _ _), row_eq hD0 hD1 rfl rfl]
  simp only [Except.map, Prod.fst_swap, Prod.snd_swap]
  congr 1
  by_cases h0 : (leafValue values self.ratio.denominator).1 = 0
  · by_cases h1 : (leafValue values self.ratio.denominator).2 = 0
    · simp [h0, h1]
    · simp [h0, h1, compareOnlyRow, baseOnlyRow, ShiftShareRow.swap, Presence.swap]
  · by_cases h1 : (leafValue values self.ratio.denominator).2 = 0
    · simp [h0, h1, compareOnlyRow, baseOnlyRow, ShiftShareRow.swap, Presence.swap]
    · simp only [h0, h1, if_false, bothRow, ShiftShareRow.swap, Option.map_some, Presence.swap,
        Option.some.injEq, ShiftShareRow.mk.injEq, true_and, and_true]
      refine ⟨?_, ?_, ?_⟩ <;> ring

variable (self member values) in
/-- A member contributes its move of `n/D`, unless it has a numerator without a denominator. -/
theorem exists_row (hD0 : D0 ≠ 0) (hD1 : D1 ≠ 0) :
    ∃ r, self.row member values D0 D1 = .ok r ∧
      (((leafValue values self.ratio.denominator).1 = 0 →
          (leafValue values self.ratio.numerator).1 = 0) →
        ((leafValue values self.ratio.denominator).2 = 0 →
          (leafValue values self.ratio.numerator).2 = 0) →
        (r.map (·.contribution)).getD 0 = (leafValue values self.ratio.numerator).2 / D1 -
          (leafValue values self.ratio.numerator).1 / D0) := by
  refine ⟨_, row_eq hD0 hD1 rfl rfl, fun hn0 hn1 => ?_⟩
  by_cases h0 : (leafValue values self.ratio.denominator).1 = 0
  · by_cases h1 : (leafValue values self.ratio.denominator).2 = 0
    · simp [h0, h1, hn0 h0, hn1 h1]
    · simp only [h0, h1, hn0 h0, if_true, if_false, Option.map_some, Option.getD_some,
        compareOnlyRow]
      field_simp
      ring
  · by_cases h1 : (leafValue values self.ratio.denominator).2 = 0
    · simp only [h0, h1, hn1 h1, if_true, if_false, Option.map_some, Option.getD_some,
        baseOnlyRow]
      field_simp
      ring
    · simp only [h0, h1, if_false, Option.map_some, Option.getD_some, bothRow]
      field_simp
      ring

end

/-- No member has a numerator in a period it has no denominator in. -/
def Rated (self : RatioShiftShareMethod) (members : MemberValues) : Prop :=
  ∀ entry ∈ members,
    ((leafValue entry.2 self.ratio.denominator).1 = 0 →
      (leafValue entry.2 self.ratio.numerator).1 = 0) ∧
    ((leafValue entry.2 self.ratio.denominator).2 = 0 →
      (leafValue entry.2 self.ratio.numerator).2 = 0)

theorem exists_rows (self : RatioShiftShareMethod) {D0 D1 : ℚ} (hD0 : D0 ≠ 0) (hD1 : D1 ≠ 0)
    (members : MemberValues) :
    ∃ rows, members.mapM (fun entry => self.row entry.1 entry.2 D0 D1) = .ok rows ∧
      (self.Rated members → (rows.reduceOption.map (·.contribution)).sum =
        (members.sum self.ratio.numerator).2 / D1 -
          (members.sum self.ratio.numerator).1 / D0) := by
  induction members with
  | nil => exact ⟨[], rfl, fun _ => by simp [MemberValues.sum]⟩
  | cons entry members ih =>
      obtain ⟨r, hr, hcontribution⟩ :=
        exists_row self entry.1 entry.2 hD0 hD1
      obtain ⟨rows, hrows, hsum⟩ := ih
      refine ⟨r :: rows, by rw [List.mapM_cons, hr, ok_bind, hrows]; rfl, fun hrated => ?_⟩
      have hentry := hrated entry (by simp)
      have hcons : ((r :: rows).reduceOption.map (·.contribution)).sum =
          (r.map (·.contribution)).getD 0 + (rows.reduceOption.map (·.contribution)).sum := by
        cases r with
        | none => simp
        | some r => simp
      rw [hcons, hcontribution hentry.1 hentry.2,
        hsum fun e he => hrated e (List.mem_cons_of_mem _ he)]
      simp only [MemberValues.sum, List.map_cons, List.sum_cons]
      ring

/-- The rows of a split, before they are listed, and what the split makes of them. -/
theorem split_eq (h : self.ratio.Valued overall) {members : MemberValues}
    {rows : List (Option ShiftShareRow)}
    (hrows : members.mapM (fun entry => self.row entry.1 entry.2
      (leafValue overall self.ratio.denominator).1
      (leafValue overall self.ratio.denominator).2) = .ok rows) (topN : Int) :
    ∃ t, self.total overall = .ok t ∧ self.split overall members topN = .ok
      { rows := top (ranked rows.reduceOption (·.contribution) (·.member)) topN mergeShiftShare
        residual := t.delta - (rows.reduceOption.map (·.contribution)).sum } := by
  refine ⟨_, RatioTotals.total_eq h, ?_⟩
  have hlisted : ((top (ranked rows.reduceOption (·.contribution) (·.member)) topN
      mergeShiftShare).map (·.contribution)).sum = (rows.reduceOption.map (·.contribution)).sum :=
    sum_top_ranked ShiftShareRow.contribution ShiftShareRow.member (fun _ => rfl) _ _
  simp only [split, hrows, ok_bind, total, RatioTotals.total_eq h, hlisted]
  rfl

/-- A split by shift-share reports what its rows miss of the change, which is nothing where the
members add up to the numerator. -/
theorem split_reports (h : self.ratio.Valued overall) (members : MemberValues) (topN : Int) :
    ∃ b t, self.split overall members topN = .ok b ∧ self.total overall = .ok t ∧
      b.residual = t.delta - (b.rows.map (·.contribution)).sum ∧
      (members.sum self.ratio.numerator = leafValue overall self.ratio.numerator →
        self.Rated members → b.residual = 0) := by
  obtain ⟨rows, hrows, hcontributions⟩ := exists_rows self h.base h.compare members
  obtain ⟨t, ht, hsplit⟩ := split_eq h hrows topN
  refine ⟨_, t, hsplit, ht, ?_, fun hsum hrated => ?_⟩
  · have hlisted := @sum_top_ranked _ mergeShiftShare ShiftShareRow.contribution
      ShiftShareRow.member (fun _ => rfl) rows.reduceOption topN
    simp only [hlisted]
  · have htotal := Except.ok.inj (ht.symm.trans (RatioTotals.total_eq h))
    simp only [hcontributions hrated, hsum, htotal, sub_self]

theorem mapM_row_swap {D0 D1 : ℚ} (hD0 : D0 ≠ 0) (hD1 : D1 ≠ 0) {members : MemberValues}
    {rows : List (Option ShiftShareRow)}
    (h : members.mapM (fun entry => self.row entry.1 entry.2 D0 D1) = .ok rows) :
    members.swap.mapM (fun entry => self.row entry.1 entry.2 D1 D0) =
      .ok (rows.map (Option.map ShiftShareRow.swap)) := by
  rw [mapM_eq_ok] at h ⊢
  rw [MemberValues.swap, List.forall₂_map_left_iff, List.forall₂_map_right_iff]
  refine h.imp fun entry r hr => ?_
  rw [row_swap hD0 hD1, hr]
  rfl

theorem abs_swap_contribution (r : ShiftShareRow) : |r.swap.contribution| = |r.contribution| :=
  abs_neg _

theorem split_swap (h : self.ratio.Valued overall) (members : MemberValues) (topN : Int) :
    self.split overall.swap members.swap topN =
      (self.split overall members topN).map (Breakdown.swap ShiftShareRow.swap) := by
  obtain ⟨rows, hrows, -⟩ := exists_rows self h.base h.compare members
  have hswapped := mapM_row_swap h.base h.compare hrows
  obtain ⟨t, ht, hsplit⟩ := split_eq h hrows topN
  obtain ⟨t', ht', hsplit'⟩ := split_eq h.swap (by simpa using hswapped) topN
  have htotal : t' = t.swap := by
    have := RatioTotals.total_swap h
    rw [total] at ht ht'
    rw [ht, ht'] at this
    exact Except.ok.inj this
  have hlist : (rows.map (Option.map ShiftShareRow.swap)).reduceOption =
      rows.reduceOption.map ShiftShareRow.swap := List.reduceOption_map
  have hranked : ranked (rows.reduceOption.map ShiftShareRow.swap) ShiftShareRow.contribution
      ShiftShareRow.member = (ranked rows.reduceOption ShiftShareRow.contribution
        ShiftShareRow.member).map ShiftShareRow.swap :=
    ranked_map ShiftShareRow.swap abs_swap_contribution (fun _ => rfl) _
  have hsum : ((rows.reduceOption.map ShiftShareRow.swap).map ShiftShareRow.contribution).sum =
      -(rows.reduceOption.map ShiftShareRow.contribution).sum := by
    rw [List.map_map, ← sum_map_neg]
    rfl
  rw [hsplit, hsplit', hlist, hranked, hsum, htotal,
    top_map ShiftShareRow.swap mergeShiftShare_swap]
  simp only [Except.map, Breakdown.swap, Total.swap]
  congr 2
  ring

end RatioShiftShareMethod

/-! ## Parts by name -/

theorem foldl_set_map {α β : Type} (f : α → β) (g : String → α) (parts : List String)
    (d : Dict α) :
    parts.foldl (fun d part => Dict.set d part (f (g part))) (d.map fun p => (p.1, f p.2)) =
      (parts.foldl (fun d part => Dict.set d part (g part)) d).map fun p => (p.1, f p.2) := by
  induction parts generalizing d with
  | nil => rfl
  | cons part parts ih => rw [List.foldl_cons, List.foldl_cons, Dict.set_map, ih]

theorem Dict.keys_set {α : Type} (d : Dict α) (key : String) (value : α) :
    (d.set key value).map (·.1) =
      d.map (·.1) ++ if key ∈ d.map (·.1) then [] else [key] := by
  unfold Dict.set
  by_cases h : key ∈ d.map (·.1)
  · have hkeys : ∀ p : String × α, (if p.1 == key then (key, value) else p).1 = p.1 := by
      intro p
      by_cases hp : p.1 = key <;> simp [hp]
    rw [if_pos (Dict.has_iff.mpr h), if_pos h, List.append_nil, List.map_map]
    exact List.map_congr_left fun p _ => hkeys p
  · rw [if_neg (Dict.has_iff.not.mpr h), if_neg h, List.map_append]
    rfl

/-- Entries that are set one after the other stand in the order of their first setting. -/
theorem keys_foldl_set {α : Type} (g : String → α) (parts : List String) (d : Dict α) :
    (parts.foldl (fun d part => Dict.set d part (g part)) d).map (·.1) =
      d.map (·.1) ++ (parts.filter fun part => part ∉ d.map (·.1)).eraseDups := by
  induction parts generalizing d with
  | nil => simp
  | cons part parts ih =>
      rw [List.foldl_cons, ih, Dict.keys_set]
      by_cases h : part ∈ d.map (·.1)
      · rw [if_pos h, List.append_nil, List.filter_cons_of_neg (by simpa using h)]
      · rw [if_neg h, List.filter_cons_of_pos (by simpa using h), List.eraseDups_cons,
          List.filter_filter, List.append_assoc]
        refine congrArg (fun xs => d.map (·.1) ++ part :: List.eraseDups xs) ?_
        refine List.filter_congr fun x _ => ?_
        by_cases hx : x = part
        · simp [hx]
        · have hmem : x ∈ d.map (·.1) ++ [part] ↔ x ∈ d.map (·.1) := by simp [hx]
          simp only [hmem, beq_eq_false_iff_ne.mpr hx, Bool.not_false,
            Bool.true_and, decide_not]

theorem mem_foldl_set {α : Type} (g : String → α) (parts : List String) (d : Dict α)
    {p : String × α} (h : p ∈ parts.foldl (fun d part => Dict.set d part (g part)) d) :
    p ∈ d ∨ p.1 ∈ parts ∧ p.2 = g p.1 := by
  induction parts generalizing d with
  | nil => exact .inl h
  | cons part parts ih =>
      rcases ih _ h with hd | ⟨hmem, heq⟩
      · rcases Dict.mem_set.mp hd with ⟨hkey, hval⟩ | ⟨-, hold⟩
        · exact .inr ⟨by simp [hkey], by rw [hval, hkey]⟩
        · exact .inl hold
      · exact .inr ⟨List.mem_cons_of_mem _ hmem, heq⟩

/-! ## Numerator parts -/

namespace RatioPartsMethod

variable {self : RatioPartsMethod} {overall : LeafValues}

/-- The parts add up to the numerator in both periods. -/
structure PartsSum (method : RatioPartsMethod) (overall : LeafValues) : Prop where
  base : (method.parts.map fun part => (leafValue overall part).1).sum =
    (leafValue overall method.ratio.numerator).1
  compare : (method.parts.map fun part => (leafValue overall part).2).sum =
    (leafValue overall method.ratio.numerator).2

/-- The moving parts miss the denominator as often as it is a part, which is a constant of the
ratio. -/
theorem sum_parts (index : ℚ × ℚ → ℚ) :
    (self.parts.map fun part => index (leafValue overall part)).sum =
      (self.movingParts.map fun part => index (leafValue overall part)).sum +
        (self.parts.count self.ratio.denominator) *
          index (leafValue overall self.ratio.denominator) := by
  unfold movingParts
  induction self.parts with
  | nil => simp
  | cons part parts ih =>
      by_cases hpart : part = self.ratio.denominator
      · subst hpart
        simp only [List.map_cons, List.sum_cons, ih, bne_self_eq_false, Bool.false_eq_true,
          not_false_eq_true, List.filter_cons_of_neg, List.count_cons_self, Nat.cast_add,
          Nat.cast_one]
        ring
      · rw [List.map_cons, List.sum_cons, ih, List.filter_cons_of_pos (by simpa using hpart),
          List.map_cons, List.sum_cons, List.count_cons_of_ne hpart]
        ring

theorem sum_delta_mul (parts : List String) (scale : ℚ) :
    (parts.map fun part => delta (leafValue overall part) * scale).sum =
      ((parts.map fun part => (leafValue overall part).2).sum -
        (parts.map fun part => (leafValue overall part).1).sum) * scale := by
  induction parts with
  | nil => simp
  | cons part parts ih =>
      rw [List.map_cons, List.sum_cons, ih, delta]
      simp only [List.map_cons, List.sum_cons]
      ring

theorem sum_mid (parts : List String) :
    (parts.map fun part => mid (leafValue overall part)).sum =
      ((parts.map fun part => (leafValue overall part).1).sum +
        (parts.map fun part => (leafValue overall part).2).sum) / 2 := by
  induction parts with
  | nil => simp
  | cons part parts ih =>
      rw [List.map_cons, List.sum_cons, ih, mid]
      simp only [List.map_cons, List.sum_cons]
      ring

theorem sum_effects (h : self.ratio.Valued overall) (hparts : self.PartsSum overall) :
    ∃ t es, self.total overall = .ok t ∧ self.effects overall = .ok es ∧
      (es.map (·.contribution)).sum = t.delta := by
  have h0 := h.base
  have h1 := h.compare
  have hbase := hparts.base
  have hcompare := hparts.compare
  rw [sum_parts Prod.fst] at hbase
  rw [sum_parts Prod.snd] at hcompare
  refine ⟨_, _, RatioTotals.total_eq h, bind_eq_ok.mpr ⟨_, RatioTotals.inverse_eq h, rfl⟩, ?_⟩
  simp only [List.map_append, List.map_map, List.map_cons, List.map_nil, List.sum_append,
    List.sum_cons, List.sum_nil, Function.comp_def, sum_delta_mul, sum_mid, ← hbase, ← hcompare]
  field_simp
  ring

theorem effects_swap (h : self.ratio.Valued overall) :
    self.effects overall.swap = (self.effects overall).map (List.map Effect.swap) := by
  obtain ⟨⟨avg, change⟩, hinv⟩ : ∃ i, self.ratio.inverse overall = .ok i :=
    ⟨_, RatioTotals.inverse_eq h⟩
  rw [effects, effects, hinv, RatioTotals.inverse_swap h hinv]
  simp [Except.map, Effect.swap, Function.comp_def]

/-! ### Rows -/

theorem partBreakdown_residual {members : MemberValues} {part : String}
    (hsum : members.sum part = leafValue overall part) (avgInverse : ℚ) (topN : Int) :
    (partBreakdown overall members avgInverse topN part).residual = 0 := by
  simp only [partBreakdown, sumRows_additiveRows, hsum, sub_self]

theorem partBreakdown_swap (members : MemberValues) (avgInverse : ℚ) (topN : Int)
    (part : String) : partBreakdown overall.swap members.swap avgInverse topN part =
      (partBreakdown overall members avgInverse topN part).swap AdditiveRow.swap := by
  simp only [partBreakdown, additiveRows_swap, sumRows_swap, leafValue_swap, delta_swap,
    Breakdown.swap, Breakdown.mk.injEq, true_and]
  ring

theorem denominatorRow_swap (entry : Member × LeafValues) :
    self.denominatorRow (entry.1, LeafValues.swap entry.2) =
      (self.denominatorRow entry).map DenominatorRow.swap := by
  simp only [denominatorRow, leafValue_swap, Prod.fst_swap, Prod.snd_swap, or_comm]
  split
  · simp [DenominatorRow.swap]
  · rfl

theorem denominatorRows_swap (members : MemberValues) :
    members.swap.filterMap self.denominatorRow =
      (members.filterMap self.denominatorRow).map DenominatorRow.swap := by
  rw [MemberValues.swap, List.filterMap_map, List.map_filterMap]
  exact List.filterMap_congr fun entry _ => denominatorRow_swap entry

theorem abs_swap_delta (r : DenominatorRow) : |r.swap.delta| = |r.delta| := abs_neg _

/-- A breakdown for each moving part, in order, reports what its rows miss of the effect of the
part. -/
structure ReportsParts (method : RatioPartsMethod) (overall : LeafValues) (b : PartsBreakdown) :
    Prop where
  names : b.parts.map (·.1) = method.movingParts.eraseDups
  residual : ∃ es, method.effects overall = .ok es ∧ ∀ p ∈ b.parts, ∃ e ∈ es,
    e.effect = .part ∧ e.metric = p.1 ∧ p.2.residual = e.contribution - sumRows p.2.rows

theorem split_reports (h : self.ratio.Valued overall) (members : MemberValues) (topN : Int) :
    ∃ b, self.split overall members topN = .ok b ∧ self.ReportsParts overall b ∧
      ((∀ part ∈ self.movingParts, members.sum part = leafValue overall part) →
        ∀ p ∈ b.parts, p.2.residual = 0) := by
  obtain ⟨⟨avg, change⟩, hinv⟩ : ∃ i, self.ratio.inverse overall = .ok i :=
    ⟨_, RatioTotals.inverse_eq h⟩
  have hpart : ∀ p ∈ self.movingParts.foldl (fun parts part =>
      Dict.set parts part (partBreakdown overall members avg topN part)) [],
        p.1 ∈ self.movingParts ∧ p.2 = partBreakdown overall members avg topN p.1 := by
    intro p hp
    rcases mem_foldl_set _ _ _ hp with hnil | hmem
    · exact absurd hnil List.not_mem_nil
    · exact hmem
  refine ⟨_, bind_eq_ok.mpr ⟨_, hinv, rfl⟩, ⟨?_, _, bind_eq_ok.mpr ⟨_, hinv, rfl⟩, ?_⟩, ?_⟩
  · rw [keys_foldl_set]
    simp
  · intro p hp
    obtain ⟨hmem, heq⟩ := hpart p hp
    refine ⟨_, List.mem_append_left _ (List.mem_map.mpr ⟨p.1, hmem, rfl⟩), rfl, rfl, ?_⟩
    rw [heq]
    rfl
  · intro hsum p hp
    obtain ⟨hmem, heq⟩ := hpart p hp
    rw [heq, partBreakdown_residual (hsum p.1 hmem)]

theorem split_swap (h : self.ratio.Valued overall) (members : MemberValues) (topN : Int) :
    self.split overall.swap members.swap topN =
      (self.split overall members topN).map PartsBreakdown.swap := by
  obtain ⟨⟨avg, change⟩, hinv⟩ : ∃ i, self.ratio.inverse overall = .ok i :=
    ⟨_, RatioTotals.inverse_eq h⟩
  have hranked : ranked ((members.filterMap self.denominatorRow).map DenominatorRow.swap)
      DenominatorRow.delta DenominatorRow.member = (ranked (members.filterMap self.denominatorRow)
        DenominatorRow.delta DenominatorRow.member).map DenominatorRow.swap :=
    ranked_map DenominatorRow.swap abs_swap_delta (fun _ => rfl) _
  rw [split, split, hinv, RatioTotals.inverse_swap h hinv]
  simp only [ok_bind, partBreakdown_swap, denominatorRows_swap, Except.map, PartsBreakdown.swap]
  rw [hranked, top_map DenominatorRow.swap mergeDenominator_swap]
  refine congrArg Except.ok ?_
  rw [PartsBreakdown.mk.injEq]
  exact ⟨foldl_set_map _ _ _ [], rfl⟩

end RatioPartsMethod

/-! ## Methods -/

/-- What the rows of a split miss: of the change, or of the effect of each part. -/
def Split.residuals : Split → List ℚ
  | .additive b => [b.residual]
  | .shiftShare b => [b.residual]
  | .parts b => b.parts.map (·.2.residual)

def Split.swap : Split → Split
  | .additive b => .additive (b.swap AdditiveRow.swap)
  | .shiftShare b => .shiftShare (b.swap ShiftShareRow.swap)
  | .parts b => .parts b.swap

theorem AdditiveMethod.split_residual {self : AdditiveMethod} {overall : LeafValues}
    {members : MemberValues} (hsum : members.sum self.metric = leafValue overall self.metric)
    (topN : Int) : (self.split overall members topN).residual = 0 := by
  simp only [AdditiveMethod.split, AdditiveMethod.total, sumRows_additiveRows, hsum, delta]
  ring

theorem AdditiveMethod.split_swap (self : AdditiveMethod) (overall : LeafValues)
    (members : MemberValues) (topN : Int) : self.split overall.swap members.swap topN =
      (self.split overall members topN).swap AdditiveRow.swap := by
  simp only [AdditiveMethod.split, AdditiveMethod.total, additiveRows_swap, sumRows_swap,
    leafValue_swap, Prod.fst_swap, Prod.snd_swap, Breakdown.swap, Breakdown.mk.injEq, true_and]
  ring

namespace DecompositionMethod

/-- The ratio a method attributes. -/
def ratio : DecompositionMethod → Option RatioTotals
  | .additive _ => none
  | .ratioShiftShare m => some m.ratio
  | .ratioParts m => some m.ratio

/-- A ratio has a denominator in both periods. -/
def Valued (self : DecompositionMethod) (overall : LeafValues) : Prop :=
  ∀ ratio ∈ self.ratio, ratio.Valued overall

/-- Numerator parts add up to the numerator in both periods. -/
def PartsSum (overall : LeafValues) : DecompositionMethod → Prop
  | .ratioParts m => m.PartsSum overall
  | _ => True

/-- The members add up to the overall values of all metrics the method reads. -/
def MembersSum (self : DecompositionMethod) (overall : LeafValues) (members : MemberValues) :
    Prop :=
  ∀ metric ∈ self.leafMetrics, members.sum metric = leafValue overall metric

/-- A split is of the shape of its method, with what its rows miss: of the change of the metric, or
of the effect of each moving part. -/
def Reports (overall : LeafValues) : DecompositionMethod → Split → Prop
  | .additive m, .additive b => b.residual = (m.total overall).delta - sumRows b.rows
  | .ratioShiftShare m, .shiftShare b => ∃ t, m.total overall = .ok t ∧
      b.residual = t.delta - (b.rows.map (·.contribution)).sum
  | .ratioParts m, .parts b => m.ReportsParts overall b
  | _, _ => False

/-- No member has a numerator in a period it has no denominator in. -/
def Rated (self : DecompositionMethod) (members : MemberValues) : Prop :=
  ∀ ratio ∈ self.ratio, (RatioShiftShareMethod.mk ratio).Rated members

end DecompositionMethod

/-- **A decomposition is exact and symmetric.** The effects of a ratio add up to its change; a split
reports what its listed rows, with the rest row, leave unexplained of the change or of the effect of
each moving part, and that is nothing where the members add up to the overall values and none has a
numerator without a denominator; and with base and compare swapped, the same members are listed in
the same order with every contribution, mix and rate negated. -/
theorem decomposition_exact_symmetric (m : DecompositionMethod) (overall : LeafValues)
    (h : m.Valued overall) :
    (m.ratio.isSome → m.PartsSum overall → ∃ t es, m.total overall = .ok t ∧
      m.effects overall = .ok es ∧ (es.map (·.contribution)).sum = t.delta) ∧
    (∀ members topN, ∃ b, m.split overall members topN = .ok b ∧ m.Reports overall b ∧
      (m.MembersSum overall members → m.Rated members → ∀ r ∈ b.residuals, r = 0)) ∧
    m.total overall.swap = (m.total overall).map Total.swap ∧
    m.effects overall.swap = (m.effects overall).map (List.map Effect.swap) ∧
    ∀ members : MemberValues, ∀ topN, m.split overall.swap members.swap topN =
      (m.split overall members topN).map Split.swap := by
  cases m with
  | additive m =>
      refine ⟨fun hratio => by simp [DecompositionMethod.ratio] at hratio,
        fun members topN => ⟨_, rfl, rfl, fun hsum _ => ?_⟩, ?_, rfl, fun members topN => ?_⟩
      · simpa [Split.residuals] using
          AdditiveMethod.split_residual (hsum m.metric (by
            simp [DecompositionMethod.leafMetrics, AdditiveMethod.leafMetrics])) topN
      · simp [DecompositionMethod.total, AdditiveMethod.total, Except.map, pure, Except.pure,
          Total.swap]
      · simp only [DecompositionMethod.split, AdditiveMethod.split_swap]
        rfl
  | ratioShiftShare m =>
      have hvalued : m.ratio.Valued overall := h _ rfl
      refine ⟨fun _ _ => m.sum_effects hvalued, fun members topN => ?_,
        RatioTotals.total_swap hvalued, RatioShiftShareMethod.effects_swap hvalued,
        fun members topN => ?_⟩
      · obtain ⟨b, t, hb, ht, hresidual, hzero⟩ :=
          RatioShiftShareMethod.split_reports hvalued members topN
        refine ⟨.shiftShare b, by simp [DecompositionMethod.split, hb], ⟨t, ht, hresidual⟩,
          fun hsum hrated => ?_⟩
        have hnumerator := hsum m.ratio.numerator (by
          simp [DecompositionMethod.leafMetrics, RatioShiftShareMethod.leafMetrics])
        simpa [Split.residuals] using hzero hnumerator (hrated _ rfl)
      · simp only [DecompositionMethod.split, RatioShiftShareMethod.split_swap hvalued]
        cases m.split overall members topN with
        | error e => rfl
        | ok b => rfl
  | ratioParts m =>
      have hvalued : m.ratio.Valued overall := h _ rfl
      refine ⟨fun _ hparts => m.sum_effects hvalued hparts, fun members topN => ?_,
        RatioTotals.total_swap hvalued, RatioPartsMethod.effects_swap hvalued,
        fun members topN => ?_⟩
      · obtain ⟨b, hb, hreports, hzero⟩ := RatioPartsMethod.split_reports hvalued members topN
        refine ⟨.parts b, by simp [DecompositionMethod.split, hb], hreports, fun hsum _ r hr => ?_⟩
        obtain ⟨p, hp, rfl⟩ := List.mem_map.mp hr
        refine hzero (fun part hpart => hsum part ?_) p hp
        have := (List.mem_filter.mp hpart).1
        simp [DecompositionMethod.leafMetrics, RatioPartsMethod.leafMetrics, this]
      · simp only [DecompositionMethod.split, RatioPartsMethod.split_swap hvalued]
        cases m.split overall members topN with
        | error e => rfl
        | ok b => rfl

/-- A share of visits, with the visits themselves among the parts of the numerator. -/
private def visitShare : RatioPartsMethod where
  ratio := ⟨"contacts", "visits", "contact_rate", ⟨"day", "2024-01-01", "2024-01-02"⟩⟩
  parts := ["calls", "visits"]
  tolerance := 0

private def visitValues : LeafValues :=
  [("contacts", (3, 6)), ("visits", (1, 2)), ("calls", (2, 4))]

/-- The calls are the only moving part. -/
theorem decomposition_visitShare :
    (∃ t es, visitShare.total visitValues = .ok t ∧ visitShare.effects visitValues = .ok es ∧
      (es.map (·.contribution)).sum = t.delta) ∧
    ∃ b, visitShare.split visitValues [(.other "str" "north", visitValues)] 0 = .ok b ∧
      b.parts.map (·.1) = ["calls"] ∧ ∀ p ∈ b.parts, p.2.residual = 0 := by
  have hvalued : (DecompositionMethod.ratioParts visitShare).Valued visitValues := by
    rintro ratio ⟨⟩
    exact ⟨by decide +kernel, by decide +kernel⟩
  obtain ⟨heffects, hsplit, -⟩ :=
    decomposition_exact_symmetric (.ratioParts visitShare) visitValues hvalued
  refine ⟨heffects rfl ⟨by decide +kernel, by decide +kernel⟩, ?_⟩
  obtain ⟨b, hb, hreports, hzero⟩ := hsplit [(.other "str" "north", visitValues)] 0
  obtain ⟨c, hc, rfl⟩ := map_eq_ok.mp hb
  have hparts : visitShare.ReportsParts visitValues c := hreports
  refine ⟨c, hc, hparts.names.trans (by decide +kernel), fun p hp => ?_⟩
  refine hzero (by unfold DecompositionMethod.MembersSum; decide +kernel) ?_ _
    (List.mem_map.mpr ⟨p, hp, rfl⟩)
  rintro ratio ⟨⟩ entry hentry
  rw [List.mem_singleton.mp hentry]
  exact ⟨by decide +kernel, by decide +kernel⟩

end Canonic
