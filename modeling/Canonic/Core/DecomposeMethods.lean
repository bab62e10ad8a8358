import Mathlib
import Canonic.Compiler.AliasTree

set_option autoImplicit false

/-! # The arithmetic of a decomposition

One method per way to attribute the change of a metric between two periods
(`core/decompose_methods.py`): additive, by shift-share, by numerator parts. A method reads
aggregates that are already fetched, overall and per member of a split dimension; the numbers
are exact rationals here. A division by zero is the exception Python raises. -/

namespace Canonic

/-! ## Values -/

/-- The value of each leaf metric in the base and the compare period. -/
abbrev LeafValues := Dict (ℚ × ℚ)

/-- A member of a split dimension: `NULL`, a number, or any other value, which has a type and a
text. -/
inductive Member where
  | null
  | int (n : Int)
  | float (x : ℚ)
  | other (type text : String)
  deriving DecidableEq, Repr

/-- The leaf values per member of one split dimension, in the order of the mapping. -/
abbrev MemberValues := List (Member × LeafValues)

/-- How the two periods are named in an error message. -/
structure PeriodLabels where
  dimension : String
  base : String
  compare : String
  deriving DecidableEq, Repr

/-- `_value`: a metric without a value is zero in both periods. -/
def leafValue (values : LeafValues) (metric : String) : ℚ × ℚ := values.getD metric (0, 0)

/-- `_mid`. -/
def mid (pair : ℚ × ℚ) : ℚ := (pair.1 + pair.2) / 2

/-- `_delta`. -/
def delta (pair : ℚ × ℚ) : ℚ := pair.2 - pair.1

/-- `x / y`. -/
def divide (x y : ℚ) : Except Err ℚ :=
  if y = 0 then throw (.internal "division by zero") else pure (x / y)

/-! ## Ranking -/

/-- `float(n)`: the nearest number with 53 significant bits, a tie goes to the even one. -/
def toFloat (n : Int) : ℚ :=
  let shift := n.natAbs.log2 - 52
  let kept := n.natAbs / 2 ^ shift
  let lost := n.natAbs % 2 ^ shift
  let up := 2 ^ shift < 2 * lost ∨ 2 * lost = 2 ^ shift ∧ kept % 2 = 1
  n.sign * ((if up then kept + 1 else kept) * 2 ^ shift)

abbrev MemberKey := Bool ×ₗ Nat ×ₗ ℚ ×ₗ String

/-- `_member_key`: numbers by value, everything else by text, `NULL` last. -/
def memberKey : Member → MemberKey
  | .null => toLex (true, toLex (0, toLex (0, "")))
  | .int n => toLex (false, toLex (0, toLex (toFloat n, "")))
  | .float x => toLex (false, toLex (0, toLex (x, "")))
  | .other _ text => toLex (false, toLex (1, toLex (0, text)))

/-- The sort key of a row: by absolute magnitude, descending, then by member. -/
def rankKey {R : Type} (magnitude : R → ℚ) (member : R → Member) (row : R) : ℚ ×ₗ MemberKey :=
  toLex (-|magnitude row|, memberKey (member row))

/-- `_ranked`. -/
def ranked {R : Type} (rows : List R) (magnitude : R → ℚ) (member : R → Member) : List R :=
  rows.insertionSort fun a b => rankKey magnitude member a ≤ rankKey magnitude member b

/-- The index a slice of a list of this length stops or starts at: a negative bound counts from
the end. -/
def sliceIndex (length : Nat) (bound : Int) : Nat :=
  if bound < 0 then length - bound.natAbs else bound.toNat

/-- `_top`: the first rows, plus one merged rest row when more remain. -/
def top {R : Type} (rows : List R) (topN : Int) (merge : List R → R) : List R :=
  if (rows.length : Int) ≤ topN then rows
  else rows.take (sliceIndex rows.length topN) ++
    [merge (rows.drop (sliceIndex rows.length topN))]

/-! ## Results -/

structure Total where
  base : ℚ
  compare : ℚ
  delta : ℚ
  deriving DecidableEq, Repr

inductive EffectKind where
  | numerator
  | denominator
  | part
  deriving DecidableEq, Repr

structure Effect where
  effect : EffectKind
  metric : String
  base : ℚ
  compare : ℚ
  contribution : ℚ
  deriving DecidableEq, Repr

/-- In which of the two periods a member has a denominator. -/
inductive Presence where
  | both
  | baseOnly
  | compareOnly
  deriving DecidableEq, Repr

structure AdditiveRow where
  member : Member
  base : ℚ
  compare : ℚ
  contribution : ℚ
  rest : Bool := false
  deriving DecidableEq, Repr

structure ShiftShareRow where
  member : Member
  shareBase : ℚ
  shareCompare : ℚ
  rateBase : Option ℚ
  rateCompare : Option ℚ
  mix : ℚ
  rate : ℚ
  contribution : ℚ
  presence : Option Presence
  rest : Bool := false
  deriving DecidableEq, Repr

structure DenominatorRow where
  member : Member
  base : ℚ
  compare : ℚ
  delta : ℚ
  rest : Bool := false
  deriving DecidableEq, Repr

/-- The rows of a split with what they miss of the change: an `AdditiveBreakdown`, a
`ShiftShareBreakdown` or the `PartBreakdown` of one part, by its rows. -/
structure Breakdown (R : Type) where
  rows : List R
  residual : ℚ
  deriving DecidableEq, Repr

structure PartsBreakdown where
  parts : Dict (Breakdown AdditiveRow)
  /-- The rows of the `DenominatorBreakdown`. -/
  denominator : List DenominatorRow
  deriving DecidableEq, Repr

/-! ## Rest rows -/

/-- `_sum`. -/
def sumRows (rows : List AdditiveRow) : ℚ := (rows.map (·.contribution)).sum

/-- `_merge_additive`. -/
def mergeAdditive (rows : List AdditiveRow) : AdditiveRow where
  member := .null
  base := (rows.map (·.base)).sum
  compare := (rows.map (·.compare)).sum
  contribution := sumRows rows
  rest := true

/-- `_merge_shift_share`. -/
def mergeShiftShare (rows : List ShiftShareRow) : ShiftShareRow where
  member := .null
  shareBase := (rows.map (·.shareBase)).sum
  shareCompare := (rows.map (·.shareCompare)).sum
  rateBase := none
  rateCompare := none
  mix := (rows.map (·.mix)).sum
  rate := (rows.map (·.rate)).sum
  contribution := (rows.map (·.contribution)).sum
  presence := none
  rest := true

/-- `_merge_denominator`. -/
def mergeDenominator (rows : List DenominatorRow) : DenominatorRow where
  member := .null
  base := (rows.map (·.base)).sum
  compare := (rows.map (·.compare)).sum
  delta := (rows.map (·.delta)).sum
  rest := true

/-- The row of one member in `_additive_rows`. -/
def additiveRow (metric : String) (scale : ℚ) (entry : Member × LeafValues) : AdditiveRow :=
  let v := leafValue entry.2 metric
  { member := entry.1, base := v.1, compare := v.2, contribution := (v.2 - v.1) * scale }

/-- `_additive_rows`. -/
def additiveRows (members : MemberValues) (metric : String) (scale : ℚ) (topN : Int) :
    List AdditiveRow :=
  top (ranked (members.map (additiveRow metric scale)) (·.contribution) (·.member)) topN
    mergeAdditive

/-! ## The totals of a ratio -/

/-- The numerator and the denominator of a ratio (`_RatioTotals`). -/
structure RatioTotals where
  numerator : String
  denominator : String
  metric : String
  labels : PeriodLabels
  deriving DecidableEq, Repr

namespace RatioTotals

variable (self : RatioTotals) (overall : LeafValues)

def checkDenominator : Except Err Unit := do
  let (base, compare) := leafValue overall self.denominator
  for (value, period) in [(base, self.labels.base), (compare, self.labels.compare)] do
    if value = 0 then
      throw (.validationFailed (s!"metric {pyRepr self.metric}: the denominator " ++
        s!"{pyRepr self.denominator} is zero in {self.labels.dimension} {period}, so the " ++
        "ratio has no value to decompose"))

def total : Except Err Total := do
  let (n0, n1) := leafValue overall self.numerator
  let (d0, d1) := leafValue overall self.denominator
  let base ← divide n0 d0
  let compare ← divide n1 d1
  return { base, compare, delta := compare - base }

/-- `avg(1/D)` and `Δ(1/D)`. -/
def inverse : Except Err (ℚ × ℚ) := do
  let (d0, d1) := leafValue overall self.denominator
  let i0 ← divide 1 d0
  let i1 ← divide 1 d1
  return ((i0 + i1) / 2, i1 - i0)

end RatioTotals

/-! ## Additive -/

/-- The change of a `single` metric is the sum of the members' changes. -/
structure AdditiveMethod where
  metric : String
  deriving DecidableEq, Repr

namespace AdditiveMethod

variable (self : AdditiveMethod) (overall : LeafValues)

def leafMetrics : List String := [self.metric]

def total : Total :=
  let (base, compare) := leafValue overall self.metric
  { base, compare, delta := compare - base }

def split (members : MemberValues) (topN : Int) : Breakdown AdditiveRow :=
  let rows := additiveRows members self.metric 1 topN
  { rows, residual := (self.total overall).delta - sumRows rows }

end AdditiveMethod

/-! ## Shift-share -/

/-- A ratio without numerator parts: a numerator and a denominator effect, and per member a mix
and a rate effect. -/
structure RatioShiftShareMethod where
  ratio : RatioTotals
  deriving DecidableEq, Repr

namespace RatioShiftShareMethod

variable (self : RatioShiftShareMethod) (overall : LeafValues)

def leafMetrics : List String := [self.ratio.numerator, self.ratio.denominator].eraseDups

def check : Except Err Unit := self.ratio.checkDenominator overall

def total : Except Err Total := self.ratio.total overall

def effects : Except Err (List Effect) := do
  let numerator := leafValue overall self.ratio.numerator
  let denominator := leafValue overall self.ratio.denominator
  let (avgInverse, deltaInverse) ← self.ratio.inverse overall
  return [
    { effect := .numerator, metric := self.ratio.numerator
      base := numerator.1, compare := numerator.2
      contribution := delta numerator * avgInverse },
    { effect := .denominator, metric := self.ratio.denominator
      base := denominator.1, compare := denominator.2
      contribution := mid numerator * deltaInverse }]

/-- `_row`: no row for a member without a denominator in either period. -/
def row (member : Member) (values : LeafValues) (totalD0 totalD1 : ℚ) :
    Except Err (Option ShiftShareRow) := do
  let (n0, n1) := leafValue values self.ratio.numerator
  let (d0, d1) := leafValue values self.ratio.denominator
  let s0 ← divide d0 totalD0
  let s1 ← divide d1 totalD1
  if d0 ≠ 0 ∧ d1 ≠ 0 then
    let r0 ← divide n0 d0
    let r1 ← divide n1 d1
    let mix := (s1 - s0) * (r0 + r1) / 2
    let rate := (s0 + s1) / 2 * (r1 - r0)
    return some
      { member, shareBase := s0, shareCompare := s1, rateBase := some r0, rateCompare := some r1
        mix, rate, contribution := mix + rate, presence := some .both }
  -- a member of one period only has no rate to compare: all of its effect is mix
  else if d1 ≠ 0 then
    let r1 ← divide n1 d1
    return some
      { member, shareBase := 0, shareCompare := s1, rateBase := none, rateCompare := some r1
        mix := s1 * r1, rate := 0, contribution := s1 * r1, presence := some .compareOnly }
  else if d0 ≠ 0 then
    let r0 ← divide n0 d0
    return some
      { member, shareBase := s0, shareCompare := 0, rateBase := some r0, rateCompare := none
        mix := -s0 * r0, rate := 0, contribution := -s0 * r0, presence := some .baseOnly }
  else
    return none

def split (members : MemberValues) (topN : Int) : Except Err (Breakdown ShiftShareRow) := do
  let (totalD0, totalD1) := leafValue overall self.ratio.denominator
  let rows ← members.mapM fun entry => self.row entry.1 entry.2 totalD0 totalD1
  let listed := top (ranked rows.reduceOption (·.contribution) (·.member)) topN mergeShiftShare
  let total ← self.total overall
  return { rows := listed, residual := total.delta - (listed.map (·.contribution)).sum }

end RatioShiftShareMethod

/-! ## Numerator parts -/

/-- A ratio with `numerator_parts`: one effect per part plus one denominator effect. A part that
is the denominator is the constant 1 and drops out. -/
structure RatioPartsMethod where
  ratio : RatioTotals
  parts : List String
  tolerance : ℚ
  deriving DecidableEq, Repr

namespace RatioPartsMethod

variable (self : RatioPartsMethod) (overall : LeafValues)

/-- `_moving_parts`. -/
def movingParts : List String := self.parts.filter fun part => part != self.ratio.denominator

def leafMetrics : List String :=
  (self.ratio.numerator :: self.ratio.denominator :: self.parts).eraseDups

/-- The parts must sum to the numerator in both periods, up to the tolerance, then the
denominator is checked. `reprFloat` is the text `repr` gives a number. -/
def check (reprFloat : ℚ → String) : Except Err Unit := do
  let numerator := leafValue overall self.ratio.numerator
  for (index, period) in [(Prod.fst, self.ratio.labels.base),
      (Prod.snd, self.ratio.labels.compare)] do
    let partsSum := (self.parts.map fun part => index (leafValue overall part)).sum
    let expected := index numerator
    let scale := max |expected| |partsSum|
    if self.tolerance * scale < |partsSum - expected| then
      throw (.decompositionInconsistent (s!"metric {pyRepr self.ratio.metric}: numerator_parts " ++
        s!"{pyReprList self.parts} sum to {reprFloat partsSum} in {self.ratio.labels.dimension} " ++
        s!"{period}, but the numerator {pyRepr self.ratio.numerator} is {reprFloat expected}"))
  self.ratio.checkDenominator overall

def total : Except Err Total := self.ratio.total overall

def effects : Except Err (List Effect) := do
  let (avgInverse, deltaInverse) ← self.ratio.inverse overall
  let parts := self.movingParts.map fun part =>
    let values := leafValue overall part
    { effect := .part, metric := part, base := values.1, compare := values.2
      contribution := delta values * avgInverse : Effect }
  let denominator := leafValue overall self.ratio.denominator
  return parts ++ [
    { effect := .denominator, metric := self.ratio.denominator
      base := denominator.1, compare := denominator.2
      contribution := (self.movingParts.map fun p => mid (leafValue overall p)).sum *
        deltaInverse }]

/-- The row of a member that has a denominator, with its move. -/
def denominatorRow (entry : Member × LeafValues) : Option DenominatorRow :=
  let d := leafValue entry.2 self.ratio.denominator
  if d.1 ≠ 0 ∨ d.2 ≠ 0 then
    some { member := entry.1, base := d.1, compare := d.2, delta := d.2 - d.1 }
  else none

/-- The effect of one part by member. -/
def partBreakdown (members : MemberValues) (avgInverse : ℚ) (topN : Int) (part : String) :
    Breakdown AdditiveRow :=
  let rows := additiveRows members part avgInverse topN
  let effect := delta (leafValue overall part) * avgInverse
  { rows, residual := effect - sumRows rows }

def split (members : MemberValues) (topN : Int) : Except Err PartsBreakdown := do
  let (avgInverse, _) ← self.ratio.inverse overall
  return {
    parts := self.movingParts.foldl (fun parts part =>
      Dict.set parts part (partBreakdown overall members avgInverse topN part)) []
    denominator := top (ranked (members.filterMap self.denominatorRow) (·.delta) (·.member)) topN
      mergeDenominator }

end RatioPartsMethod

/-! ## Methods -/

/-- The breakdown of a split, shaped by its method. -/
inductive Split where
  | additive (breakdown : Breakdown AdditiveRow)
  | shiftShare (breakdown : Breakdown ShiftShareRow)
  | parts (breakdown : PartsBreakdown)
  deriving DecidableEq, Repr

/-- The protocol of the three methods. -/
inductive DecompositionMethod where
  | additive (method : AdditiveMethod)
  | ratioShiftShare (method : RatioShiftShareMethod)
  | ratioParts (method : RatioPartsMethod)
  deriving DecidableEq, Repr

namespace DecompositionMethod

/-- The metrics to fetch. -/
def leafMetrics : DecompositionMethod → List String
  | .additive m => m.leafMetrics
  | .ratioShiftShare m => m.leafMetrics
  | .ratioParts m => m.leafMetrics

/-- Raise when the fetched values cannot be decomposed. -/
def check (reprFloat : ℚ → String) (overall : LeafValues) : DecompositionMethod → Except Err Unit
  | .additive _ => return ()
  | .ratioShiftShare m => m.check overall
  | .ratioParts m => m.check overall reprFloat

def total (overall : LeafValues) : DecompositionMethod → Except Err Total
  | .additive m => return m.total overall
  | .ratioShiftShare m => m.total overall
  | .ratioParts m => m.total overall

def effects (overall : LeafValues) : DecompositionMethod → Except Err (List Effect)
  | .additive _ => return []
  | .ratioShiftShare m => m.effects overall
  | .ratioParts m => m.effects overall

def split (overall : LeafValues) (members : MemberValues) (topN : Int) :
    DecompositionMethod → Except Err Split
  | .additive m => return .additive (m.split overall members topN)
  | .ratioShiftShare m => .shiftShare <$> m.split overall members topN
  | .ratioParts m => .parts <$> m.split overall members topN

end DecompositionMethod

end Canonic
