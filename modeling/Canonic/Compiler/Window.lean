import Canonic.Compiler.Calls
import Canonic.Sql.Traverse

set_option autoImplicit false

/-! # The window of a query and a watermark

`_window_exceeds_watermark` reads a window off the filters: the smallest literal that bounds a time
column from above, or without one the largest that bounds it from below. It takes the comparisons
as they are written: `'2024-01-01' <= ts` counts as an upper bound, and `NOT ts < '2024-01-01'`
too. `Tightest` is the bound that the filters imply, `Decides` the one that is read off. -/

namespace Canonic

open Sql (Expr Op)

/-! ## Conditions on a time column -/

/-- A comparison operator. -/
inductive Comparison where
  | lt | lte | gt | gte | eq | neq
  deriving DecidableEq, Repr

namespace Comparison

/-- The node class of an operator. -/
def op : Comparison → Op
  | lt => .lt | lte => .lte | gt => .gt | gte => .gte | eq => .eq | neq => .neq

/-- What an operator says of its sides. -/
def Holds : Comparison → ℚ → ℚ → Prop
  | lt, s, t => s < t
  | lte, s, t => s ≤ t
  | gt, s, t => t < s
  | gte, s, t => t ≤ s
  | eq, s, t => s = t
  | neq, s, t => s ≠ t

/-- The literal is an upper bound, as the operator stands there. -/
def isUpper (c : Comparison) : Bool := c == lt || c == lte || c == eq

/-- The literal is a lower bound, as the operator stands there. -/
def isLower (c : Comparison) : Bool := c == gt || c == gte || c == eq

end Comparison

/-- A reference to one of the time columns. -/
structure TimeColumn (timeNames : List String) where
  column : Sql.Column
  named : column.name ∈ timeNames

/-- A date literal that can be read, with its instant. -/
structure TimeLiteral (lib : Lib) where
  isString : Bool
  text : String
  instant : Int
  parses : lib.parseDatetime text = some instant

/-- A condition made of comparisons of a time column with date literals. -/
inductive TimeCondition (lib : Lib) (timeNames : List String) where
  | compare (op : Comparison) (c : TimeColumn timeNames) (l : TimeLiteral lib)
  | literalFirst (op : Comparison) (l : TimeLiteral lib) (c : TimeColumn timeNames)
  | between (c : TimeColumn timeNames) (low high : TimeLiteral lib)
  | and (a b : TimeCondition lib timeNames)
  | not (a : TimeCondition lib timeNames)
  | paren (a : TimeCondition lib timeNames)

variable {lib : Lib} {timeNames : List String}

/-- The literal as it stands in a filter. -/
def TimeLiteral.expr (l : TimeLiteral lib) : Expr := .literal l.isString l.text

namespace TimeCondition

/-- The tree a condition is parsed to. -/
def expr : TimeCondition lib timeNames → Expr
  | compare op c l => .node op.op [.column c.column, l.expr]
  | literalFirst op l c => .node op.op [l.expr, .column c.column]
  | between c low high => .node .between [.column c.column, low.expr, high.expr]
  | and a b => .node .and [a.expr, b.expr]
  | not a => .node .not [a.expr]
  | paren a => .node .paren [a.expr]

/-- The condition lets an instant through. -/
def Admits : TimeCondition lib timeNames → ℚ → Prop
  | compare op _ l, t => op.Holds t l.instant
  | literalFirst op l _, t => op.Holds l.instant t
  | between _ low high, t => (low.instant : ℚ) ≤ t ∧ t ≤ high.instant
  | and a b, t => a.Admits t ∧ b.Admits t
  | not a, t => ¬ a.Admits t
  | paren a, t => a.Admits t

/-- The literals that bound from above as they are written. -/
def uppers : TimeCondition lib timeNames → List Int
  | compare op _ l => if op.isUpper then [l.instant] else []
  | literalFirst op l _ => if op.isUpper then [l.instant] else []
  | between _ _ high => [high.instant]
  | and a b => a.uppers ++ b.uppers
  | not a => a.uppers
  | paren a => a.uppers

/-- The literals that bound from below as they are written. -/
def lowers : TimeCondition lib timeNames → List Int
  | compare op _ l => if op.isLower then [l.instant] else []
  | literalFirst op l _ => if op.isLower then [l.instant] else []
  | between _ low _ => [low.instant]
  | and a b => a.lowers ++ b.lowers
  | not a => a.lowers
  | paren a => a.lowers

end TimeCondition

/-- The instants that all conditions let through. -/
def window (conditions : List (TimeCondition lib timeNames)) : Set ℚ :=
  {t | ∀ c ∈ conditions, c.Admits t}

/-- The tightest bound of a window: its least upper bound, or without an upper bound its greatest
lower bound. -/
def Tightest (s : Set ℚ) (d : Int) : Prop :=
  IsLUB s (d : ℚ) ∨ ¬ BddAbove s ∧ IsGLB s (d : ℚ)

/-- The bound read off from literals: the smallest upper one, or without one the largest lower. -/
def Decides (uppers lowers : List Int) (d : Int) : Prop :=
  (d ∈ uppers ∧ ∀ u ∈ uppers, d ≤ u) ∨ uppers = [] ∧ d ∈ lowers ∧ ∀ l ∈ lowers, l ≤ d

/-! ## What the walk collects -/

theorem TimeLiteral.bounds_compare (op : Comparison) (c : TimeColumn timeNames)
    (l : TimeLiteral lib) :
    comparisonBounds lib timeNames (TimeCondition.compare op c l).expr =
      ((TimeCondition.compare op c l).uppers, (TimeCondition.compare op c l).lowers) := by
  have hnamed := c.named
  simp only [TimeCondition.expr, TimeLiteral.expr, comparisonBounds, Option.bind_some, hnamed,
    if_true, l.parses]
  cases op <;> rfl

theorem TimeLiteral.bounds_literalFirst (op : Comparison) (c : TimeColumn timeNames)
    (l : TimeLiteral lib) :
    comparisonBounds lib timeNames (TimeCondition.literalFirst op l c).expr =
      ((TimeCondition.literalFirst op l c).uppers, (TimeCondition.literalFirst op l c).lowers) := by
  have hnamed := c.named
  simp only [TimeCondition.expr, TimeLiteral.expr, comparisonBounds, Option.bind_some, hnamed,
    if_true, l.parses]
  cases op <;> rfl

theorem TimeLiteral.bounds_between (c : TimeColumn timeNames) (low high : TimeLiteral lib) :
    comparisonBounds lib timeNames (TimeCondition.between c low high).expr =
      ([high.instant], [low.instant]) := by
  have hnamed := c.named
  simp [TimeCondition.expr, TimeLiteral.expr, comparisonBounds, hnamed, low.parses, high.parses]

theorem TimeCondition.expr_node (c : TimeCondition lib timeNames) :
    ∃ op args, c.expr = .node op args := by
  cases c <;> exact ⟨_, _, rfl⟩

/-- A conjunction bounds nothing by itself. -/
theorem bounds_and (a b : TimeCondition lib timeNames) :
    comparisonBounds lib timeNames (TimeCondition.and a b).expr = ([], []) := by
  obtain ⟨op, args, ha⟩ := a.expr_node
  rw [TimeCondition.expr, ha]
  rfl

/-- The nodes below a comparison bound nothing. -/
theorem bounds_leaf {x : Expr} (hx : ∀ op args, x ≠ .node op args) :
    comparisonBounds lib timeNames x = ([], []) := by
  cases x with
  | node op args => exact absurd rfl (hx op args)
  | column c => rfl
  | literal s t => rfl
  | table d n => rfl

theorem nodes_timeLiteral (l : TimeLiteral lib) : l.expr.nodes = [l.expr] := rfl

/-- The walk over a condition collects what its comparisons bound as they are written, whatever
stands around them. -/
theorem mem_walk_bounds (c : TimeCondition lib timeNames) (d : Int) :
    ((∃ x ∈ c.expr.walk, d ∈ (comparisonBounds lib timeNames x).1) ↔ d ∈ c.uppers) ∧
      ((∃ x ∈ c.expr.walk, d ∈ (comparisonBounds lib timeNames x).2) ↔ d ∈ c.lowers) := by
  have hcolumn : ∀ (k : Sql.Column), comparisonBounds lib timeNames (.column k) = ([], []) :=
    fun k => bounds_leaf fun _ _ h => by cases h
  have hliteral : ∀ (l : TimeLiteral lib), comparisonBounds lib timeNames l.expr = ([], []) :=
    fun l => bounds_leaf fun _ _ h => by cases h
  simp only [Expr.mem_walk]
  induction c with
  | compare op k l =>
      have htop := TimeLiteral.bounds_compare op k l
      simp only [TimeCondition.expr] at htop
      simp [TimeCondition.expr, Expr.nodes, Expr.nodesList, nodes_timeLiteral, htop, hcolumn,
        hliteral]
  | literalFirst op l k =>
      have htop := TimeLiteral.bounds_literalFirst op k l
      simp only [TimeCondition.expr] at htop
      simp [TimeCondition.expr, Expr.nodes, Expr.nodesList, nodes_timeLiteral, htop, hcolumn,
        hliteral]
  | between k low high =>
      have htop := TimeLiteral.bounds_between k low high
      simp only [TimeCondition.expr] at htop
      simp [TimeCondition.expr, Expr.nodes, Expr.nodesList, nodes_timeLiteral, htop, hcolumn,
        hliteral, TimeCondition.uppers, TimeCondition.lowers]
  | and a b iha ihb =>
      have htop := bounds_and a b
      simp only [TimeCondition.expr] at htop
      simp only [TimeCondition.expr, TimeCondition.uppers, TimeCondition.lowers, Expr.nodes,
        Expr.nodesList, List.append_nil, List.mem_cons, List.mem_append, or_and_right, exists_or,
        exists_eq_left, htop, List.not_mem_nil, false_or, iha.1, iha.2, ihb.1, ihb.2, and_self]
  | not a ih =>
      have htop : comparisonBounds lib timeNames (.node .not [a.expr]) = ([], []) := rfl
      simp only [TimeCondition.expr, TimeCondition.uppers, TimeCondition.lowers, Expr.nodes,
        Expr.nodesList, List.append_nil, List.mem_cons, exists_eq_or_imp, htop, List.not_mem_nil,
        false_or, ih.1, ih.2, and_self]
  | paren a ih =>
      have htop : comparisonBounds lib timeNames (.node .paren [a.expr]) = ([], []) := rfl
      simp only [TimeCondition.expr, TimeCondition.uppers, TimeCondition.lowers, Expr.nodes,
        Expr.nodesList, List.append_nil, List.mem_cons, exists_eq_or_imp, htop, List.not_mem_nil,
        false_or, ih.1, ih.2, and_self]

/-! ## The verdict -/

/-- The smallest of some literals. -/
theorem lt_foldl_min_iff (u : Int) (us : List Int) (w : Int) :
    w < us.foldl min u ↔ ∀ x ∈ u :: us, w < x := by
  induction us generalizing u with
  | nil => simp
  | cons y us ih =>
      rw [List.foldl_cons, ih]
      simp only [List.mem_cons, forall_eq_or_imp, lt_min_iff, and_assoc]

theorem lt_foldl_max_iff (l : Int) (ls : List Int) (w : Int) :
    w < ls.foldl max l ↔ ∃ x ∈ l :: ls, w < x := by
  induction ls generalizing l with
  | nil => simp
  | cons y ls ih =>
      rw [List.foldl_cons, ih]
      simp only [List.mem_cons, exists_eq_or_imp, lt_max_iff, or_assoc]

/-- What the source compares with the watermark, as bounds of the literals. -/
def Exceeds (uppers lowers : List Int) (w : Int) : Prop :=
  (uppers ≠ [] ∧ ∀ u ∈ uppers, w < u) ∨ uppers = [] ∧ ∃ l ∈ lowers, w < l

theorem exists_least {xs : List Int} (h : xs ≠ []) : ∃ d ∈ xs, ∀ x ∈ xs, d ≤ x := by
  induction xs with
  | nil => exact absurd rfl h
  | cons y xs ih =>
      by_cases hnil : xs = []
      · subst hnil
        exact ⟨y, List.mem_singleton_self y, by simp⟩
      · obtain ⟨d, hd, hleast⟩ := ih hnil
        rcases le_total y d with hyd | hdy
        · refine ⟨y, List.mem_cons_self, ?_⟩
          intro x hx
          rcases List.mem_cons.mp hx with rfl | hx
          · exact le_refl x
          · exact le_trans hyd (hleast x hx)
        · refine ⟨d, List.mem_cons_of_mem y hd, ?_⟩
          intro x hx
          rcases List.mem_cons.mp hx with rfl | hx
          · exact hdy
          · exact hleast x hx

theorem exists_greatest {xs : List Int} (h : xs ≠ []) : ∃ d ∈ xs, ∀ x ∈ xs, x ≤ d := by
  obtain ⟨d, hd, hleast⟩ := exists_least (show xs.map (- ·) ≠ [] by simpa using h)
  obtain ⟨x, hx, rfl⟩ := List.mem_map.mp hd
  refine ⟨x, hx, fun y hy => ?_⟩
  have hle := hleast (-y) (List.mem_map_of_mem hy)
  omega

theorem exceeds_iff_decides {uppers lowers : List Int} {w : Int} :
    Exceeds uppers lowers w ↔ ∃ d, Decides uppers lowers d ∧ w < d := by
  constructor
  · rintro (⟨hne, hall⟩ | ⟨hnil, l, hl, hw⟩)
    · obtain ⟨d, hd, hleast⟩ := exists_least hne
      exact ⟨d, Or.inl ⟨hd, hleast⟩, hall d hd⟩
    · obtain ⟨d, hd, hgreatest⟩ := exists_greatest (List.ne_nil_of_mem hl)
      exact ⟨d, Or.inr ⟨hnil, hd, hgreatest⟩, lt_of_lt_of_le hw (hgreatest l hl)⟩
  · rintro ⟨d, ⟨hd, hleast⟩ | ⟨hnil, hd, -⟩, hw⟩
    · exact Or.inl ⟨List.ne_nil_of_mem hd, fun u hu => lt_of_lt_of_le hw (hleast u hu)⟩
    · exact Or.inr ⟨hnil, d, hd, hw⟩

/-- One literal decides at most. -/
theorem Decides.unique {uppers lowers : List Int} {d d' : Int} (h : Decides uppers lowers d)
    (h' : Decides uppers lowers d') : d = d' := by
  rcases h with ⟨hd, hleast⟩ | ⟨hnil, hd, hgreatest⟩
  · rcases h' with ⟨hd', hleast'⟩ | ⟨hnil', -, -⟩
    · exact le_antisymm (hleast d' hd') (hleast' d hd)
    · exact absurd hnil' (List.ne_nil_of_mem hd)
  · rcases h' with ⟨hd', -⟩ | ⟨-, hd', hgreatest'⟩
    · exact absurd hnil (List.ne_nil_of_mem hd')
    · exact le_antisymm (hgreatest' d hd) (hgreatest d' hd')

theorem Tightest.unique {s : Set ℚ} {d d' : Int} (h : Tightest s d) (h' : Tightest s d') :
    d = d' := by
  have hcast : (d : ℚ) = d' := by
    rcases h with h | ⟨hunbounded, h⟩
    · rcases h' with h' | ⟨hunbounded', -⟩
      · exact h.unique h'
      · exact absurd ⟨_, h.1⟩ hunbounded'
    · rcases h' with h' | ⟨-, h'⟩
      · exact absurd ⟨_, h'.1⟩ hunbounded
      · exact h.unique h'
  exact_mod_cast hcast

section Verdict

variable {env : Env} {filters : List String} {conditions : List (TimeCondition env.lib timeNames)}

/-- The verdict depends on the literals as they are written. -/
theorem windowExceedsWatermark_iff {w : Int}
    (h : List.Forall₂ (fun f c => env.parse f = .ok c.expr) filters conditions) :
    windowExceedsWatermark env filters timeNames w = true ↔
      Exceeds (conditions.flatMap (·.uppers)) (conditions.flatMap (·.lowers)) w := by
  unfold windowExceedsWatermark
  generalize hnodes : List.flatMap _ filters = nodes
  -- the bounds are collected over the nodes of all parsed conditions
  have hwalk : nodes = conditions.flatMap fun c => c.expr.walk := by
    rw [← hnodes]
    clear hnodes
    induction h with
    | nil => rfl
    | cons hf _ ih => rw [List.flatMap_cons, List.flatMap_cons, hf, ih]
  have huppers : ∀ d, d ∈ (nodes.map (comparisonBounds env.lib timeNames)).flatMap (·.1) ↔
      d ∈ conditions.flatMap (·.uppers) := by
    intro d
    simp only [hwalk, List.mem_flatMap, List.mem_map, ← (mem_walk_bounds _ d).1]
    constructor
    · rintro ⟨_, ⟨x, ⟨c, hc, hx⟩, rfl⟩, hd⟩
      exact ⟨c, hc, x, hx, hd⟩
    · rintro ⟨c, hc, x, hx, hd⟩
      exact ⟨_, ⟨x, ⟨c, hc, hx⟩, rfl⟩, hd⟩
  have hlowers : ∀ d, d ∈ (nodes.map (comparisonBounds env.lib timeNames)).flatMap (·.2) ↔
      d ∈ conditions.flatMap (·.lowers) := by
    intro d
    simp only [hwalk, List.mem_flatMap, List.mem_map, ← (mem_walk_bounds _ d).2]
    constructor
    · rintro ⟨_, ⟨x, ⟨c, hc, hx⟩, rfl⟩, hd⟩
      exact ⟨c, hc, x, hx, hd⟩
    · rintro ⟨c, hc, x, hx, hd⟩
      exact ⟨_, ⟨x, ⟨c, hc, hx⟩, rfl⟩, hd⟩
  have hsame : Exceeds (conditions.flatMap (·.uppers)) (conditions.flatMap (·.lowers)) w ↔
      Exceeds ((nodes.map (comparisonBounds env.lib timeNames)).flatMap (·.1))
        ((nodes.map (comparisonBounds env.lib timeNames)).flatMap (·.2)) w := by
    unfold Exceeds
    simp only [ne_eq, List.eq_nil_iff_forall_not_mem, huppers, hlowers]
  rw [hsame]
  clear hsame huppers hlowers hwalk hnodes
  dsimp only
  generalize (nodes.map (comparisonBounds env.lib timeNames)).flatMap (·.1) = us
  generalize (nodes.map (comparisonBounds env.lib timeNames)).flatMap (·.2) = ls
  unfold Exceeds
  -- an upper bound decides alone, and lower bounds are read only where there is none
  cases us with
  | nil =>
      cases ls with
      | nil => simp
      | cons l ls =>
          rw [decide_eq_true_eq, lt_foldl_max_iff]
          simp
  | cons u us =>
      rw [decide_eq_true_eq, lt_foldl_min_iff]
      simp

/-- **The verdict is right for every watermark exactly when the literal that decides as the
comparisons are written is the tightest bound of the window.** -/
theorem windowVerdict_iff
    (h : List.Forall₂ (fun f c => env.parse f = .ok c.expr) filters conditions) :
    (∀ w, windowExceedsWatermark env filters timeNames w = true ↔
        ∃ d, Tightest (window conditions) d ∧ w < d) ↔
      ∀ d, Decides (conditions.flatMap (·.uppers)) (conditions.flatMap (·.lowers)) d ↔
        Tightest (window conditions) d := by
  have hexceeds : ∀ w, windowExceedsWatermark env filters timeNames w = true ↔
      ∃ d, Decides (conditions.flatMap (·.uppers)) (conditions.flatMap (·.lowers)) d ∧ w < d := by
    intro w
    rw [windowExceedsWatermark_iff h, exceeds_iff_decides]
  simp only [hexceeds]
  constructor
  · intro hverdict d
    -- a watermark just before the bound tells it from every smaller one
    constructor
    · intro hd
      obtain ⟨d', hd', hlt⟩ := (hverdict (d - 1)).mp ⟨d, hd, by omega⟩
      have hle : d' ≤ d := by
        by_contra hgt
        obtain ⟨e, he, hlt⟩ := (hverdict d).mpr ⟨d', hd', by omega⟩
        have := he.unique hd
        omega
      obtain rfl : d' = d := by omega
      exact hd'
    · intro hd
      obtain ⟨d', hd', hlt⟩ := (hverdict (d - 1)).mpr ⟨d, hd, by omega⟩
      have hle : d' ≤ d := by
        by_contra hgt
        obtain ⟨e, he, hlt⟩ := (hverdict d).mp ⟨d', hd', by omega⟩
        have := he.unique hd
        omega
      obtain rfl : d' = d := by omega
      exact hd'
  · intro hsame w
    simp only [hsame]

/-! ## Comparisons read as they are meant -/

/-- No negation, and no order comparison with its literal first. -/
def TimeCondition.Direct : TimeCondition lib timeNames → Prop
  | compare op _ _ => op ≠ .neq
  | literalFirst op _ _ => op = .eq
  | between _ _ _ => True
  | and a b => a.Direct ∧ b.Direct
  | not _ => False
  | paren a => a.Direct

/-- An admitted instant lies between the literals. -/
theorem TimeCondition.Direct.le {c : TimeCondition lib timeNames} (hc : c.Direct) {t : ℚ}
    (ht : c.Admits t) : (∀ u ∈ c.uppers, t ≤ u) ∧ ∀ l ∈ c.lowers, (l : ℚ) ≤ t := by
  induction c with
  | compare op k l =>
      cases op <;> simp_all [Admits, uppers, lowers, Comparison.Holds, Comparison.isUpper,
        Comparison.isLower, le_of_lt, Direct]
  | literalFirst op l k =>
      obtain rfl : op = .eq := hc
      have heq : (l.instant : ℚ) = t := ht
      simp [uppers, lowers, Comparison.isUpper, Comparison.isLower, heq]
  | between k low high => simpa [Admits, uppers, lowers, and_comm] using ht
  | and a b iha ihb =>
      obtain ⟨ha, hb⟩ := ht
      simp only [uppers, lowers, List.mem_append]
      constructor
      · rintro u (hu | hu)
        · exact (iha hc.1 ha).1 u hu
        · exact (ihb hc.2 hb).1 u hu
      · rintro l (hl | hl)
        · exact (iha hc.1 ha).2 l hl
        · exact (ihb hc.2 hb).2 l hl
  | not a => exact absurd hc id
  | paren a ih => exact ih hc ht

/-- An instant strictly between the literals is admitted. -/
theorem TimeCondition.Direct.admits {c : TimeCondition lib timeNames} (hc : c.Direct) {t : ℚ}
    (hu : ∀ u ∈ c.uppers, t < u) (hl : ∀ l ∈ c.lowers, (l : ℚ) < t) : c.Admits t := by
  induction c with
  | compare op k l =>
      cases op <;> simp_all [Admits, uppers, lowers, Comparison.Holds, Comparison.isUpper,
        Comparison.isLower, le_of_lt, Direct]
      exact absurd hl (not_lt.mpr (le_of_lt hu))
  | literalFirst op l k =>
      obtain rfl : op = .eq := hc
      have hlt := hu l.instant (by simp [uppers, Comparison.isUpper])
      have hgt := hl l.instant (by simp [lowers, Comparison.isLower])
      exact absurd hgt (not_lt.mpr (le_of_lt hlt))
  | between k low high =>
      exact ⟨le_of_lt (hl _ (List.mem_singleton_self _)),
        le_of_lt (hu _ (List.mem_singleton_self _))⟩
  | and a b iha ihb =>
      simp only [uppers, lowers, List.mem_append] at hu hl
      exact ⟨iha hc.1 (fun u h => hu u (Or.inl h)) fun l h => hl l (Or.inl h),
        ihb hc.2 (fun u h => hu u (Or.inr h)) fun l h => hl l (Or.inr h)⟩
  | not a => exact absurd hc id
  | paren a ih => exact ih hc hu hl

/-- A window of direct conditions that some instant passes is bounded by the literal that
decides. -/
theorem Decides.tightest (hdirect : ∀ c ∈ conditions, c.Direct)
    (hne : (window conditions).Nonempty) {d : Int}
    (hd : Decides (conditions.flatMap (·.uppers)) (conditions.flatMap (·.lowers)) d) :
    Tightest (window conditions) d := by
  have hbetween : ∀ t, t ∈ window conditions →
      (∀ u : Int, u ∈ conditions.flatMap (·.uppers) → t ≤ u) ∧
        ∀ l : Int, l ∈ conditions.flatMap (·.lowers) → (l : ℚ) ≤ t := by
    intro t ht
    constructor
    · intro u hu
      obtain ⟨c, hc, hu⟩ := List.mem_flatMap.mp hu
      exact ((hdirect c hc).le (ht c hc)).1 u hu
    · intro l hl
      obtain ⟨c, hc, hl⟩ := List.mem_flatMap.mp hl
      exact ((hdirect c hc).le (ht c hc)).2 l hl
  have hinside : ∀ t : ℚ, (∀ u : Int, u ∈ conditions.flatMap (·.uppers) → t < u) →
      (∀ l : Int, l ∈ conditions.flatMap (·.lowers) → (l : ℚ) < t) → t ∈ window conditions := by
    intro t hu hl c hc
    exact (hdirect c hc).admits (fun u h => hu u (List.mem_flatMap.mpr ⟨c, hc, h⟩))
      fun l h => hl l (List.mem_flatMap.mpr ⟨c, hc, h⟩)
  obtain ⟨t, ht⟩ := hne
  rcases hd with ⟨hd, hleast⟩ | ⟨hnil, hd, hgreatest⟩
  · left
    refine ⟨fun s hs => (hbetween s hs).1 d hd, fun b hb => ?_⟩
    by_contra hlt
    rw [not_le] at hlt
    -- an instant between the bound and the literal would pass
    obtain ⟨m, hbm, hmd⟩ := exists_between hlt
    have hm : m ∈ window conditions := by
      refine hinside m ?_ ?_
      · intro u hu
        exact lt_of_lt_of_le hmd (by exact_mod_cast hleast u hu)
      · intro l hl
        calc (l : ℚ) ≤ t := (hbetween t ht).2 l hl
          _ ≤ b := hb ht
          _ < m := hbm
    exact absurd (hb hm) (not_le.mpr hbm)
  · right
    have habove : ∀ m : ℚ, (d : ℚ) < m → m ∈ window conditions := by
      intro m hm
      refine hinside m ?_ ?_
      · simp [hnil]
      · intro l hl
        exact lt_of_le_of_lt (by exact_mod_cast hgreatest l hl) hm
    constructor
    · rintro ⟨b, hb⟩
      have hm := habove (max b d + 1) (by linarith [le_max_right b (d : ℚ)])
      have := hb hm
      linarith [le_max_left b (d : ℚ)]
    · refine ⟨fun s hs => (hbetween s hs).2 d hd, fun b hb => ?_⟩
      by_contra hlt
      rw [not_le] at hlt
      obtain ⟨m, hdm, hmb⟩ := exists_between hlt
      exact absurd (hb (habove m hdm)) (not_le.mpr hmb)

/-- Direct conditions that some instant passes are judged as they are meant. -/
theorem windowExceedsWatermark_of_direct
    (h : List.Forall₂ (fun f c => env.parse f = .ok c.expr) filters conditions)
    (hdirect : ∀ c ∈ conditions, c.Direct) (hne : (window conditions).Nonempty) {w d : Int}
    (hd : Decides (conditions.flatMap (·.uppers)) (conditions.flatMap (·.lowers)) d) :
    Tightest (window conditions) d ∧
      (windowExceedsWatermark env filters timeNames w = true ↔ w < d) := by
  refine ⟨hd.tightest hdirect hne, ?_⟩
  rw [windowExceedsWatermark_iff h, exceeds_iff_decides]
  constructor
  · rintro ⟨d', hd', hlt⟩
    rwa [hd.unique hd']
  · exact fun hlt => ⟨d, hd, hlt⟩

end Verdict

/-! ## A literal that comes first -/

/-- Two days as literals, with their instants in seconds. -/
private def dayInstants : List (String × Int) :=
  [("2020-01-01", 1577836800), ("2026-01-01", 1767225600)]

/-- The orders from 2020 to 2026, the first bound with its literal first. -/
private def datedTexts : List (String × Expr) :=
  [("'2020-01-01' <= order_ts AND order_ts <= '2026-01-01'",
    .node .and [.node .lte [.string "2020-01-01", Expr.bare "order_ts"],
      .node .lte [Expr.bare "order_ts", .string "2026-01-01"]])]

private def datedEnv : Env where
  lib := { Lib.ofTexts datedTexts with parseDatetime := fun s => dayInstants.lookup s }
  dialectName := "postgres"
  sources := { list := [] }

private def orderTs : TimeColumn ["order_ts"] where
  column := ⟨"", "", "order_ts"⟩
  named := List.mem_singleton_self "order_ts"

private def dayLiteral (text : String) (instant : Int)
    (h : datedEnv.lib.parseDatetime text = some instant) : TimeLiteral datedEnv.lib :=
  ⟨true, text, instant, h⟩

private def datedCondition : TimeCondition datedEnv.lib ["order_ts"] :=
  .and (.literalFirst .lte (dayLiteral "2020-01-01" 1577836800 rfl) orderTs)
    (.compare .lte orderTs (dayLiteral "2026-01-01" 1767225600 rfl))

/-- With a watermark in 2024 the orders up to 2026 are served: the bound `'2020-01-01' <= order_ts`
is taken for an upper one. -/
theorem windowVerdict_counterexample :
    datedEnv.parse "'2020-01-01' <= order_ts AND order_ts <= '2026-01-01'" =
        .ok datedCondition.expr ∧
      ¬ (windowExceedsWatermark datedEnv
          ["'2020-01-01' <= order_ts AND order_ts <= '2026-01-01'"] ["order_ts"] 1704067200 = true ↔
        ∃ d, Tightest (window [datedCondition]) d ∧ 1704067200 < d) := by
  have hpassed : windowExceedsWatermark datedEnv
      ["'2020-01-01' <= order_ts AND order_ts <= '2026-01-01'"] ["order_ts"] 1704067200 =
        false := by decide +kernel
  have htightest : Tightest (window [datedCondition]) 1767225600 := by
    refine Or.inl ⟨fun t ht => (ht datedCondition (List.mem_singleton_self _)).2, ?_⟩
    intro b hb
    refine hb fun c hc => ?_
    obtain rfl := List.mem_singleton.mp hc
    refine ⟨?_, le_refl _⟩
    show ((1577836800 : Int) : ℚ) ≤ ((1767225600 : Int) : ℚ)
    norm_num
  refine ⟨by decide +kernel, fun h => ?_⟩
  have hexceeds := h.mpr ⟨1767225600, htightest, by norm_num⟩
  rw [hpassed] at hexceeds
  cases hexceeds

/-- The same filter, put to the criterion. -/
theorem windowVerdict_orders :
    (∀ w, windowExceedsWatermark datedEnv
          ["'2020-01-01' <= order_ts AND order_ts <= '2026-01-01'"] ["order_ts"] w = true ↔
        ∃ d, Tightest (window [datedCondition]) d ∧ w < d) ↔
      ∀ d, Decides ([datedCondition].flatMap (·.uppers)) ([datedCondition].flatMap (·.lowers)) d ↔
        Tightest (window [datedCondition]) d := by
  have hparse : datedEnv.parse "'2020-01-01' <= order_ts AND order_ts <= '2026-01-01'" =
      .ok datedCondition.expr := by
    decide +kernel
  exact windowVerdict_iff (List.Forall₂.cons hparse List.Forall₂.nil)

end Canonic
