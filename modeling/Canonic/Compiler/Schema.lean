import Canonic.Compiler.Emitted
import Canonic.Compiler.Fusion

set_option autoImplicit false

/-! # The columns of a result

Every leaf projects the requested dimensions and then its measures. Output names are given leaf by
leaf, from what a requested name stands for on the source of the leaf. -/

namespace Canonic

open Sql (Expr Query Projection)

/-! ## Projections -/

/-- Expressions built one by one keep the names they are given. -/
theorem mapM_names {α : Type} {f : α → Except Err Expr} {g : α → String} {l : List α}
    {ps : List Projection}
    (h : (l.mapM fun a => do let e ← f a; return (⟨e, g a⟩ : Projection)) = .ok ps) :
    ps.map (·.name) = l.map g := by
  have hall := mapM_eq_ok.mp h
  clear h
  induction hall with
  | nil => rfl
  | cons hab _ ih =>
      simp only [bind_eq_ok, pure_eq_ok] at hab
      obtain ⟨e, -, rfl⟩ := hab
      simp [ih]

theorem zip_snd {α β : Type} {l : List α} {r : List β} (h : r.length ≤ l.length) :
    (l.zip r).map (·.2) = r :=
  List.map_snd_zip h

@[simp] theorem readDims_names (table : String) (names : List String) :
    (readDims table names).map (·.name) = names := by
  rw [readDims, List.map_map]
  exact List.map_id names

@[simp] theorem dimensionOutputNames_length (dims : List (String × Dimension)) :
    (dimensionOutputNames dims).length = dims.length := by
  simp [dimensionOutputNames]

theorem dimProjections_names {env : Env} {shifted : ShiftMap} {mask : DimMask}
    {dims : List (String × Dimension)} {ps : List Projection}
    (h : dimProjections env shifted mask dims = .ok ps) :
    ps.map (·.name) = dimensionOutputNames dims := by
  rw [mapM_names h]
  exact zip_snd (by simp)

theorem measureProjections_names {env : Env} {metrics : List ResolvedMetric}
    {aliases : List String} {ps : List Projection}
    (h : measureProjections env metrics aliases = .ok ps)
    (hlen : aliases.length ≤ metrics.length) : ps.map (·.name) = aliases := by
  rw [mapM_names h]
  exact zip_snd hlen

theorem reaggregated_names {env : Env} {table : String} {metrics : List ResolvedMetric}
    {aliases : List String} {ps : List Projection}
    (h : reaggregated env table metrics aliases = .ok ps)
    (hlen : aliases.length ≤ metrics.length) : ps.map (·.name) = aliases := by
  have hnames := @mapM_names _ (fun p : ResolvedMetric × String => do
    let parsed ← env.parse p.1.measure.expr
    return qualifyTo parsed table) (·.2) (metrics.zip aliases) ps
  simp only [bind_assoc, pure_bind] at hnames
  rw [hnames h]
  exact zip_snd hlen

/-! ## The branches of a finality leaf -/

/-- A branch names its columns as the leaf does, whatever its own dimensions are called. -/
theorem finalityBranch_outputs {env : Env} {f : FinalityInputs} {metrics : List ResolvedMetric}
    {aliases : List String} {r : Realization} {q : Query}
    (h : finalityBranch env f metrics aliases r = .ok q)
    (hlen : aliases.length ≤ metrics.length) :
    q.outputs = dimensionOutputNames f.dims ++ aliases ++ ["is_final"] := by
  simp only [finalityBranch, bind_eq_ok] at h
  obtain ⟨source, -, ms, hms, shifted, -, dims, hdims, edges, -, column, -, _, -, h⟩ := h
  have hmlen : ms.length = metrics.length := (mapM_eq_ok.mp hms).length_eq.symm
  have hdlen : dims.length = f.dims.length := (mapM_eq_ok.mp hdims).length_eq.symm
  unfold branchSelect at h
  split at h
  · simp only [bind_eq_ok, pure_eq_ok] at h
    obtain ⟨inner, -, measurePs, hm, rfl⟩ := h
    simp [reaggregated_names hm (by omega), isFinalProjection]
  · simp only [bind_eq_ok, pure_eq_ok] at h
    obtain ⟨dimPs, hd, measurePs, hm, from_, -, rfl⟩ := h
    have hdim : dimPs.map (·.name) = dimensionOutputNames f.dims := by
      rw [mapM_names hd]
      exact zip_snd (by simp [hdlen])
    simp [hdim, measureProjections_names hm (by omega), isFinalProjection]

/-! ## What a requested dimension stands for -/

/-- The dimensions that requested names stand for, seen from a source. -/
def dimsOn (ss : Sources) (source : String) (dimensions : List String) :
    List (String × Dimension) :=
  dimensions.filterMap fun d => findUnambiguous ss d source (buildAliasTree ss source)

theorem resolveDimensions_eq {env : Env} {dimensions : List String} {source : String}
    {dims : List (String × Dimension)}
    (h : resolveDimensions env dimensions source (buildAliasTree env.sources source) = .ok dims) :
    dims = dimsOn env.sources source dimensions := by
  have hall := mapM_eq_ok.mp h
  clear h
  induction hall with
  | nil => rfl
  | cons hd _ ih =>
      simp only [resolveDimension, bind_eq_ok] at hd
      obtain ⟨found, hfind, hsome⟩ := hd
      split at hsome
      next p =>
        obtain rfl := Except.ok.inj hsome
        rw [dimsOn, List.filterMap_cons]
        simp only [findUnambiguous, hfind]
        exact congrArg _ ih
      · simp at hsome

/-- How a dimension is shown next to the others: by its name, and by its role too when the name is
shared. -/
def shownAs (dims : List (String × Dimension)) (p : String × Dimension) :
    Option String × String :=
  (if (dims.filter fun q => q.2.name == p.2.name).length = 1 then none else some p.1, p.2.name)

/-- The column name of a dimension that is shown. -/
def shownName : Option String × String → String
  | (none, name) => name
  | (some role, name) => role ++ "." ++ name

theorem dimensionOutputNames_eq (dims : List (String × Dimension)) :
    dimensionOutputNames dims = (dims.map (shownAs dims)).map shownName := by
  simp only [dimensionOutputNames, List.map_map]
  refine List.map_congr_left fun p _ => ?_
  simp only [Function.comp, shownAs]
  split <;> rfl

/-- Names without a dot are told apart from qualified ones. -/
theorem shownName_inj {a b : Option String × String} (ha : '.' ∉ a.2.toList)
    (hb : '.' ∉ b.2.toList) (h : shownName a = shownName b) : a = b := by
  have hbare {n : String} {r m : String} (hn : '.' ∉ n.toList) : n ≠ r ++ "." ++ m := by
    rintro rfl
    simp at hn
  obtain ⟨ra, na⟩ := a
  obtain ⟨rb, nb⟩ := b
  cases ra with
  | none =>
      cases rb with
      | none => exact congrArg _ h
      | some rb => exact absurd h (hbare ha)
  | some ra =>
      cases rb with
      | none => exact absurd h.symm (hbare hb)
      | some rb =>
          obtain ⟨hr, hn⟩ := @join_inj_right '.' ra rb na nb ha hb
            (by simpa [shownName] using congrArg String.toList h)
          rw [hr, hn]

/-! ## One list of dimension columns -/

/-- A requested metric is grouped on a source. -/
def GroupedOn (p : Project) (q : SemanticQuery) (source : String) : Prop :=
  ∃ name ∈ q.metrics, ∃ b, p.resolver.resolveMetric name = .ok b ∧
    ∃ lf ∈ b.groupedLeaves, lf.source = some source

/-- On all sources that the requested metrics are grouped on, the requested names stand for
dimensions that are shown alike. -/
def DimsAlike (p : Project) (q : SemanticQuery) : Prop :=
  ∀ s s', GroupedOn p q s → GroupedOn p q s' →
    (dimsOn p.sources s q.dimensions).map (shownAs (dimsOn p.sources s q.dimensions)) =
      (dimsOn p.sources s' q.dimensions).map (shownAs (dimsOn p.sources s' q.dimensions))

/-- The requested dimensions have names without a dot. -/
def PlainDims (p : Project) (q : SemanticQuery) : Prop :=
  ∀ s, GroupedOn p q s → ∀ d ∈ dimsOn p.sources s q.dimensions, '.' ∉ d.2.name.toList

section
variable {p : Project} {q : SemanticQuery} {principal : Principal} {plan : Plan}

theorem PlannedFrom.groupedOn_iff (h : PlannedFrom p q principal plan) {s : String} :
    GroupedOn p q s ↔ ∃ l ∈ plan.leaves, l.inputs.owner = s := by
  rw [planQuery_owner h]
  constructor
  · rintro ⟨name, hname, b, hb, hlf⟩
    exact ⟨(name, b), h.mem_bindings.mpr ⟨hname, hb⟩, hlf⟩
  · rintro ⟨⟨name, b⟩, hmem, hlf⟩
    obtain ⟨hname, hb⟩ := h.mem_bindings.mp hmem
    exact ⟨name, hname, b, hb, hlf⟩

/-- The dimensions of a leaf are what the requested names stand for on its source. -/
theorem PlannedFrom.dimensions_eq (h : PlannedFrom p q principal plan) {l : LeafPlan}
    (hl : l ∈ plan.leaves) :
    l.inputs.dimensions = dimsOn p.sources l.inputs.owner q.dimensions := by
  obtain ⟨c, hc, ha⟩ := planQuery_calls h hl
  obtain ⟨b, -, hcalls⟩ := id hc
  have hdims : c.ctx.query.dimensions = q.dimensions :=
    hcalls.dimensions.trans (applyTimeRange_eq_ok h.query).2.1
  have hss : c.ctx.env.sources = p.sources := by rw [hc.sameAs.env, h.env]
  have hres := ha.resolveDimensions
  rw [hdims] at hres
  rw [resolveDimensions_eq hres, hss]

theorem PlannedFrom.dimNames_eq (h : PlannedFrom p q principal plan) {l : LeafPlan}
    (hl : l ∈ plan.leaves) :
    l.dimNames = ((dimsOn p.sources l.inputs.owner q.dimensions).map
      (shownAs (dimsOn p.sources l.inputs.owner q.dimensions))).map shownName := by
  rw [LeafPlan.dimNames, LeafInputs.dimNames, h.dimensions_eq hl, dimensionOutputNames_eq]

theorem map_shownName_inj {as bs : List (Option String × String)}
    (ha : ∀ a ∈ as, '.' ∉ a.2.toList) (hb : ∀ b ∈ bs, '.' ∉ b.2.toList)
    (h : as.map shownName = bs.map shownName) : as = bs := by
  induction as generalizing bs with
  | nil =>
      cases bs with
      | nil => rfl
      | cons b bs => simp at h
  | cons a as ih =>
      cases bs with
      | nil => simp at h
      | cons b bs =>
          simp only [List.map_cons, List.cons.injEq] at h
          rw [shownName_inj (ha a (by simp)) (hb b (by simp)) h.1,
            ih (fun x hx => ha x (by simp [hx])) (fun x hx => hb x (by simp [hx])) h.2]

end

/-- **The leaves of one query project the same dimension columns** when the requested names stand
for dimensions that are shown alike on all their sources; over names without a dot, only then. A
branch of a finality leaf projects the columns of its leaf. -/
theorem dimNames_eq_of_dimsAlike {p : Project} {q : SemanticQuery} {principal : Principal}
    {plan : Plan} (h : planQuery p q principal = .ok plan) :
    (DimsAlike p q → ∀ l ∈ plan.leaves, ∀ l' ∈ plan.leaves, l.dimNames = l'.dimNames) ∧
    (PlainDims p q → (∀ l ∈ plan.leaves, ∀ l' ∈ plan.leaves, l.dimNames = l'.dimNames) →
      DimsAlike p q) ∧
    ∀ l ∈ plan.leaves, ∀ f, l.emit = .finality f → ∀ r (ms : List LeafMetric) branch,
      finalityBranch l.inputs.ctx.env f (ms.map (·.resolved)) (ms.map (·.outputAlias)) r =
        .ok branch → branch.outputs = l.dimNames ++ ms.map (·.outputAlias) ++ ["is_final"] := by
  have hfrom := planQuery_eq_ok h
  refine ⟨?_, ?_, ?_⟩
  · intro halike l hl l' hl'
    rw [hfrom.dimNames_eq hl, hfrom.dimNames_eq hl', halike _ _
      (hfrom.groupedOn_iff.mpr ⟨l, hl, rfl⟩) (hfrom.groupedOn_iff.mpr ⟨l', hl', rfl⟩)]
  · intro hplain heq s s' hs hs'
    have hdot {s : String} (hs : GroupedOn p q s) : ∀ a ∈ (dimsOn p.sources s q.dimensions).map
        (shownAs (dimsOn p.sources s q.dimensions)), '.' ∉ a.2.toList := by
      intro a ha
      obtain ⟨d, hd, rfl⟩ := List.mem_map.mp ha
      exact hplain s hs d hd
    refine map_shownName_inj (hdot hs) (hdot hs') ?_
    obtain ⟨l, hl, rfl⟩ := hfrom.groupedOn_iff.mp hs
    obtain ⟨l', hl', rfl⟩ := hfrom.groupedOn_iff.mp hs'
    rw [← hfrom.dimNames_eq hl, ← hfrom.dimNames_eq hl', heq l hl l' hl']
  · intro l hl f hf r ms branch hbranch
    obtain ⟨c, -, ha⟩ := planQuery_calls hfrom hl
    have hdims : f.dims = l.inputs.dimensions := by
      rcases leafEmit_eq_ok ha.emit with ⟨b, -, he⟩ | ⟨-, he⟩ | ⟨-, rule, timeDim, w, -, he⟩
      · simp [hf] at he
      · simp [hf] at he
      · rw [hf] at he
        rw [Emit.finality.inj he]
    rw [finalityBranch_outputs hbranch (by simp), hdims]
    rfl

private def revenueOfOrders : MetricBinding :=
  { metric := "revenue", canonical := { of := .single "orders" "amount" } }

/-- The orders have a region, the visits an area that is also called a region. -/
private def regionProject : Project where
  lib := Lib.ofTexts [("SUM(amount)", .node (.agg .sum) [.bare "amount"])]
  sources := { list := [
    { name := "orders", connection := "wh", table := "orders"
      columns := [⟨"region", .string, true⟩, ⟨"amount", .decimal, true⟩]
      measures := [{ name := "amount", expr := "SUM(amount)" }]
      dimensions := [{ name := "region", column := some "region" }]
      measures_nodup := List.nodup_singleton "amount" },
    { name := "visits", connection := "wh", table := "visits"
      columns := [⟨"area", .string, true⟩, ⟨"amount", .decimal, true⟩]
      measures := [{ name := "amount", expr := "SUM(amount)" }]
      dimensions := [{ name := "area", column := some "area", aliases := ["region"] }]
      measures_nodup := List.nodup_singleton "amount" }] }
  resolver := { bindings := [revenueOfOrders,
    { metric := "visitors", canonical := { of := .single "visits" "amount" } }] }

/-- By region, the leaf of the orders has a column `region` and the leaf of the visits has none. -/
theorem dimNames_region_counterexample :
    ∃ plan r, planQuery regionProject
        { metrics := ["revenue", "visitors"], dimensions := ["region"] } {} = .ok plan ∧
      emitPlan plan true = .ok r ∧
      ¬ ∀ l ∈ plan.leaves, ∀ l' ∈ plan.leaves, l.dimNames = l'.dimNames := by
  obtain ⟨plan, hplan, hall⟩ := exists_ok_of_any (x := planQuery regionProject
      { metrics := ["revenue", "visitors"], dimensions := ["region"] } {})
    (P := fun plan => (emitPlan plan true).isOk &&
      plan.leaves.any fun l => plan.leaves.any fun l' => l.dimNames != l'.dimNames)
    (by decide +kernel)
  simp only [Bool.and_eq_true, List.any_eq_true, bne_iff_ne] at hall
  obtain ⟨hemit, l, hl, l', hl', hne⟩ := hall
  obtain ⟨r, hr⟩ := exists_ok_of_isOk hemit
  exact ⟨plan, r, hplan, hr, fun heq => hne (heq l hl l' hl')⟩

theorem dimNames_revenue :
    ∃ plan, planQuery regionProject { metrics := ["revenue"], dimensions := ["region"] } {} =
      .ok plan ∧ ∀ l ∈ plan.leaves, ∀ l' ∈ plan.leaves, l.dimNames = l'.dimNames := by
  obtain ⟨plan, hplan⟩ := exists_ok_of_isOk (x := planQuery regionProject
    { metrics := ["revenue"], dimensions := ["region"] } {}) (by decide +kernel)
  refine ⟨plan, hplan, (dimNames_eq_of_dimsAlike hplan).1 fun s s' hs hs' => ?_⟩
  have horders {s : String}
      (h : GroupedOn regionProject { metrics := ["revenue"], dimensions := ["region"] } s) :
      s = "orders" := by
    obtain ⟨name, hname, b, hb, lf, hlf, hs⟩ := h
    rw [List.mem_singleton.mp hname] at hb
    obtain rfl : Binding.leaf revenueOfOrders = b := Except.ok.inj hb
    rw [groupedLeaves_leaf, List.mem_singleton] at hlf
    rw [hlf] at hs
    exact (Option.some.inj hs).symm
  rw [horders hs, horders hs']

end Canonic
