import Canonic.Compiler.Composition
import Canonic.Compiler.Emitted

set_option autoImplicit false

/-! # What a statement scans

A statement scans the sources that its leaves read, and all of them: a leaf that an expression is
opened for is built over its owner and joins, a finality leaf over those of every branch, and the
events of a conversion stand next to its base rows. -/

namespace Canonic

open Sql (Expr Query Select FromItem Projection Statement)

/-! ## The rows that are read -/

section

variable {env : Env} {owner : String} {edges : List JoinEdge} {conditions : List Expr}

/-- One of the `SELECT`s reads an owner and its joins. -/
def RowsRead (env : Env) (owner : String) (edges : List JoinEdge) (ss : List Select) : Prop :=
  ∃ s ∈ ss, fromAndJoins env owner edges = .ok s.from_

theorem RowsRead.mono {ss ss' : List Select} (h : RowsRead env owner edges ss)
    (hsub : ∀ s ∈ ss, s ∈ ss') : RowsRead env owner edges ss' := by
  obtain ⟨s, hs, hfrom⟩ := h
  exact ⟨s, hsub s hs, hfrom⟩

theorem rowsRead_select {d : Sql.Distinct} {ps : List Projection} {from_ : List (FromItem Query)}
    {w g : List Expr} (hf : fromAndJoins env owner edges = .ok from_) :
    RowsRead env owner edges (Query.select d ps from_ w g).selects := by
  rw [Query.selects_select]
  exact ⟨_, List.mem_cons_self, hf⟩

theorem rowsRead_derived {d : Sql.Distinct} {ps : List Projection} {k : Sql.JoinKind} {q : Query}
    {a : String} {on w g : List Expr} (h : RowsRead env owner edges q.selects) :
    RowsRead env owner edges (Query.select d ps [⟨k, .derived q, a, on⟩] w g).selects := by
  refine h.mono fun s hs => ?_
  simp [hs]

/-- The owner and every join target of the rows that are read are scanned. -/
theorem RowsRead.scanned {ss : List Select} (h : RowsRead env owner edges ss) {source : String}
    (hsource : source ∈ owner :: edges.map (·.join.to_)) :
    ∃ s ∈ ss, ∃ scan ∈ s.scans, scan.1 = source := by
  obtain ⟨s, hs, hfrom⟩ := h
  obtain ⟨src, joins, hsrc, hjoins, heq⟩ := fromAndJoins_eq_ok hfrom
  refine ⟨s, hs, ?_⟩
  rcases List.mem_cons.mp hsource with rfl | hsource
  · refine ⟨(src.name, src.table, source), ?_, Sources.get_name hsrc⟩
    simp [Select.scans, heq]
  · obtain ⟨e, he, rfl⟩ := List.mem_map.mp hsource
    obtain ⟨j, hj, hje⟩ := forall₂_mem_left hjoins he
    obtain ⟨target, on, htarget, -, rfl⟩ := joinItem_eq_ok hje
    refine ⟨(target.name, target.table, e.alias_), ?_, Sources.get_name htarget⟩
    simp only [Select.scans, heq, List.mem_filterMap]
    exact ⟨_, List.mem_cons_of_mem _ hj, rfl⟩

/-! ## The builders -/

variable {shifted : ShiftMap} {metrics : List ResolvedMetric} {dims : List (String × Dimension)}
  {aliases : List String} {mask : DimMask} {q : Query}

theorem buildSimple_reads
    (h : buildSimple env shifted owner metrics dims conditions edges aliases mask = .ok q) :
    RowsRead env owner edges q.selects := by
  simp only [buildSimple, bind_eq_ok, pure_eq_ok] at h
  obtain ⟨_, -, _, -, from_, hf, rfl⟩ := h
  exact rowsRead_select hf

theorem buildDedupInner_reads
    (h : buildDedupInner env shifted owner dims metrics conditions edges mask = .ok q) :
    RowsRead env owner edges q.selects := by
  simp only [buildDedupInner, bind_eq_ok, pure_eq_ok] at h
  obtain ⟨_, -, _, -, _, -, from_, hf, rfl⟩ := h
  exact rowsRead_select hf

theorem branchSelect_reads {role : Role} {outputs : List String}
    (h : branchSelect env shifted owner role metrics outputs dims conditions edges aliases mask =
      .ok q) : RowsRead env owner edges q.selects := by
  unfold branchSelect at h
  split at h
  · simp only [bind_eq_ok, pure_eq_ok] at h
    obtain ⟨inner, hinner, _, -, rfl⟩ := h
    exact rowsRead_derived (buildDedupInner_reads hinner)
  · simp only [bind_eq_ok, pure_eq_ok] at h
    obtain ⟨_, -, _, -, from_, hf, rfl⟩ := h
    exact rowsRead_select hf

end

theorem rowsRead_emitted {env : Env} {owner : String} {edges : List JoinEdge} {q : Query}
    {aux : List AuxCte} (h : RowsRead env owner edges q.selects) :
    RowsRead env owner edges (emittedSelects (q, aux)) :=
  h.mono fun _ hs => List.mem_append_left _ hs

theorem rowsRead_aux {env : Env} {owner : String} {edges : List JoinEdge} {q : Query}
    {aux : List AuxCte} {a : AuxCte} (ha : a ∈ aux)
    (h : RowsRead env owner edges a.body.selects) :
    RowsRead env owner edges (emittedSelects (q, aux)) :=
  h.mono fun _ hs => List.mem_append_right _ (List.mem_flatMap.mpr ⟨a, ha, hs⟩)

/-- A builder emits a `SELECT` over the owner and the joins of the plan. -/
def LeafBuilder.ReadsRows (b : LeafBuilder) : Prop :=
  ∀ i ms r, b i ms = .ok r → RowsRead i.ctx.env i.owner i.edges (emittedSelects r)

theorem emitAdditive_reads {i : LeafInputs} {metrics : List ResolvedMetric}
    {dims : List (String × Dimension)} {aliases : List String} {q : Query}
    (h : emitAdditive i metrics dims aliases = .ok q) :
    RowsRead i.ctx.env i.owner i.edges q.selects := by
  unfold emitAdditive at h
  split at h
  · simp only [buildDeduped, bind_eq_ok, pure_eq_ok] at h
    obtain ⟨inner, hinner, _, -, rfl⟩ := h
    exact rowsRead_derived (buildDedupInner_reads hinner)
  · exact buildSimple_reads h

theorem buildAdditive_reads : buildAdditive.ReadsRows := by
  intro i ms r h
  simp only [buildAdditive, bind_eq_ok, pure_eq_ok] at h
  obtain ⟨_, -, q, hq, rfl⟩ := h
  exact rowsRead_emitted (emitAdditive_reads hq)

theorem opaqueBuilder_reads (name : String) (grain : List String) :
    (opaqueBuilder name grain).ReadsRows := by
  intro i ms r h
  simp only [opaqueBuilder] at h
  split at h
  · simp at h
  · split at h
    · simp at h
    · simp only [buildOpaque, bind_eq_ok, pure_eq_ok] at h
      obtain ⟨q, ⟨_, -, _, -, from_, hf, rfl⟩, rfl⟩ := h
      exact rowsRead_emitted (rowsRead_select hf)

theorem buildRecompute_reads {i : LeafInputs} {kind : RecomputeKind} {alias_ column name : String}
    {q : Query} (h : buildRecompute i kind alias_ column name = .ok q) :
    RowsRead i.ctx.env i.owner i.edges q.selects := by
  simp only [buildRecompute, bind_eq_ok, pure_eq_ok] at h
  obtain ⟨_, -, _, -, from_, hf, rfl⟩ := h
  exact rowsRead_select hf

theorem buildPercentileFallback_reads {i : LeafInputs} {quantile alias_ column name : String}
    {r : Query × List AuxCte}
    (h : buildPercentileFallback i quantile alias_ column name = .ok r) :
    RowsRead i.ctx.env i.owner i.edges (emittedSelects r) := by
  simp only [buildPercentileFallback, percentileRanked, bind_eq_ok, pure_eq_ok] at h
  obtain ⟨inner, ⟨_, -, from_, hf, _, -, rfl⟩, rfl⟩ := h
  exact rowsRead_aux (List.mem_singleton_self _) (rowsRead_select hf)

theorem recomputeBuilder_reads (d : Dialect) (kind : RecomputeKind)
    (alias_ column name : String) : (recomputeBuilder d kind alias_ column name).ReadsRows := by
  intro i ms r h
  simp only [recomputeBuilder] at h
  split at h
  · simp only [bind_eq_ok, pure_eq_ok] at h
    obtain ⟨q, hq, rfl⟩ := h
    exact rowsRead_emitted (buildRecompute_reads hq)
  · split at h
    · simp at h
    · split at h
      · simp only [bind_eq_ok, pure_eq_ok] at h
        obtain ⟨q, hq, rfl⟩ := h
        exact rowsRead_emitted (buildRecompute_reads hq)
      · exact buildPercentileFallback_reads h

theorem buildSemiAdditive_reads {i : LeafInputs} {c : SemiAdditive} {r : Query × List AuxCte}
    (h : buildSemiAdditive i c = .ok r) :
    RowsRead i.ctx.env i.owner i.edges (emittedSelects r) := by
  unfold buildSemiAdditive at h
  split at h
  · simp only [semiAdditiveRanked, bind_eq_ok, pure_eq_ok] at h
    obtain ⟨inner, ⟨_, -, _, -, _, -, _, -, _, -, from_, hf, rfl⟩, _, -, rfl⟩ := h
    exact rowsRead_aux (List.mem_singleton_self _) (rowsRead_select hf)
  · simp only [semiAdditivePerSnapshot, bind_eq_ok, pure_eq_ok] at h
    obtain ⟨inner, ⟨_, -, _, -, _, -, from_, hf, rfl⟩, rfl⟩ := h
    exact rowsRead_aux (List.mem_singleton_self _) (rowsRead_select hf)

theorem semiAdditiveBuilder_reads (c : SemiAdditive) (collapsed : Bool) :
    (semiAdditiveBuilder c collapsed).ReadsRows := by
  intro i ms r h
  simp only [semiAdditiveBuilder] at h
  split at h
  · simp at h
  · split at h
    · exact buildSemiAdditive_reads h
    · simp only [bind_eq_ok, pure_eq_ok] at h
      obtain ⟨q, hq, rfl⟩ := h
      exact rowsRead_emitted (buildSimple_reads hq)

theorem cumulativeBuilder_reads (orderDims : List Nat) (visibility : List Expr) :
    (cumulativeBuilder orderDims visibility).ReadsRows := by
  intro i ms r h
  simp only [cumulativeBuilder, bind_eq_ok] at h
  obtain ⟨q, hq, h⟩ := h
  simp only [buildAdditive, bind_eq_ok, pure_eq_ok] at hq
  obtain ⟨_, -, q, hadd, rfl⟩ := hq
  split at h
  · obtain rfl := pure_eq_ok.mp h
    exact rowsRead_emitted (emitAdditive_reads hadd)
  · simp only [bind_eq_ok, pure_eq_ok] at h
    obtain ⟨shown, -, rfl⟩ := h
    exact rowsRead_emitted (emitAdditive_reads hadd)

theorem buildWindowed_reads (r : Rolling) : (buildWindowed r).ReadsRows := by
  intro i ms res h
  unfold buildWindowed at h
  split at h
  · simp at h
  · simp only [dailySelect, bind_eq_ok] at h
    obtain ⟨daily, ⟨_, -, hdaily⟩, bucket, -, h⟩ := h
    have hread := emitAdditive_reads hdaily
    split at h
    · obtain rfl := pure_eq_ok.mp h
      exact rowsRead_aux (a := ⟨rollingName i "daily", daily⟩) (by simp) hread
    · obtain rfl := pure_eq_ok.mp h
      exact rowsRead_aux (a := ⟨rollingName i "daily", daily⟩) (by simp) hread

theorem conversionEventsBuilder_reads {metric owner : String} {i : LeafInputs}
    {ms : List LeafMetric} {r : Query × List AuxCte} (hi : i.owner = owner)
    (h : conversionEventsBuilder metric owner i ms = .ok r) :
    r.2 = [] ∧ RowsRead i.ctx.env i.owner i.edges r.1.selects := by
  subst hi
  unfold conversionEventsBuilder at h
  split at h
  · simp at h
  · simp only [bind_eq_ok, pure_eq_ok] at h
    obtain ⟨from_, hf, rfl⟩ := h
    exact ⟨rfl, rowsRead_select hf⟩

/-- A conversions leaf reads the base rows, and the events that are inlined in it. -/
theorem buildConversions_reads {metric : String} {c : Conversions} {i : LeafInputs}
    {ms : List LeafMetric} {r : Query × List AuxCte} (h : buildConversions metric c i ms = .ok r) :
    RowsRead i.ctx.env i.owner i.edges (emittedSelects r) ∧
      ∀ s ∈ c.events.selects, s ∈ emittedSelects r := by
  unfold buildConversions at h
  split at h
  · simp at h
  · simp only [baseEvents, bind_eq_ok, pure_eq_ok] at h
    obtain ⟨base, ⟨_, -, from_, hf, rfl⟩, source, -, rfl⟩ := h
    refine ⟨rowsRead_aux List.mem_cons_self (rowsRead_select hf), fun s hs => ?_⟩
    refine List.mem_append_right _ (List.mem_flatMap.mpr ⟨⟨rollingName i "conversions", c.events⟩,
      ?_, hs⟩)
    simp

/-! ## The branches of a finality union -/

theorem finalityBranch_reads {env : Env} {f : FinalityInputs} {metrics : List ResolvedMetric}
    {aliases : List String} {r : Realization} {q : Query} (b : Branch env f r)
    (h : finalityBranch env f metrics aliases r = .ok q) :
    RowsRead env r.source b.edges q.selects := by
  simp only [finalityBranch, bind_eq_ok] at h
  obtain ⟨_, -, _, -, _, -, dims, hd, edges, he, column, -, _, -, hsel⟩ := h
  obtain rfl := Except.ok.inj (b.dims_eq.symm.trans hd)
  obtain rfl := Except.ok.inj (b.edges_eq.symm.trans he)
  exact branchSelect_reads hsel

theorem buildFinalityUnion_reads {env : Env} {f : FinalityInputs} {metrics : List ResolvedMetric}
    {aliases : List String} {r : Realization} {q : Query} (b : Branch env f r)
    (h : buildFinalityUnion env f metrics aliases = .ok q) :
    RowsRead env r.source b.edges q.selects := by
  simp only [buildFinalityUnion, bind_eq_ok] at h
  obtain ⟨branches, hb, h⟩ := h
  obtain ⟨q', hq', hbranch⟩ := forall₂_mem_left (mapM_eq_ok.mp hb) b.mem
  refine (finalityBranch_reads b hbranch).mono fun s hs => ?_
  cases branches with
  | nil => simp at hq'
  | cons first rest =>
      obtain rfl := Except.ok.inj h
      exact Query.mem_selects_unionAll.mpr ⟨q', hq', hs⟩

/-! ## The sources of a leaf -/

/-- A source that a planned leaf reads: its owner and its join targets, or those of a branch of its
finality union. -/
inductive LeafPlan.ReadsSource (l : LeafPlan) (source : String) : Prop
  | rows (b : LeafBuilder) (hemit : l.emit = .build b)
      (h : source ∈ l.inputs.owner :: l.inputs.edges.map (·.join.to_))
  | branch (f : FinalityInputs) (r : Realization) (hemit : l.emit = .finality f)
      (b : Branch l.inputs.ctx.env f r) (h : source ∈ r.source :: b.edges.map (·.join.to_))

/-- What is scanned by a leaf is a source of it. -/
theorem LeafSelect.readsSource {l : LeafPlan} {s : Select} (h : LeafSelect l s)
    {scan : String × String × String} (hscan : scan ∈ s.scans) : l.ReadsSource scan.1 := by
  have mem {env : Env} {owner : String} {edges : List JoinEdge} {conditions : List Expr}
      (hrows : ReadsRows env owner edges conditions s) :
      scan.1 ∈ owner :: edges.map (·.join.to_) := by
    rcases hrows.mem_scans hscan with ⟨heq, -⟩ | ⟨e, he, heq, -⟩
    · simp [heq]
    · rw [heq]
      exact List.mem_cons_of_mem _ (List.mem_map.mpr ⟨e, he, rfl⟩)
  cases h with
  | noTable hno =>
      rw [hno] at hscan
      simp at hscan
  | rows hrows hbuild =>
      obtain ⟨b, hemit⟩ := hbuild
      exact .rows b hemit (mem hrows)
  | branch f r hf b hrows => exact .branch f r hf b (mem hrows)

/-- A leaf whose builder, if the call brings one, reads the rows of the leaf, scans its sources. -/
theorem LeafCall.Answered.scanned {c : LeafCall} {l : LeafPlan} (ha : c.Answered l)
    (hb : ∀ b, c.options.builder = some b → ∀ ms r (i : LeafInputs), i.owner = c.owner →
      b i ms = .ok r → RowsRead i.ctx.env i.owner i.edges (emittedSelects r))
    {ms : List LeafMetric} {pre : String} {r : Query × List AuxCte}
    (hr : l.rebuild ms pre = .ok r) {source : String} (hsource : l.ReadsSource source) :
    ∃ s ∈ emittedSelects r, ∃ scan ∈ s.scans, scan.1 = source := by
  unfold LeafPlan.rebuild buildLeaf at hr
  cases hsource with
  | rows b hemit hmem =>
      simp only [hemit, bind_eq_ok] at hr
      obtain ⟨shifted, -, hr⟩ := hr
      rcases leafEmit_eq_ok ha.emit with ⟨b', hbuilder, he⟩ | ⟨-, he⟩ | ⟨-, _, _, _, -, he⟩
      · obtain rfl := Emit.build.inj (hemit.symm.trans he)
        exact (hb b hbuilder ms r _ (by exact ha.owner_eq) hr).scanned hmem
      · obtain rfl := Emit.build.inj (hemit.symm.trans he)
        exact (buildAdditive_reads _ ms r hr).scanned hmem
      · rw [hemit] at he
        cases he
  | branch f real hemit b hmem =>
      simp only [hemit, bind_eq_ok, pure_eq_ok] at hr
      obtain ⟨q, hq, rfl⟩ := hr
      exact (rowsRead_emitted (buildFinalityUnion_reads b hq)).scanned hmem

/-- Plans of one call read the same sources. -/
theorem LeafCall.Answered.readsSource {c : LeafCall} {l l' : LeafPlan} (ha : c.Answered l)
    (ha' : c.Answered l') {source : String} (h : l.ReadsSource source) : l'.ReadsSource source := by
  have hinputs : l'.inputs = l.inputs := by
    obtain ⟨s, hs, hi⟩ := ha.scope
    obtain ⟨s', hs', hi'⟩ := ha'.scope
    obtain rfl := Except.ok.inj (hs.symm.trans hs')
    rw [hi, hi']
  have hemit' : l'.emit = l.emit := by
    have hemit := ha'.emit
    rw [hinputs] at hemit
    exact Except.ok.inj (hemit.symm.trans ha.emit)
  cases h with
  | rows b hemit hmem => exact .rows b (hemit'.trans hemit) (hinputs ▸ hmem)
  | branch f r hemit b hmem =>
      refine .branch f r (hemit'.trans hemit) (hinputs ▸ b) ?_
      have hedges : ∀ {i : LeafInputs} (hi : l.inputs = i),
          (hi ▸ b : Branch i.ctx.env f r).edges = b.edges := by
        rintro _ rfl
        rfl
      rwa [hedges hinputs.symm]

/-- The events of a conversion need no expressions of their own. -/
theorem conversionEvents_aux {ctx : LeafContext} {name : String} {side : Side} {events : LeafPlan}
    (h : (conversionEventsCall ctx name side).plan = .ok events) : events.aux = [] := by
  obtain ⟨ha, hbuilt⟩ := LeafCall.plan_eq_ok h
  rcases leafEmit_eq_ok ha.emit with ⟨b, hb, hemit⟩ | ⟨hb, -⟩ | ⟨hb, -⟩
  · obtain rfl := Option.some.inj hb
    simp only [buildLeaf, hemit, bind_eq_ok] at hbuilt
    obtain ⟨shifted, -, hbuilt⟩ := hbuilt
    exact (conversionEventsBuilder_reads (by exact ha.owner_eq) hbuilt).1
  · simp [conversionEventsCall] at hb
  · simp [conversionEventsCall] at hb

theorem conversions_inline {ctx : LeafContext} {name : String} {c : Conversions} {l : LeafPlan}
    (ha : (conversionsCall ctx name c).Answered l) {ms : List LeafMetric} {pre : String}
    {r : Query × List AuxCte} (hr : l.rebuild ms pre = .ok r) :
    ∀ s ∈ c.events.selects, s ∈ emittedSelects r := by
  unfold LeafPlan.rebuild buildLeaf at hr
  rcases leafEmit_eq_ok ha.emit with ⟨b, hb, hemit⟩ | ⟨hb, -⟩ | ⟨hb, -⟩
  · obtain rfl := Option.some.inj hb
    simp only [hemit, bind_eq_ok] at hr
    obtain ⟨shifted, -, hr⟩ := hr
    exact (buildConversions_reads hr).2
  · simp [conversionsCall] at hb
  · simp [conversionsCall] at hb

/-- The sources of a leaf are scanned by what it emits. -/
theorem Calls.scanned {ctx : LeafContext} {name : String} {b : Binding} {c : LeafCall}
    (h : Calls ctx name b c) {l : LeafPlan} (ha : c.Answered l) {ms : List LeafMetric}
    {pre : String} {r : Query × List AuxCte} (hr : l.rebuild ms pre = .ok r) :
    ∀ source, l.ReadsSource source →
      ∃ s ∈ emittedSelects r, ∃ scan ∈ s.scans, scan.1 = source := by
  have own {builder : LeafBuilder} (hb : c.options.builder = some builder)
      (hreads : builder.ReadsRows) : ∀ source, l.ReadsSource source →
        ∃ s ∈ emittedSelects r, ∃ scan ∈ s.scans, scan.1 = source := by
    refine fun source => ha.scanned (fun b hb' ms r i _ hbr => ?_) hr
    obtain rfl := Option.some.inj (hb.symm.trans hb')
    exact hreads i ms r hbr
  have additive (hb : c.options.builder = none) : ∀ source, l.ReadsSource source →
      ∃ s ∈ emittedSelects r, ∃ scan ∈ s.scans, scan.1 = source := by
    refine fun source => ha.scanned (fun b hb' => ?_) hr
    simp [hb] at hb'
  induction h with
  | simple => exact additive rfl
  | opaque_ => exact own rfl (opaqueBuilder_reads _ _)
  | distinctCount | percentile => exact own rfl (recomputeBuilder_reads _ _ _ _ _)
  | semiAdditive => exact own rfl (semiAdditiveBuilder_reads _ _)
  | cumulative => exact own rfl (cumulativeBuilder_reads _ _)
  | rolling => exact own rfl (buildWindowed_reads _)
  | component _ hc =>
      cases hc with
      | single => exact additive rfl
      | distinctCount => exact own rfl (recomputeBuilder_reads _ _ _ _ _)
  | conversions => exact own rfl fun i ms r hbr => (buildConversions_reads hbr).1
  | base _ ih => exact ih ha own additive
  | offset _ _ ih => exact ih ha own additive
  | derived _ _ ih => exact ih ha own additive

/-- So are those of a leaf that is inlined in it. -/
theorem LeafCall.Inlines.scanned {c c' : LeafCall} (h : c.Inlines c') {l l' : LeafPlan}
    (ha : c.Answered l) (ha' : c'.Answered l') {ms : List LeafMetric} {pre : String}
    {r : Query × List AuxCte} (hr : l.rebuild ms pre = .ok r) {source : String}
    (hsource : l'.ReadsSource source) :
    ∃ s ∈ emittedSelects r, ∃ scan ∈ s.scans, scan.1 = source := by
  cases h with
  | events he =>
      obtain ⟨hevents, hbuilt⟩ := LeafCall.plan_eq_ok he
      obtain ⟨s, hs, hscan⟩ := hevents.scanned (fun b hb ms r i hi hbr => by
        obtain rfl := Option.some.inj hb
        obtain ⟨haux, hread⟩ := conversionEventsBuilder_reads hi hbr
        exact rowsRead_emitted hread) hbuilt (ha'.readsSource hevents hsource)
      refine ⟨s, conversions_inline ha hr s ?_, hscan⟩
      simpa [emittedSelects, conversionEvents_aux he] using hs

/-! ## The sources of a statement -/

theorem leafCtes_builds {leaves : List (String × Physical)} {ctes : List (String × Query)}
    (h : leafCtes leaves = .ok ctes) {x : String × Physical} (hx : x ∈ leaves) :
    ∃ built, x.2.keyLeaf.rebuild x.2.metrics (x.1 ++ "__") = .ok built ∧
      ∀ s ∈ emittedSelects built, ∃ c ∈ ctes, s ∈ c.2.selects := by
  simp only [leafCtes, bind_eq_ok, pure_eq_ok] at h
  obtain ⟨parts, hparts, rfl⟩ := h
  obtain ⟨part, hpart, hxp⟩ := forall₂_mem_left (mapM_eq_ok.mp hparts) hx
  simp only [bind_eq_ok, pure_eq_ok] at hxp
  obtain ⟨built, hbuilt, rfl⟩ := hxp
  refine ⟨built, hbuilt, fun s hs => ?_⟩
  rcases List.mem_append.mp hs with hs | hs
  · exact ⟨(x.1, built.1), List.mem_flatten.mpr ⟨_, hpart, by simp⟩, hs⟩
  · obtain ⟨a, ha, hs⟩ := List.mem_flatMap.mp hs
    refine ⟨(a.name, a.body), List.mem_flatten.mpr ⟨_, hpart, ?_⟩, hs⟩
    exact List.mem_append_left _ (List.mem_map.mpr ⟨a, ha, rfl⟩)

/-- A leaf that an expression is opened for is built in the statement. -/
theorem compose_builds {env : Env} {leaves : List LeafPlan} {metrics : List MetricPlan}
    {dedup : Bool} {res : ComposeResult} (h : compose env leaves metrics dedup = .ok res)
    {l : LeafPlan} (hl : l ∈ openers dedup leaves) :
    ∃ ms pre r, l.rebuild ms pre = .ok r ∧
      ∀ s ∈ emittedSelects r, s ∈ res.statement.selects := by
  obtain ⟨p, hp, rfl⟩ := List.mem_map.mp hl
  unfold compose at h
  split at h
  · simp at h
  next first rest =>
    simp only [bind_eq_ok, composeResult, pure_eq_ok] at h
    obtain ⟨_, -, st, hst, _, -, rfl⟩ := h
    have named {st : Statement × Nat}
        (hst : (composeStatement env (nameLeaves first.dimNames (fuse dedup (first :: rest)).1
          (fuse dedup (first :: rest)).2) metrics >>= fun s =>
            (pure (s, (fuse dedup (first :: rest)).1.length) : Except Err (Statement × Nat))) =
              .ok st) :
        ∃ ms pre r, p.keyLeaf.rebuild ms pre = .ok r ∧
          ∀ s ∈ emittedSelects r, s ∈ st.1.selects := by
      simp only [composeStatement, bind_eq_ok, pure_eq_ok] at hst
      obtain ⟨s, ⟨ctes, hctes, rfl⟩, rfl⟩ := hst
      obtain ⟨i, hi⟩ := List.mem_iff_getElem?.mp hp
      have hnamed : (nameOf (sortOrder (fuse dedup (first :: rest)).1) i, p) ∈
          (nameLeaves first.dimNames (fuse dedup (first :: rest)).1
            (fuse dedup (first :: rest)).2).leaves := mem_nameLeaves.mpr ⟨i, hi, rfl⟩
      obtain ⟨built, hbuilt, hmem⟩ := leafCtes_builds hctes hnamed
      refine ⟨_, _, built, hbuilt, fun s hs => ?_⟩
      obtain ⟨c, hc, hsc⟩ := hmem s hs
      refine List.mem_append_left _ (List.mem_flatMap.mpr ⟨c, ?_, hsc⟩)
      simp [hc]
    unfold physicalStatement at hst
    split at hst
    next p' hps =>
      split at hst
      · simp only [loneStatement, bind_eq_ok, pure_eq_ok] at hst
        obtain ⟨s, ⟨built, hbuilt, rfl⟩, rfl⟩ := hst
        rw [hps] at hp
        obtain rfl := List.mem_singleton.mp hp
        refine ⟨_, _, built, hbuilt, fun s hs => ?_⟩
        simp only [Statement.selects, List.flatMap_map]
        exact List.mem_append.mpr (List.mem_append.mp hs).symm
      · exact named hst
    · exact named hst

/-- A leaf that a statement is composed of, or that is inlined in one. -/
inductive Plan.Emits (plan : Plan) (dedup : Bool) (l : LeafPlan) : Prop
  | opener (h : l ∈ openers dedup plan.leaves)
  | inlined (outer : LeafPlan) (h : outer ∈ openers dedup plan.leaves) (c c' : LeafCall)
      (hcall : plan.Calls c) (ha : c.Answered outer) (hin : c.Inlines c') (ha' : c'.Answered l)

/-- **A statement scans the sources of its leaves**, and all of them. -/
theorem scans_iff {p : Project} {q : SemanticQuery} {principal : Principal} {plan : Plan}
    (hfrom : PlannedFrom p q principal plan) {dedup : Bool} {res : ComposeResult}
    (h : compose plan.ctx.env plan.leaves plan.metrics dedup = .ok res) {source : String} :
    (∃ s ∈ res.statement.selects, ∃ scan ∈ s.scans, scan.1 = source) ↔
      ∃ l, plan.Emits dedup l ∧ l.ReadsSource source := by
  constructor
  · rintro ⟨s, hs, scan, hscan, rfl⟩
    rcases compose_emitted h s hs with hno | ⟨l, hl, ms, pre, r, hr, hsr⟩
    · rw [hno] at hscan
      simp at hscan
    · obtain ⟨c, hc, ha⟩ := planQuery_calls hfrom (mem_of_mem_openers hl)
      obtain ⟨b, hb, hcalls⟩ := hc
      rcases hcalls.leafSelect ha hr hsr with hsel | ⟨c', l', hin, ha', hsel⟩
      · exact ⟨l, .opener hl, hsel.readsSource hscan⟩
      · exact ⟨l', .inlined l hl c c' ⟨b, hb, hcalls⟩ ha hin ha', hsel.readsSource hscan⟩
  · rintro ⟨l, hl, hsource⟩
    have found {outer : LeafPlan} (houter : outer ∈ openers dedup plan.leaves)
        (hscanned : ∀ ms pre r, outer.rebuild ms pre = .ok r →
          ∃ s ∈ emittedSelects r, ∃ scan ∈ s.scans, scan.1 = source) :
        ∃ s ∈ res.statement.selects, ∃ scan ∈ s.scans, scan.1 = source := by
      obtain ⟨ms, pre, r, hr, hmem⟩ := compose_builds h houter
      obtain ⟨s, hs, hscan⟩ := hscanned ms pre r hr
      exact ⟨s, hmem s hs, hscan⟩
    cases hl with
    | opener hl =>
        obtain ⟨c, ⟨b, -, hcalls⟩, ha⟩ := planQuery_calls hfrom (mem_of_mem_openers hl)
        exact found hl fun ms pre r hr => hcalls.scanned ha hr source hsource
    | inlined outer houter c c' hc ha hin ha' =>
        exact found houter fun ms pre r hr => hin.scanned ha ha' hr hsource

end Canonic
