import Canonic.Compiler.Calls

set_option autoImplicit false

/-! # What a leaf emits

A builder may emit several `SELECT`s, but only in two shapes: one that reads the planned `FROM` and
`JOIN`s of the leaf under all of its conditions, or one that reads nothing but named expressions and
derived tables. `LeafSelect` is that statement for a planned leaf, with the branches of a finality
union as a third shape, and `compose_selects` extends it to the composed statement. -/

namespace Canonic

open Sql (Expr Query Select FromItem Projection Statement)

/-! ## Shapes of a `SELECT` -/

/-- Every `SELECT` of an emission, those of its auxiliary expressions included. -/
def emittedSelects (r : Query × List AuxCte) : List Select :=
  r.1.selects ++ r.2.flatMap fun a => a.body.selects

/-- The `SELECT` reads no base table. -/
def ReadsNoTable (s : Select) : Prop := s.scans = []

/-- The `SELECT` reads an owner and its joins, under all of the given conditions. -/
structure ReadsRows (env : Env) (owner : String) (edges : List JoinEdge) (conditions : List Expr)
    (s : Select) : Prop where
  from_ : fromAndJoins env owner edges = .ok s.from_
  where_ : ∀ c ∈ conditions, c ∈ s.where_

/-- The two shapes a builder emits. -/
def Shaped (env : Env) (owner : String) (edges : List JoinEdge) (conditions : List Expr)
    (s : Select) : Prop :=
  ReadsNoTable s ∨ ReadsRows env owner edges conditions s

/-- The base tables an owner and its joins read. -/
theorem fromAndJoins_eq_ok {env : Env} {owner : String} {edges : List JoinEdge}
    {from_ : List (FromItem Query)} (h : fromAndJoins env owner edges = .ok from_) :
    ∃ source joins, env.sources.get owner = some source ∧
      List.Forall₂ (fun e j => joinItem env e = .ok j) edges joins ∧
      from_ = ⟨.from, .source source.name source.table, owner, []⟩ :: joins := by
  simp only [fromAndJoins, bind_eq_ok, pure_eq_ok] at h
  obtain ⟨source, hs, joins, hj, rfl⟩ := h
  exact ⟨source, joins, Sources.getKey_eq_ok.mp hs, mapM_eq_ok.mp hj, rfl⟩

theorem joinItem_eq_ok {env : Env} {e : JoinEdge} {j : FromItem Query}
    (h : joinItem env e = .ok j) :
    ∃ target on, env.sources.get e.join.to_ = some target ∧ env.parse e.onSql = .ok on ∧
      j = ⟨.left, .source target.name target.table, e.alias_, [on]⟩ := by
  simp only [joinItem, bind_eq_ok, pure_eq_ok] at h
  obtain ⟨target, ht, on, hon, rfl⟩ := h
  exact ⟨target, on, Sources.getKey_eq_ok.mp ht, hon, rfl⟩

/-- The scans of a `SELECT` over an owner and its joins: the owner under its own name, and each
join under its alias. -/
theorem ReadsRows.mem_scans {env : Env} {owner : String} {edges : List JoinEdge}
    {conditions : List Expr} {s : Select} (h : ReadsRows env owner edges conditions s)
    {scan : String × String × String} (hscan : scan ∈ s.scans) :
    (scan.1 = owner ∧ scan.2.2 = owner) ∨
      ∃ e ∈ edges, scan.1 = e.join.to_ ∧ scan.2.2 = e.alias_ := by
  obtain ⟨source, joins, hs, hj, hfrom⟩ := fromAndJoins_eq_ok h.from_
  simp only [Select.scans, hfrom, List.mem_filterMap, List.mem_cons] at hscan
  obtain ⟨item, rfl | hitem, hrel⟩ := hscan
  · obtain rfl := Option.some.inj hrel
    exact .inl ⟨Sources.get_name hs, rfl⟩
  · obtain ⟨e, he, hje⟩ := forall₂_mem_right hj hitem
    obtain ⟨target, on, ht, -, rfl⟩ := joinItem_eq_ok hje
    obtain rfl := Option.some.inj hrel
    exact .inr ⟨e, he, Sources.get_name ht, rfl⟩

/-- No derived table stands among an owner and its joins. -/
theorem selectsItems_fromAndJoins {env : Env} {owner : String} {edges : List JoinEdge}
    {from_ : List (FromItem Query)} (h : fromAndJoins env owner edges = .ok from_) :
    Query.selectsItems from_ = [] := by
  obtain ⟨source, joins, -, hj, rfl⟩ := fromAndJoins_eq_ok h
  rw [Query.selectsItems_cons, Query.selectsRel_source, List.nil_append]
  clear h
  induction hj with
  | nil => simp
  | cons hje _ ih =>
      obtain ⟨target, on, -, -, rfl⟩ := joinItem_eq_ok hje
      simp [ih]

section
variable {env : Env} {owner : String} {edges : List JoinEdge} {conditions : List Expr}

/-- A query over the owner and its joins. -/
theorem shaped_rows {d : Sql.Distinct} {ps : List Projection} {from_ : List (FromItem Query)}
    {w g : List Expr} (hf : fromAndJoins env owner edges = .ok from_)
    (hw : ∀ c ∈ conditions, c ∈ w) :
    ∀ s ∈ (Query.select d ps from_ w g).selects, Shaped env owner edges conditions s := by
  intro s hs
  rw [Query.selects_select, selectsItems_fromAndJoins hf, List.mem_singleton] at hs
  subst hs
  exact .inr ⟨hf, hw⟩

/-- A query that reads a named expression. -/
theorem readsNoTable_cte {d : Sql.Distinct} {ps : List Projection} {from_ : List (FromItem Query)}
    {w g : List Expr} (hf : ∀ i ∈ from_, ∃ n, i.rel = .cte n) :
    ∀ s ∈ (Query.select d ps from_ w g).selects, ReadsNoTable s := by
  intro s hs
  rw [Query.selects_select, List.mem_cons, Query.mem_selectsItems] at hs
  rcases hs with rfl | ⟨i, hi, hsi⟩
  · simp only [ReadsNoTable, Select.scans, List.filterMap_eq_nil_iff]
    intro i hi
    obtain ⟨n, hn⟩ := hf i hi
    simp [hn]
  · obtain ⟨n, hn⟩ := hf i hi
    simp [hn] at hsi

theorem readsNoTable_one {d : Sql.Distinct} {ps : List Projection} {k : Sql.JoinKind}
    {n a : String} {on w g : List Expr} :
    ∀ s ∈ (Query.select d ps [⟨k, .cte n, a, on⟩] w g).selects, ReadsNoTable s := by
  refine readsNoTable_cte fun i hi => ?_
  obtain rfl := List.mem_singleton.mp hi
  exact ⟨n, rfl⟩

theorem readsNoTable_two {d : Sql.Distinct} {ps : List Projection} {k k' : Sql.JoinKind}
    {n n' a a' : String} {on on' w g : List Expr} :
    ∀ s ∈ (Query.select d ps [⟨k, .cte n, a, on⟩, ⟨k', .cte n', a', on'⟩] w g).selects,
      ReadsNoTable s := by
  refine readsNoTable_cte fun i hi => ?_
  rcases List.mem_pair.mp hi with rfl | rfl
  · exact ⟨n, rfl⟩
  · exact ⟨n', rfl⟩

/-- A query that reads derived tables: what they read, and itself nothing. -/
theorem selects_derived {d : Sql.Distinct} {ps : List Projection} {from_ : List (FromItem Query)}
    {w g : List Expr} {P : Select → Prop} (hno : ∀ s, ReadsNoTable s → P s)
    (hf : ∀ i ∈ from_, ∃ q, i.rel = .derived q ∧ ∀ s ∈ q.selects, P s) :
    ∀ s ∈ (Query.select d ps from_ w g).selects, P s := by
  intro s hs
  rw [Query.selects_select, List.mem_cons, Query.mem_selectsItems] at hs
  rcases hs with rfl | ⟨i, hi, hsi⟩
  · refine hno _ ?_
    simp only [ReadsNoTable, Select.scans, List.filterMap_eq_nil_iff]
    intro i hi
    obtain ⟨q, hq, -⟩ := hf i hi
    simp [hq]
  · obtain ⟨q, hq, hP⟩ := hf i hi
    rw [hq, Query.selectsRel_derived] at hsi
    exact hP s hsi

/-! ## The builders -/

variable {shifted : ShiftMap} {metrics : List ResolvedMetric} {dims : List (String × Dimension)}
  {aliases : List String} {mask : DimMask} {q : Query}

theorem buildSimple_shaped
    (h : buildSimple env shifted owner metrics dims conditions edges aliases mask = .ok q) :
    ∀ s ∈ q.selects, Shaped env owner edges conditions s := by
  simp only [buildSimple, bind_eq_ok, pure_eq_ok] at h
  obtain ⟨_, -, _, -, from_, hf, rfl⟩ := h
  exact shaped_rows hf fun _ hc => hc

theorem buildDedupInner_shaped
    (h : buildDedupInner env shifted owner dims metrics conditions edges mask = .ok q) :
    ∀ s ∈ q.selects, Shaped env owner edges conditions s := by
  simp only [buildDedupInner, bind_eq_ok, pure_eq_ok] at h
  obtain ⟨_, -, _, -, _, -, from_, hf, rfl⟩ := h
  exact shaped_rows hf fun _ hc => hc

theorem buildDeduped_shaped
    (h : buildDeduped env shifted owner metrics dims conditions edges aliases mask = .ok q) :
    ∀ s ∈ q.selects, Shaped env owner edges conditions s := by
  simp only [buildDeduped, bind_eq_ok, pure_eq_ok] at h
  obtain ⟨inner, hinner, _, -, rfl⟩ := h
  refine selects_derived (fun _ hs => .inl hs) fun i hi => ?_
  obtain rfl := List.mem_singleton.mp hi
  exact ⟨inner, rfl, buildDedupInner_shaped hinner⟩

theorem branchSelect_shaped {role : Role} {outputs : List String}
    (h : branchSelect env shifted owner role metrics outputs dims conditions edges aliases mask =
      .ok q) :
    ∀ s ∈ q.selects, Shaped env owner edges conditions s := by
  unfold branchSelect at h
  split at h
  · simp only [bind_eq_ok, pure_eq_ok] at h
    obtain ⟨inner, hinner, _, -, rfl⟩ := h
    refine selects_derived (fun _ hs => .inl hs) fun i hi => ?_
    obtain rfl := List.mem_singleton.mp hi
    exact ⟨inner, rfl, buildDedupInner_shaped hinner⟩
  · simp only [bind_eq_ok, pure_eq_ok] at h
    obtain ⟨_, -, _, -, from_, hf, rfl⟩ := h
    exact shaped_rows hf fun _ hc => hc

end

/-- A builder emits the two shapes only. -/
def LeafBuilder.Shapes (b : LeafBuilder) : Prop :=
  ∀ i ms r, b i ms = .ok r → ∀ s ∈ emittedSelects r,
    Shaped i.ctx.env i.owner i.edges i.conditions s

theorem shapes_of_query {i : LeafInputs} {q : Query}
    (h : ∀ s ∈ q.selects, Shaped i.ctx.env i.owner i.edges i.conditions s) :
    ∀ s ∈ emittedSelects (q, []), Shaped i.ctx.env i.owner i.edges i.conditions s := by
  simpa [emittedSelects] using h

theorem emitAdditive_shaped {i : LeafInputs} {metrics : List ResolvedMetric}
    {dims : List (String × Dimension)} {aliases : List String} {q : Query}
    (h : emitAdditive i metrics dims aliases = .ok q) :
    ∀ s ∈ q.selects, Shaped i.ctx.env i.owner i.edges i.conditions s := by
  unfold emitAdditive at h
  split at h
  · exact buildDeduped_shaped h
  · exact buildSimple_shaped h

theorem buildAdditive_shapes : buildAdditive.Shapes := by
  intro i ms r h
  simp only [buildAdditive, bind_eq_ok, pure_eq_ok] at h
  obtain ⟨_, -, q, hq, rfl⟩ := h
  exact shapes_of_query (emitAdditive_shaped hq)

theorem opaqueBuilder_shapes (name : String) (grain : List String) :
    (opaqueBuilder name grain).Shapes := by
  intro i ms r h
  simp only [opaqueBuilder] at h
  split at h
  · simp at h
  · split at h
    · simp at h
    · simp only [bind_eq_ok, pure_eq_ok] at h
      obtain ⟨q, hq, rfl⟩ := h
      simp only [buildOpaque, bind_eq_ok, pure_eq_ok] at hq
      obtain ⟨_, -, _, -, from_, hf, rfl⟩ := hq
      exact shapes_of_query (shaped_rows hf fun _ hc => hc)

theorem buildRecompute_shaped {i : LeafInputs} {kind : RecomputeKind} {alias_ column name : String}
    {q : Query} (h : buildRecompute i kind alias_ column name = .ok q) :
    ∀ s ∈ q.selects, Shaped i.ctx.env i.owner i.edges i.conditions s := by
  simp only [buildRecompute, bind_eq_ok, pure_eq_ok] at h
  obtain ⟨_, -, _, -, from_, hf, rfl⟩ := h
  exact shaped_rows hf fun _ hc => hc

theorem buildPercentileFallback_shapes {i : LeafInputs} {quantile alias_ column name : String}
    {r : Query × List AuxCte}
    (h : buildPercentileFallback i quantile alias_ column name = .ok r) :
    ∀ s ∈ emittedSelects r, Shaped i.ctx.env i.owner i.edges i.conditions s := by
  simp only [buildPercentileFallback, percentileRanked, bind_eq_ok, pure_eq_ok] at h
  obtain ⟨inner, ⟨_, -, from_, hf, _, -, rfl⟩, rfl⟩ := h
  intro s hs
  simp only [emittedSelects, List.flatMap_cons, List.flatMap_nil, List.append_nil,
    List.mem_append] at hs
  rcases hs with hs | hs
  · exact .inl (readsNoTable_one s hs)
  · exact shaped_rows hf (fun _ hc => List.mem_append_left _ hc) s hs

theorem recomputeBuilder_shapes (d : Dialect) (kind : RecomputeKind)
    (alias_ column name : String) : (recomputeBuilder d kind alias_ column name).Shapes := by
  intro i ms r h
  simp only [recomputeBuilder] at h
  split at h
  · simp only [bind_eq_ok, pure_eq_ok] at h
    obtain ⟨q, hq, rfl⟩ := h
    exact shapes_of_query (buildRecompute_shaped hq)
  · split at h
    · simp at h
    · split at h
      · simp only [bind_eq_ok, pure_eq_ok] at h
        obtain ⟨q, hq, rfl⟩ := h
        exact shapes_of_query (buildRecompute_shaped hq)
      · exact buildPercentileFallback_shapes h

theorem buildSemiAdditive_shapes {i : LeafInputs} {c : SemiAdditive} {r : Query × List AuxCte}
    (h : buildSemiAdditive i c = .ok r) :
    ∀ s ∈ emittedSelects r, Shaped i.ctx.env i.owner i.edges i.conditions s := by
  -- both collapses read one auxiliary expression over the leaf's rows
  have two {inner outer : Query} {name : String}
      (hin : ∀ s ∈ inner.selects, Shaped i.ctx.env i.owner i.edges i.conditions s)
      (hout : ∀ s ∈ outer.selects, ReadsNoTable s) :
      ∀ s ∈ emittedSelects (outer, [⟨name, inner⟩]),
        Shaped i.ctx.env i.owner i.edges i.conditions s := by
    intro s hs
    simp only [emittedSelects, List.flatMap_cons, List.flatMap_nil, List.append_nil,
      List.mem_append] at hs
    exact hs.elim (fun hs => .inl (hout s hs)) (hin s)
  unfold buildSemiAdditive at h
  split at h
  · simp only [semiAdditiveRanked, bind_eq_ok, pure_eq_ok] at h
    obtain ⟨inner, ⟨_, -, _, -, _, -, _, -, _, -, from_, hf, rfl⟩, _, -, rfl⟩ := h
    exact two (shaped_rows hf fun _ hc => hc) readsNoTable_one
  · simp only [semiAdditivePerSnapshot, bind_eq_ok, pure_eq_ok] at h
    obtain ⟨inner, ⟨_, -, _, -, _, -, from_, hf, rfl⟩, rfl⟩ := h
    exact two (shaped_rows hf fun _ hc => hc) readsNoTable_one

theorem semiAdditiveBuilder_shapes (c : SemiAdditive) (collapsed : Bool) :
    (semiAdditiveBuilder c collapsed).Shapes := by
  intro i ms r h
  simp only [semiAdditiveBuilder] at h
  split at h
  · simp at h
  · split at h
    · exact buildSemiAdditive_shapes h
    · simp only [bind_eq_ok, pure_eq_ok] at h
      obtain ⟨q, hq, rfl⟩ := h
      exact shapes_of_query (buildSimple_shaped hq)

theorem cumulativeBuilder_shapes (orderDims : List Nat) (visibility : List Expr) :
    (cumulativeBuilder orderDims visibility).Shapes := by
  intro i ms r h
  simp only [cumulativeBuilder, bind_eq_ok] at h
  obtain ⟨q, hq, h⟩ := h
  have hq := buildAdditive_shapes i ms q hq
  split at h
  · obtain rfl := pure_eq_ok.mp h
    intro s hs
    exact hq s (List.mem_append_left _ (by simpa [emittedSelects] using hs))
  · simp only [visibleTuples, bind_eq_ok, pure_eq_ok] at h
    obtain ⟨shown, ⟨_, -, from_, hf, rfl⟩, rfl⟩ := h
    intro s hs
    simp only [emittedSelects, List.flatMap_cons, List.flatMap_nil, List.append_nil,
      List.mem_append] at hs
    rcases hs with hs | hs
    · exact hq s (List.mem_append_left _ hs)
    · exact shaped_rows hf (fun _ hc => List.mem_append_left _ hc) s hs

/-! ### Queries over named expressions -/

theorem digitsSelect_noTable : ∀ s ∈ digitsSelect.selects, ReadsNoTable s := by
  intro s hs
  obtain ⟨q, hq, hsq⟩ := Query.mem_selects_unionAll.mp hs
  have : ∃ d : Nat, q = .select .none [⟨Expr.number (toString d), "n"⟩] [] [] [] := by
    rcases List.mem_cons.mp hq with rfl | hq
    · exact ⟨0, rfl⟩
    · obtain ⟨d, -, rfl⟩ := List.mem_map.mp hq
      exact ⟨d + 1, rfl⟩
  obtain ⟨d, rfl⟩ := this
  exact readsNoTable_cte (by simp) s hsq

theorem boundsSelect_noTable (daily : String) (cap : Expr) (reach : Expr → Expr) :
    ∀ s ∈ (boundsSelect daily cap reach).selects, ReadsNoTable s :=
  readsNoTable_one

theorem spineSelect_noTable (env : Env) (bounds digits : String) :
    ∀ s ∈ (spineSelect env bounds digits).selects, ReadsNoTable s := by
  refine selects_derived (fun _ hs => hs) fun i hi => ?_
  rcases List.mem_pair.mp hi with rfl | rfl
  · exact ⟨_, rfl, readsNoTable_one⟩
  · refine ⟨_, rfl, readsNoTable_cte fun i hi => ⟨digits, ?_⟩⟩
    simp only [List.map_cons, List.map_nil, List.mem_cons, List.not_mem_nil, or_false] at hi
    rcases hi with rfl | rfl | rfl | rfl | rfl <;> rfl

theorem targetSelect_noTable (env : Env) (r : Rolling) (spine : String) (bucket : Expr) :
    ∀ s ∈ (targetSelect env r spine bucket).selects, ReadsNoTable s := by
  unfold targetSelect
  cases r.frame.periodAgg <;> exact readsNoTable_one

/-- An emission whose auxiliary expressions and query have a property has it everywhere. -/
theorem forall_emittedSelects {P : Select → Prop} {q : Query} {aux : List AuxCte}
    (hq : ∀ s ∈ q.selects, P s) (haux : ∀ a ∈ aux, ∀ s ∈ a.body.selects, P s) :
    ∀ s ∈ emittedSelects (q, aux), P s := by
  intro s hs
  rcases List.mem_append.mp hs with hs | hs
  · exact hq s hs
  · obtain ⟨a, ha, hsa⟩ := List.mem_flatMap.mp hs
    exact haux a ha s hsa

theorem buildWindowed_shapes (r : Rolling) : (buildWindowed r).Shapes := by
  intro i ms res h
  unfold buildWindowed at h
  split at h
  · simp at h
  next m _ =>
    simp only [dailySelect, bind_eq_ok] at h
    obtain ⟨daily, ⟨_, -, hdaily⟩, bucket, -, h⟩ := h
    -- of the auxiliary expressions only the daily rows read tables
    have haux : ∀ a ∈ ([⟨rollingName i "daily", daily⟩,
        ⟨rollingName i "digits", digitsSelect⟩,
        ⟨rollingName i "bounds",
          boundsSelect (rollingName i "daily") r.anchor (reach i.ctx.env.adapter r.frame)⟩,
        ⟨rollingName i "spine",
          spineSelect i.ctx.env (rollingName i "bounds") (rollingName i "digits")⟩,
        ⟨rollingName i "targets", targetSelect i.ctx.env r (rollingName i "spine") bucket⟩] :
          List AuxCte),
        ∀ s ∈ a.body.selects, Shaped i.ctx.env i.owner i.edges i.conditions s := by
      intro a ha s hs
      simp only [List.mem_cons, List.not_mem_nil, or_false] at ha
      rcases ha with rfl | rfl | rfl | rfl | rfl
      · exact emitAdditive_shaped hdaily s hs
      · exact .inl (digitsSelect_noTable s hs)
      · exact .inl (boundsSelect_noTable _ _ _ s hs)
      · exact .inl (spineSelect_noTable _ _ _ s hs)
      · exact .inl (targetSelect_noTable _ _ _ _ s hs)
    split at h
    · obtain rfl := pure_eq_ok.mp h
      refine forall_emittedSelects (fun s hs => .inl (readsNoTable_one s hs)) fun a ha => ?_
      rcases List.mem_append.mp ha with ha | ha
      · exact haux a ha
      · obtain rfl := List.mem_singleton.mp ha
        exact fun s hs => .inl (readsNoTable_two s hs)
    · obtain rfl := pure_eq_ok.mp h
      exact forall_emittedSelects (fun s hs => .inl (readsNoTable_two s hs)) haux

/-- The conversion events are the rows of the builder's own source. -/
theorem conversionEventsBuilder_shapes {metric owner : String} {i : LeafInputs}
    {ms : List LeafMetric} {r : Query × List AuxCte} (hi : i.owner = owner)
    (h : conversionEventsBuilder metric owner i ms = .ok r) :
    ∀ s ∈ emittedSelects r, Shaped i.ctx.env i.owner i.edges i.conditions s := by
  subst hi
  unfold conversionEventsBuilder at h
  split at h
  · simp at h
  · simp only [bind_eq_ok, pure_eq_ok] at h
    obtain ⟨from_, hf, rfl⟩ := h
    exact shapes_of_query (shaped_rows hf fun _ hc => hc)

/-- A conversions leaf reads the base rows, and the events that are inlined in it. -/
theorem buildConversions_shaped {metric : String} {c : Conversions} {i : LeafInputs}
    {ms : List LeafMetric} {r : Query × List AuxCte} (h : buildConversions metric c i ms = .ok r) :
    ∀ s ∈ emittedSelects r, Shaped i.ctx.env i.owner i.edges i.conditions s ∨
      s ∈ c.events.selects := by
  unfold buildConversions at h
  split at h
  · simp at h
  · simp only [baseEvents, bind_eq_ok, pure_eq_ok] at h
    obtain ⟨base, ⟨_, -, from_, hf, rfl⟩, source, -, rfl⟩ := h
    refine forall_emittedSelects (fun s hs => .inl (.inl (readsNoTable_two s hs))) ?_
    intro a ha s hs
    simp only [List.mem_cons, List.not_mem_nil, or_false] at ha
    rcases ha with rfl | rfl | rfl
    · exact .inl (shaped_rows hf (fun _ hc => hc) s hs)
    · exact .inr hs
    · exact .inl (.inl (readsNoTable_two s hs))

/-! ## Finality branches -/

/-- A realization of a finality leaf with the dimensions and joins its branch plans, and the
conditions it reads under: those of the owner's leaf requalified to it, and the gate. -/
structure Branch (env : Env) (f : FinalityInputs) (r : Realization) where
  dims : List (String × Dimension)
  edges : List JoinEdge
  column : Expr
  mem : r ∈ f.rule.realizations
  dims_eq : f.dims.mapM (branchDim env r.source (buildAliasTree env.sources r.source)) = .ok dims
  edges_eq : branchEdges env r.source (buildAliasTree env.sources r.source) dims f.conditions =
    .ok edges
  column_eq : gateColumn env r.source f.timeDim dims = .ok column

/-- The `WHERE` of a branch. -/
def Branch.conditions {env : Env} {f : FinalityInputs} {r : Realization} (b : Branch env f r) :
    List Expr :=
  f.conditions.map (requalifySource · f.owner r.source) ++ [gate r.role b.column f.watermark]

theorem finalityBranch_shaped {env : Env} {f : FinalityInputs} {metrics : List ResolvedMetric}
    {aliases : List String} {r : Realization} {q : Query} (hr : r ∈ f.rule.realizations)
    (h : finalityBranch env f metrics aliases r = .ok q) :
    ∃ b : Branch env f r, ∀ s ∈ q.selects, Shaped env r.source b.edges b.conditions s := by
  simp only [finalityBranch, bind_eq_ok] at h
  obtain ⟨_, -, _, -, _, -, dims, hd, edges, he, column, hc, _, -, hsel⟩ := h
  exact ⟨⟨dims, edges, column, hr, hd, he, hc⟩, branchSelect_shaped hsel⟩

theorem buildFinalityUnion_shaped {env : Env} {f : FinalityInputs} {metrics : List ResolvedMetric}
    {aliases : List String} {q : Query} (h : buildFinalityUnion env f metrics aliases = .ok q) :
    ∀ s ∈ q.selects, ∃ r, ∃ b : Branch env f r, Shaped env r.source b.edges b.conditions s := by
  simp only [buildFinalityUnion, bind_eq_ok] at h
  obtain ⟨branches, hb, h⟩ := h
  intro s hs
  have hmem : ∃ q' ∈ branches, s ∈ q'.selects := by
    cases branches with
    | nil => simp at h
    | cons b bs =>
        obtain rfl := Except.ok.inj h
        exact Query.mem_selects_unionAll.mp hs
  obtain ⟨q', hq', hsq⟩ := hmem
  obtain ⟨r, hr, hrq⟩ := forall₂_mem_right (mapM_eq_ok.mp hb) hq'
  obtain ⟨b, hshape⟩ := finalityBranch_shaped hr hrq
  exact ⟨r, b, hshape s hsq⟩

/-! ## The `SELECT`s of a planned leaf -/

/-- What a `SELECT` of a planned leaf may read. -/
inductive LeafSelect (l : LeafPlan) (s : Select) : Prop
  | noTable (h : ReadsNoTable s)
  | rows (h : ReadsRows l.inputs.ctx.env l.inputs.owner l.inputs.edges l.inputs.conditions s)
      (hbuild : ∃ b, l.emit = .build b)
  | branch (f : FinalityInputs) (r : Realization) (hf : l.emit = .finality f)
      (b : Branch l.inputs.ctx.env f r)
      (h : ReadsRows l.inputs.ctx.env r.source b.edges b.conditions s)

theorem LeafSelect.of_shaped {l : LeafPlan} {b : LeafBuilder} (hbuild : l.emit = .build b)
    {s : Select}
    (h : Shaped l.inputs.ctx.env l.inputs.owner l.inputs.edges l.inputs.conditions s) :
    LeafSelect l s :=
  h.elim .noTable fun hrows => .rows hrows ⟨b, hbuild⟩

/-- The emission of an answered call: the call's own builder, the additive one, or the union of the
finality rule that governs the leaf. -/
theorem leafEmit_eq_ok {ctx : LeafContext} {i : LeafInputs} {o : LeafOptions} {e : Emit}
    (h : leafEmit ctx i o = .ok e) :
    (∃ b, o.builder = some b ∧ e = .build b) ∨ (o.builder = none ∧ e = .build buildAdditive) ∨
      (o.builder = none ∧ ∃ rule timeDim w, activeFinality ctx i o = some (rule, timeDim) ∧
        e = .finality ⟨rule, i.dimensions, i.conditions, w, timeDim, i.owner, ctx.policy.masking,
          ctx.shifts⟩) := by
  unfold leafEmit at h
  split at h
  next b hb => exact .inl ⟨b, hb, (Except.ok.inj h).symm⟩
  next hb _ => exact .inr (.inl ⟨hb, (Except.ok.inj h).symm⟩)
  next rule timeDim hb hact =>
    simp only at h
    split at h
    · simp at h
    next w hw => exact .inr (.inr ⟨hb, rule, timeDim, w, hact, (Except.ok.inj h).symm⟩)

/-- A leaf whose builder, if the call brings one, emits the two shapes. -/
theorem LeafCall.Answered.leafSelect {c : LeafCall} {l : LeafPlan} (ha : c.Answered l)
    (hb : ∀ b, c.options.builder = some b → ∀ ms r (i : LeafInputs), i.owner = c.owner →
      b i ms = .ok r → ∀ s ∈ emittedSelects r, Shaped i.ctx.env i.owner i.edges i.conditions s)
    {ms : List LeafMetric} {pre : String} {r : Query × List AuxCte}
    (hr : l.rebuild ms pre = .ok r) {s : Select} (hs : s ∈ emittedSelects r) : LeafSelect l s := by
  unfold LeafPlan.rebuild buildLeaf at hr
  rcases leafEmit_eq_ok ha.emit with ⟨b, hbuilder, he⟩ | ⟨-, he⟩ | ⟨-, rule, timeDim, w, -, he⟩
  · simp only [he, bind_eq_ok] at hr
    obtain ⟨shifted, -, hr⟩ := hr
    exact .of_shaped he (hb b hbuilder ms r _ (by exact ha.owner_eq) hr s hs)
  · simp only [he, bind_eq_ok] at hr
    obtain ⟨shifted, -, hr⟩ := hr
    exact .of_shaped he (buildAdditive_shapes _ ms r hr s hs)
  · simp only [he, bind_eq_ok, pure_eq_ok] at hr
    obtain ⟨q, hq, rfl⟩ := hr
    obtain ⟨real, b, hshape⟩ := buildFinalityUnion_shaped hq s (by simpa [emittedSelects] using hs)
    exact hshape.elim .noTable fun h => .branch _ real he b h

/-- The events of a conversion are a leaf of the first two shapes. -/
theorem conversionEvents_leafSelect {ctx : LeafContext} {name : String} {side : Side}
    {events : LeafPlan} (h : (conversionEventsCall ctx name side).plan = .ok events) {s : Select}
    (hs : s ∈ events.select.selects) : LeafSelect events s := by
  obtain ⟨ha, hbuilt⟩ := LeafCall.plan_eq_ok h
  refine ha.leafSelect (fun b hb ms r i hi hbr => ?_) hbuilt (List.mem_append_left _ hs)
  obtain rfl := Option.some.inj hb
  exact conversionEventsBuilder_shapes hi hbr

/-- **The `SELECT`s of a leaf**: each is one of the leaf itself, or of the leaf inlined in it. -/
theorem Calls.leafSelect {ctx : LeafContext} {name : String} {b : Binding} {c : LeafCall}
    (h : Calls ctx name b c) {l : LeafPlan} (ha : c.Answered l) {ms : List LeafMetric}
    {pre : String} {r : Query × List AuxCte} (hr : l.rebuild ms pre = .ok r) {s : Select}
    (hs : s ∈ emittedSelects r) :
    LeafSelect l s ∨ ∃ c' l', c.Inlines c' ∧ c'.Answered l' ∧ LeafSelect l' s := by
  have own {builder : LeafBuilder} (hb : c.options.builder = some builder)
      (hshapes : builder.Shapes) : LeafSelect l s := by
    refine ha.leafSelect (fun b hb' ms r i _ hbr => ?_) hr hs
    obtain rfl := Option.some.inj (hb.symm.trans hb')
    exact hshapes i ms r hbr
  have additive (hb : c.options.builder = none) : LeafSelect l s := by
    refine ha.leafSelect (fun b hb' => ?_) hr hs
    simp [hb] at hb'
  induction h with
  | simple => exact .inl (additive rfl)
  | opaque_ => exact .inl (own rfl (opaqueBuilder_shapes _ _))
  | distinctCount | percentile => exact .inl (own rfl (recomputeBuilder_shapes _ _ _ _ _))
  | semiAdditive => exact .inl (own rfl (semiAdditiveBuilder_shapes _ _))
  | cumulative => exact .inl (own rfl (cumulativeBuilder_shapes _ _))
  | rolling => exact .inl (own rfl (buildWindowed_shapes _))
  | component _ hc =>
      cases hc with
      | single => exact .inl (additive rfl)
      | distinctCount => exact .inl (own rfl (recomputeBuilder_shapes _ _ _ _ _))
  | conversions hsides he hm =>
      unfold LeafPlan.rebuild buildLeaf at hr
      obtain ⟨b, hb, hemit⟩ | ⟨hb, -⟩ | ⟨hb, -⟩ := leafEmit_eq_ok ha.emit
      · obtain rfl := Option.some.inj hb
        simp only [hemit, bind_eq_ok] at hr
        obtain ⟨shifted, -, hr⟩ := hr
        rcases buildConversions_shaped hr s hs with hs | hs
        · exact .inl (.of_shaped hemit hs)
        · exact .inr ⟨_, _, .events he, (LeafCall.plan_eq_ok he).1,
            conversionEvents_leafSelect he hs⟩
      · simp [conversionsCall] at hb
      · simp [conversionsCall] at hb
  | base _ ih => exact ih ha own additive
  | offset _ _ ih => exact ih ha own additive
  | derived _ _ ih => exact ih ha own additive

/-! ## The composed statement -/

/-- The `SELECT` is emitted by one of the leaves, rebuilt with some measures. -/
def EmittedBy (leaves : List LeafPlan) (s : Select) : Prop :=
  ∃ l ∈ leaves, ∃ ms pre r, l.rebuild ms pre = .ok r ∧ s ∈ emittedSelects r

theorem serve_keyLeaf (p : Physical) (l : LeafPlan) : (serve p l).keyLeaf = p.keyLeaf := by
  have hadd (cs : List (LeafMetric × String)) :
      ∀ p : Physical, (cs.foldl addColumn p).keyLeaf = p.keyLeaf := by
    induction cs with
    | nil => exact fun _ => rfl
    | cons c cs ih =>
        intro p
        rw [List.foldl_cons, ih]
        unfold addColumn
        split <;> rfl
  exact hadd _ p

/-- The leaf an expression is opened for is one of the fused leaves. -/
theorem fuse_keyLeaf {dedup : Bool} {leaves : List LeafPlan} :
    ∀ p ∈ (fuse dedup leaves).1, p.keyLeaf ∈ leaves := by
  have run : ∀ (ls : List LeafPlan) (f : Fusion), ls ⊆ leaves →
      (∀ p ∈ f.physical, p.1.keyLeaf ∈ leaves) →
      ∀ p ∈ (ls.foldl (fuseLeaf dedup) f).physical, p.1.keyLeaf ∈ leaves := by
    intro ls
    induction ls with
    | nil => exact fun _ _ hf => hf
    | cons l ls ih =>
        intro f hls hf
        have hl : l ∈ leaves := hls (by simp)
        refine ih _ (fun x hx => hls (by simp [hx])) ?_
        unfold fuseLeaf
        split
        · intro p hp
          obtain ⟨k, hk, rfl⟩ := List.mem_iff_getElem.mp hp
          simp only [List.getElem_modify]
          have hmem := hf _ (List.getElem_mem (by simpa using hk))
          split
          · simpa [serve_keyLeaf] using hmem
          · exact hmem
        · intro p hp
          rcases List.mem_append.mp hp with hp | hp
          · exact hf p hp
          · obtain rfl := List.mem_singleton.mp hp
            simpa [serve_keyLeaf] using hl
  intro p hp
  obtain ⟨x, hx, rfl⟩ := List.mem_map.mp hp
  exact run leaves {} (fun _ h => h) (by simp) x hx

theorem nameLeaves_mem {dims : List String} {ps : List Physical} {ownerOf : List Nat} :
    ∀ x ∈ (nameLeaves dims ps ownerOf).leaves, x.2 ∈ ps := by
  intro x hx
  obtain ⟨i, -, hi⟩ := List.mem_filterMap.mp hx
  obtain ⟨p, hp, rfl⟩ := Option.map_eq_some_iff.mp hi
  exact List.mem_of_getElem? hp

theorem unionDistinct_noTable {qs : List Query} (h : ∀ q ∈ qs, ∀ s ∈ q.selects, ReadsNoTable s) :
    ∀ s ∈ (unionDistinct qs).selects, ReadsNoTable s := by
  cases qs with
  | nil => exact readsNoTable_cte (by simp)
  | cons q qs =>
      intro s hs
      obtain ⟨r, hr, hsr⟩ := Query.mem_selects_unionAll.mp hs
      exact h r hr s hsr

theorem dimsFrom_noTable (table : String) (dims : List String) :
    ∀ s ∈ (dimsFrom table dims []).selects, ReadsNoTable s := readsNoTable_one

theorem buildSpine_noTable (dims : List String) (withIsFinal : Bool)
    (leaves : List (String × Physical)) (extra : List String) :
    ∀ s ∈ (buildSpine dims withIsFinal leaves extra).selects, ReadsNoTable s := by
  refine unionDistinct_noTable fun q hq => ?_
  rcases List.mem_append.mp hq with hq | hq
  · obtain ⟨p, -, rfl⟩ := List.mem_map.mp hq
    exact readsNoTable_one
  · obtain ⟨n, -, rfl⟩ := List.mem_map.mp hq
    exact dimsFrom_noTable n dims

theorem buildVisibleSpine_noTable (names : List String) (visible fills : Dict Accumulate)
    (dims : List String) :
    ∀ s ∈ (buildVisibleSpine names visible fills dims).selects, ReadsNoTable s := by
  refine unionDistinct_noTable fun q hq => ?_
  obtain ⟨name, -, hq⟩ := List.mem_flatMap.mp hq
  obtain ⟨source, -, rfl⟩ := List.mem_map.mp hq
  unfold visibleBranch
  split
  · exact dimsFrom_noTable _ _
  · exact readsNoTable_two

theorem outerSelect_noTable (env : Env) (n : Named) (singleCte visibility : Bool)
    (metrics : List MetricPlan) :
    ∀ s ∈ (outerSelect env n singleCte visibility metrics).selects, ReadsNoTable s := by
  refine readsNoTable_cte fun i hi => ?_
  unfold outerFrom at hi
  split at hi
  · simp at hi
  · split at hi
    · obtain rfl := List.mem_singleton.mp hi
      exact ⟨_, rfl⟩
    · split at hi
      · rcases List.mem_cons.mp hi with rfl | hi
        · exact ⟨_, rfl⟩
        · obtain ⟨q, -, rfl⟩ := List.mem_map.mp hi
          exact ⟨_, rfl⟩
      · rcases List.mem_cons.mp hi with rfl | hi
        · exact ⟨_, rfl⟩
        · obtain ⟨q, -, rfl⟩ := List.mem_map.mp hi
          exact ⟨_, rfl⟩

theorem fillObserved_noTable (rank : String) (acc : Accumulate) (dims : List String) :
    ∀ s ∈ (fillObserved rank acc dims).selects, ReadsNoTable s := by
  refine selects_derived (fun _ hs => hs) fun i hi => ?_
  rcases List.mem_pair.mp hi with rfl | rfl
  · exact ⟨_, rfl, readsNoTable_one⟩
  · exact ⟨_, rfl, readsNoTable_one⟩

theorem leafCtes_selects {leaves : List (String × Physical)} {ctes : List (String × Query)}
    {ls : List LeafPlan} (h : leafCtes leaves = .ok ctes)
    (hleaves : ∀ x ∈ leaves, x.2.keyLeaf ∈ ls) :
    ∀ c ∈ ctes, ∀ s ∈ c.2.selects, EmittedBy ls s := by
  simp only [leafCtes, bind_eq_ok, pure_eq_ok] at h
  obtain ⟨parts, hparts, rfl⟩ := h
  intro c hc s hs
  obtain ⟨part, hpart, hc⟩ := List.mem_flatten.mp hc
  obtain ⟨x, hx, hxp⟩ := forall₂_mem_right (mapM_eq_ok.mp hparts) hpart
  simp only [bind_eq_ok, pure_eq_ok] at hxp
  obtain ⟨built, hbuilt, rfl⟩ := hxp
  refine ⟨x.2.keyLeaf, hleaves x hx, _, _, built, hbuilt, ?_⟩
  rcases List.mem_append.mp hc with hc | hc
  · obtain ⟨a, ha, rfl⟩ := List.mem_map.mp hc
    exact List.mem_append_right _ (List.mem_flatMap.mpr ⟨a, ha, hs⟩)
  · obtain rfl := List.mem_singleton.mp hc
    exact List.mem_append_left _ hs

theorem composeStatement_selects {env : Env} {n : Named} {metrics : List MetricPlan}
    {st : Statement} {ls : List LeafPlan} (h : composeStatement env n metrics = .ok st)
    (hleaves : ∀ x ∈ n.leaves, x.2.keyLeaf ∈ ls) :
    ∀ s ∈ st.selects, ReadsNoTable s ∨ EmittedBy ls s := by
  simp only [composeStatement, bind_eq_ok, pure_eq_ok] at h
  obtain ⟨leaves, hl, rfl⟩ := h
  intro s hs
  simp only [Statement.selects, List.mem_append, List.mem_flatMap] at hs
  rcases hs with ⟨c, ((hc | hc) | hc) | hc, hs⟩ | hs
  · exact .inr (leafCtes_selects hl hleaves c hc s hs)
  · obtain ⟨p, -, hc⟩ := hc
    rcases List.mem_pair.mp hc with rfl | rfl
    · exact .inl (readsNoTable_one s hs)
    · exact .inl (fillObserved_noTable _ _ _ s hs)
  · split at hc
    · simp at hc
    · obtain rfl := List.mem_singleton.mp hc
      exact .inl (buildSpine_noTable _ _ _ _ s hs)
  · split at hc
    · simp at hc
    · rcases List.mem_pair.mp hc with rfl | rfl
      · exact .inl (outerSelect_noTable _ _ _ _ _ s hs)
      · exact .inl (buildVisibleSpine_noTable _ _ _ _ s hs)
  · split at hs
    · exact .inl (outerSelect_noTable _ _ _ _ _ s hs)
    · exact .inl (readsNoTable_two s hs)

theorem loneStatement_selects {p : Physical} {st : Statement} {ls : List LeafPlan}
    (h : loneStatement p = .ok st) (hp : p.keyLeaf ∈ ls) : ∀ s ∈ st.selects, EmittedBy ls s := by
  simp only [loneStatement, bind_eq_ok, pure_eq_ok] at h
  obtain ⟨built, hbuilt, rfl⟩ := h
  intro s hs
  refine ⟨p.keyLeaf, hp, _, _, built, hbuilt, ?_⟩
  simp only [Statement.selects, List.flatMap_map, List.mem_append] at hs
  exact List.mem_append.mpr hs.symm

/-- The leaves a statement is composed of: those an expression is opened for, which serves the
leaves of the same identity too. -/
def openers (dedup : Bool) (leaves : List LeafPlan) : List LeafPlan :=
  (fuse dedup leaves).1.map (·.keyLeaf)

theorem mem_of_mem_openers {dedup : Bool} {leaves : List LeafPlan} {l : LeafPlan}
    (h : l ∈ openers dedup leaves) : l ∈ leaves := by
  obtain ⟨p, hp, rfl⟩ := List.mem_map.mp h
  exact fuse_keyLeaf p hp

/-- **The `SELECT`s of a composed statement**: each is emitted by a leaf that an expression is
opened for, or reads no table. -/
theorem compose_emitted {env : Env} {leaves : List LeafPlan} {metrics : List MetricPlan}
    {dedup : Bool} {res : ComposeResult} (h : compose env leaves metrics dedup = .ok res) :
    ∀ s ∈ res.statement.selects, ReadsNoTable s ∨ EmittedBy (openers dedup leaves) s := by
  unfold compose at h
  split at h
  · simp at h
  next l ls =>
    simp only [bind_eq_ok, composeResult, pure_eq_ok] at h
    obtain ⟨_, -, st, hst, _, -, rfl⟩ := h
    have hkey (p : Physical) (hp : p ∈ (fuse dedup (l :: ls)).1) :
        p.keyLeaf ∈ openers dedup (l :: ls) := List.mem_map_of_mem hp
    have named {st : Statement × Nat}
        (hst : (composeStatement env (nameLeaves l.dimNames (fuse dedup (l :: ls)).1
          (fuse dedup (l :: ls)).2) metrics >>= fun s =>
            (pure (s, (fuse dedup (l :: ls)).1.length) : Except Err (Statement × Nat))) = .ok st) :
        ∀ s ∈ st.1.selects, ReadsNoTable s ∨ EmittedBy (openers dedup (l :: ls)) s := by
      simp only [bind_eq_ok, pure_eq_ok] at hst
      obtain ⟨s, hs, rfl⟩ := hst
      exact composeStatement_selects hs fun x hx => hkey _ (nameLeaves_mem x hx)
    unfold physicalStatement at hst
    split at hst
    next p hps =>
      split at hst
      · simp only [bind_eq_ok, pure_eq_ok] at hst
        obtain ⟨s, hs, rfl⟩ := hst
        exact fun x hx => .inr (loneStatement_selects hs (hkey p (by simp [hps])) x hx)
      · exact named hst
    · exact named hst

/-- Each `SELECT` of a composed statement is emitted by a leaf, or reads no table. -/
theorem compose_selects {env : Env} {leaves : List LeafPlan} {metrics : List MetricPlan}
    {dedup : Bool} {res : ComposeResult} (h : compose env leaves metrics dedup = .ok res) :
    ∀ s ∈ res.statement.selects, ReadsNoTable s ∨ EmittedBy leaves s := fun s hs =>
  (compose_emitted h s hs).imp_right fun ⟨l, hl, hrest⟩ => ⟨l, mem_of_mem_openers hl, hrest⟩

end Canonic
