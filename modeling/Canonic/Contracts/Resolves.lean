import Canonic.Contracts.Validate

set_option autoImplicit false

/-! # Validated contracts resolve

Validation and resolution read the dependencies of metrics in two ways. Validation follows metric
names only, with the path walked so far; resolution follows names and aliases, with the set of
names seen so far. This file shows that they agree: in a project that validation accepts, every
active name and alias resolves, and the metrics at the leaves read existing sources and measures.

The facts that validation leaves behind are collected in `Validated`; the induction is over the
fuel of the resolver, with the path of the cycle check as its invariant. -/

namespace Canonic

variable {clib : ContractLib} {ss : Sources} {files : ContractFiles} {r : ContractResolver}

/-! ## Names are registered once -/

theorem registerNames_eq_ok {path : String} {names : List String} {seen seen' : Dict String}
    (h : registerNames path seen names = .ok seen') (hnd : (seen.map (·.1)).Nodup) :
    seen'.map (·.1) = seen.map (·.1) ++ names ∧ (seen'.map (·.1)).Nodup := by
  induction names generalizing seen with
  | nil =>
      simp only [registerNames, Except.ok.injEq] at h
      subst h
      exact ⟨by simp, hnd⟩
  | cons name names ih =>
      simp only [registerNames] at h
      split at h
      · simp [reject] at h
      · rename_i hnone
        have hnew : name ∉ seen.map (·.1) := by
          intro hmem
          obtain ⟨v, hv⟩ := Dict.get_isSome_of_mem hmem
          rw [hnone] at hv
          simp at hv
        have hnd' : ((seen ++ [(name, path)]).map (·.1)).Nodup := by
          rw [List.map_append, List.map_singleton, ← List.concat_eq_append]
          exact List.Nodup.concat hnew hnd
        obtain ⟨hkeys, hnodup⟩ := ih h hnd'
        exact ⟨by simpa using hkeys, hnodup⟩

/-- The loader accepts a project only when no active name or alias stands twice. -/
theorem loadMetricBindings_eq_ok {bindings : List MetricBinding}
    (h : loadMetricBindings files = .ok bindings) :
    bindings = files.metrics.map (·.2) ∧
      ((bindings.filter (·.active)).flatMap (·.names)).Nodup := by
  obtain ⟨seen, hfold, hbs⟩ := bind_eq_ok.mp h
  obtain rfl := pure_eq_ok.mp hbs
  refine ⟨rfl, ?_⟩
  have key : ∀ (fs : List (String × MetricBinding)) (seen seen' : Dict String),
      fs.foldlM registerBinding seen = .ok seen' → (seen.map (·.1)).Nodup →
      seen'.map (·.1) = seen.map (·.1) ++
        (((fs.map (·.2)).filter (·.active)).flatMap (·.names)) ∧ (seen'.map (·.1)).Nodup := by
    intro fs
    induction fs with
    | nil =>
        intro seen seen' h hnd
        simp only [List.foldlM_nil, pure_eq_ok] at h
        subst h
        exact ⟨by simp, hnd⟩
    | cons f fs ih =>
        intro seen seen' h hnd
        obtain ⟨mid, hmid, hrest⟩ := foldlM_cons_eq_ok.mp h
        simp only [registerBinding] at hmid
        split at hmid
        · rename_i hact
          obtain ⟨hkeys, hnd'⟩ := registerNames_eq_ok hmid hnd
          obtain ⟨hkeys', hnd''⟩ := ih mid seen' hrest hnd'
          exact ⟨by simp [hkeys', hkeys, hact], hnd''⟩
        · rename_i hact
          obtain rfl := Except.ok.inj hmid
          obtain ⟨hkeys', hnd''⟩ := ih seen seen' hrest hnd
          exact ⟨by simp [hkeys', hact], hnd''⟩
  obtain ⟨hkeys, hnd⟩ := key files.metrics [] seen hfold (by simp)
  simpa [hkeys] using hnd

/-- A name that is registered once has one entry in the index. -/
theorem nameIndex_eq_singleton (hnd : (r.activeBindings.flatMap (·.names)).Nodup)
    {b : MetricBinding} (hb : b ∈ r.activeBindings) {name : String} (hn : name ∈ b.names) :
    r.nameIndex name = [b] := by
  unfold ContractResolver.nameIndex
  generalize r.activeBindings = bs at hnd hb
  induction bs with
  | nil => simp at hb
  | cons c bs ih =>
      simp only [List.flatMap_cons, List.nodup_append] at hnd
      obtain ⟨hc, hrest, hdis⟩ := hnd
      rw [List.flatMap_cons]
      rcases List.mem_cons.mp hb with rfl | hb
      · -- the name is in no other binding
        have hself : b.names.filter (· == name) = [name] :=
          eq_singleton_of_nodup (hc.filter _) (by simp [hn]) (by simp)
        have hothers : (bs.flatMap fun c => (c.names.filter (· == name)).map fun _ => c) = [] := by
          rw [List.flatMap_eq_nil_iff]
          intro c hc'
          have hne : name ∉ c.names := fun hnc =>
            hdis name hn name (List.mem_flatMap.mpr ⟨c, hc', hnc⟩) rfl
          simp only [List.map_eq_nil_iff, List.filter_eq_nil_iff, beq_iff_eq]
          rintro n hnc rfl
          exact hne hnc
        rw [hself, hothers]
        rfl
      · have hne : name ∉ c.names := fun hnc =>
          hdis name hnc name (List.mem_flatMap.mpr ⟨b, hb, hn⟩) rfl
        have hself : c.names.filter (· == name) = [] := by
          simp only [List.filter_eq_nil_iff, beq_iff_eq]
          rintro n hnc rfl
          exact hne hnc
        rw [hself, ih hrest hb]
        rfl

theorem lookupName_of_mem (hnd : (r.activeBindings.flatMap (·.names)).Nodup)
    {b : MetricBinding} (hb : b ∈ r.activeBindings) {name : String} (hn : name ∈ b.names) :
    r.lookupName name = .ok b := by
  simp [ContractResolver.lookupName, nameIndex_eq_singleton hnd hb hn]

/-- Two active bindings that share a name are one. -/
theorem eq_of_shared_name (hnd : (r.activeBindings.flatMap (·.names)).Nodup)
    {b c : MetricBinding} (hb : b ∈ r.activeBindings) (hc : c ∈ r.activeBindings) {name : String}
    (hnb : name ∈ b.names) (hnc : name ∈ c.names) : b = c := by
  have h := nameIndex_eq_singleton hnd hb hnb
  rw [nameIndex_eq_singleton hnd hc hnc] at h
  simpa using h.symm

theorem activeByName_eq_some {bindings : List MetricBinding} {name : String} {b : MetricBinding}
    (h : activeByName bindings name = some b) :
    b ∈ bindings.filter (·.active) ∧ b.metric = name := by
  have hmem := List.mem_of_getLast? h
  simp only [List.mem_filter, Bool.and_eq_true, beq_iff_eq] at hmem
  exact ⟨List.mem_filter.mpr ⟨hmem.1, hmem.2.1⟩, hmem.2.2⟩

/-! ## What validation leaves behind -/

/-- A source-bound metric names an existing source, and an existing measure if it reads one. -/
def LeafBound (ss : Sources) (l : MetricBinding) : Prop :=
  ∃ source s, (Binding.leaf l).source = some source ∧ ss.get source = some s ∧
    ∀ m, (Binding.leaf l).measure = some m → (s.findMeasure m).isSome = true

/-- The facts about the active bindings that resolution rests on. -/
structure Validated (ss : Sources) (r : ContractResolver) : Prop where
  names_nodup : (r.activeBindings.flatMap (·.names)).Nodup
  depends : ∀ b ∈ r.activeBindings, ∀ d ∈ b.canonical.of.dependencyNames,
    ∃ b', activeByName r.bindings d = some b'
  acyclic : ∀ b ∈ r.activeBindings, checkCycleFrom r.bindings b = .ok ()
  bound : ∀ b ∈ r.activeBindings, b.canonical.of.sourceBound.isSome = true → LeafBound ss b

theorem boundSource_eq_ok {b : MetricBinding} {source : String} {s : SemanticSource}
    (h : boundSource ss b source = .ok s) : ss.get source = some s := by
  simp only [boundSource] at h
  split at h
  · rename_i s' hs
    rw [hs, Except.ok.inj h]
  · simp [reject] at h

theorem boundMeasure_eq_ok {b : MetricBinding} {s : SemanticSource} {measure : String}
    {m : Measure} (h : boundMeasure b s measure = .ok m) : s.findMeasure measure = some m := by
  simp only [boundMeasure] at h
  split at h
  · rename_i m' hm
    rw [hm, Except.ok.inj h]
  · simp [reject] at h

theorem requireActive_eq_ok {bindings : List MetricBinding} {b found : MetricBinding}
    {label name : String} (h : requireActive bindings b label name = .ok found) :
    activeByName bindings name = some found := by
  simp only [requireActive] at h
  split at h
  · rename_i b' hb
    rw [hb, Except.ok.inj h]
  · simp [reject] at h

theorem LeafBound.of_measure {b : MetricBinding} {source measure : String} {s : SemanticSource}
    {m : Measure} (hsource : (Binding.leaf b).source = some source)
    (hmeasure : (Binding.leaf b).measure = some measure) (hs : boundSource ss b source = .ok s)
    (hm : boundMeasure b s measure = .ok m) : LeafBound ss b := by
  refine ⟨source, s, hsource, boundSource_eq_ok hs, ?_⟩
  intro m' hm'
  obtain rfl := Option.some.inj (hmeasure.symm.trans hm')
  simp [boundMeasure_eq_ok hm]

theorem LeafBound.of_source {b : MetricBinding} {source : String} {s : SemanticSource}
    (hsource : (Binding.leaf b).source = some source)
    (hmeasure : (Binding.leaf b).measure = none) (hs : boundSource ss b source = .ok s) :
    LeafBound ss b :=
  ⟨source, s, hsource, boundSource_eq_ok hs, by simp [hmeasure]⟩

/-- A source-bound kind that passes its check is bound. -/
theorem validateKind_bound {lib : Lib} {bindings : List MetricBinding} {b : MetricBinding}
    (h : validateKind lib ss bindings b = .ok ())
    (hsrc : b.canonical.of.sourceBound.isSome = true) : LeafBound ss b := by
  simp only [validateKind] at h
  cases hof : b.canonical.of with
  | single source measure =>
      rw [hof] at h
      obtain ⟨s, hs, h⟩ := bind_eq_ok.mp h
      obtain ⟨m, hm, -⟩ := bind_eq_ok.mp h
      exact .of_measure (by simp [Binding.source, hof, CanonicalKind.sourceBound])
        (by simp [Binding.measure, hof]) hs hm
  | semiAdditive source measure dim agg =>
      rw [hof] at h
      obtain ⟨s, hs, h⟩ := bind_eq_ok.mp h
      obtain ⟨m, hm, -⟩ := bind_eq_ok.mp h
      exact .of_measure (by simp [Binding.source, hof, CanonicalKind.sourceBound])
        (by simp [Binding.measure, hof]) hs hm
  | distinctCount source column measure =>
      rw [hof] at h
      obtain ⟨s, hs, -⟩ := bind_eq_ok.mp h
      exact .of_source (by simp [Binding.source, hof, CanonicalKind.sourceBound])
        (by simp [Binding.measure, hof]) hs
  | percentile source column quantile measure =>
      rw [hof] at h
      obtain ⟨s, hs, -⟩ := bind_eq_ok.mp h
      exact .of_source (by simp [Binding.source, hof, CanonicalKind.sourceBound])
        (by simp [Binding.measure, hof]) hs
  | opaque_ source measure grain =>
      rw [hof] at h
      obtain ⟨s, hs, h⟩ := bind_eq_ok.mp h
      obtain ⟨m, hm, -⟩ := bind_eq_ok.mp h
      exact .of_measure (by simp [Binding.source, hof, CanonicalKind.sourceBound])
        (by simp [Binding.measure, hof]) hs hm
  | cumulative source measure frame =>
      rw [hof] at h
      obtain ⟨s, hs, h⟩ := bind_eq_ok.mp h
      obtain ⟨m, hm, -⟩ := bind_eq_ok.mp h
      exact .of_measure (by simp [Binding.source, hof, CanonicalKind.sourceBound])
        (by simp [Binding.measure, hof]) hs hm
  | ratio _ _ | weightedAvg _ _ | offset _ _ _ | derived _ _ | conversion _ _ _ =>
      simp [hof, CanonicalKind.sourceBound] at hsrc

/-- A side of a conversion is an active metric without dependencies; the loop returns early only
where that metric is not bound. -/
theorem validateSide_eq_ok {lib : Lib} {bindings : List MetricBinding} {b : MetricBinding}
    {side : ConversionSide} {type : Option NormalizedType}
    (h : validateSide lib ss bindings b side = .ok type) :
    ∃ found, activeByName bindings side.metric = some found ∧
      found.canonical.of.dependencyNames = [] ∧ found.canonical.of.sourceBound.isSome = true ∧
      (LeafBound ss found → type ≠ none) := by
  obtain ⟨found, hfound, h⟩ := bind_eq_ok.mp h
  refine ⟨found, requireActive_eq_ok hfound, ?_⟩
  -- the check of the columns returns a type or rejects
  have hcolumns : ∀ {s : SemanticSource} {t : Option NormalizedType},
      validateSideColumns b s side = .ok t → t ≠ none := by
    rintro s t ht rfl
    obtain ⟨-, -, ht⟩ := bind_eq_ok.mp ht
    split at ht
    · simp at ht
    · split at ht
      · simp [pure, Except.pure] at ht
      · simp [reject] at ht
  cases hof : found.canonical.of with
  | single source measure =>
      rw [hof] at h
      refine ⟨rfl, rfl, ?_⟩
      rintro ⟨source', s, hsource, hs, hmeasure⟩ hnone
      obtain rfl : source = source' := by
        simpa [Binding.source, hof, CanonicalKind.sourceBound] using hsource
      simp only [hs] at h
      split at h
      · have hm : (s.findMeasure measure).isSome = true :=
          hmeasure measure (by simp [Binding.measure, hof])
        obtain ⟨m, hm⟩ := Option.isSome_iff_exists.mp hm
        simp only [hm] at h
        split at h
        · exact hcolumns h hnone
        · simp [reject] at h
      · exact hcolumns h hnone
  | distinctCount source column measure =>
      rw [hof] at h
      refine ⟨rfl, rfl, ?_⟩
      rintro ⟨source', s, hsource, hs, -⟩ hnone
      obtain rfl : source = source' := by
        simpa [Binding.source, hof, CanonicalKind.sourceBound] using hsource
      simp only [hs] at h
      split at h
      · simp [reject] at h
      · exact hcolumns h hnone
  | semiAdditive _ _ _ _ | percentile _ _ _ _ | opaque_ _ _ _ | cumulative _ _ _ | ratio _ _
  | weightedAvg _ _ | offset _ _ _ | derived _ _ | conversion _ _ _ =>
      rw [hof] at h
      simp [reject] at h

/-! ## From the checks to the facts -/

theorem activeByName_metric (hnd : (r.activeBindings.flatMap (·.names)).Nodup)
    {b : MetricBinding} (hb : b ∈ r.activeBindings) :
    activeByName r.bindings b.metric = some b := by
  have hmem : b ∈ r.bindings.filter fun c => c.active && c.metric == b.metric := by
    have hb' := List.mem_filter.mp hb
    exact List.mem_filter.mpr ⟨hb'.1, by simpa using hb'.2⟩
  obtain ⟨c, hc⟩ : ∃ c, activeByName r.bindings b.metric = some c :=
    Option.isSome_iff_exists.mp (List.getLast?_isSome.mpr (List.ne_nil_of_mem hmem))
  obtain ⟨hact, hname⟩ := activeByName_eq_some hc
  have hshared : b.metric ∈ c.names := by simp [MetricBinding.names, hname]
  have hown : b.metric ∈ b.names := by simp [MetricBinding.names]
  rw [hc, eq_of_shared_name hnd hact hb hshared hown]

/-- A metric that reads metrics without dependencies is on no cycle. -/
theorem checkCycleFrom_of_flat (hnd : (r.activeBindings.flatMap (·.names)).Nodup)
    {b : MetricBinding} (hb : b ∈ r.activeBindings)
    (hflat : ∀ d ∈ b.canonical.of.dependencyNames, ∃ found, activeByName r.bindings d = some found ∧
      found.canonical.of.dependencyNames = []) : checkCycleFrom r.bindings b = .ok () := by
  simp only [checkCycleFrom, checkCompositeCycle, activeByName_metric hnd hb]
  refine forM_ok_of_forall fun d hd => ?_
  obtain ⟨found, hfound, hnil⟩ := hflat d hd
  have hne : d ∉ [b.metric] := by
    intro hself
    obtain rfl := List.mem_singleton.mp hself
    obtain rfl := Option.some.inj (hfound.symm.trans (activeByName_metric hnd hb))
    simp [hnil] at hd
  rw [if_neg hne, hfound]
  simp only [hnil]
  rfl

/-- What the check of a binding's kind says about its dependencies. -/
theorem validateKind_depends {lib : Lib} (hnd : (r.activeBindings.flatMap (·.names)).Nodup)
    (hbound : ∀ b ∈ r.activeBindings, b.canonical.of.sourceBound.isSome = true → LeafBound ss b)
    {b : MetricBinding} (hb : b ∈ r.activeBindings)
    (h : validateKind lib ss r.bindings b = .ok ()) :
    (∀ d ∈ b.canonical.of.dependencyNames, ∃ b', activeByName r.bindings d = some b') ∧
      checkCycleFrom r.bindings b = .ok () := by
  simp only [validateKind] at h
  have hcomposite : ∀ names, names = b.canonical.of.components →
      validateCompositeBinding r.bindings b = .ok () →
      (∀ d ∈ names.map (·.2), ∃ b', activeByName r.bindings d = some b') ∧
        checkCycleFrom r.bindings b = .ok () := by
    rintro names rfl h
    obtain ⟨⟨⟩, hcs, hcycle⟩ := bind_eq_ok.mp h
    refine ⟨?_, hcycle⟩
    intro d hd
    obtain ⟨c, hc, rfl⟩ := List.mem_map.mp hd
    obtain ⟨found, hfound, -⟩ := bind_eq_ok.mp (forM_eq_ok hcs c hc)
    exact ⟨found, requireActive_eq_ok hfound⟩
  cases hof : b.canonical.of with
  | single _ _ | semiAdditive _ _ _ _ | distinctCount _ _ _ | percentile _ _ _ _ | opaque_ _ _ _
  | cumulative _ _ _ =>
      exact ⟨by simp [CanonicalKind.dependencyNames],
        checkCycleFrom_of_flat hnd hb (by simp [hof, CanonicalKind.dependencyNames])⟩
  | ratio num den =>
      rw [hof] at h
      obtain ⟨⟨⟩, h, -⟩ := bind_eq_ok.mp h
      exact hcomposite [("numerator", num), ("denominator", den)]
        (by simp [hof, CanonicalKind.components]) h
  | weightedAvg ws w =>
      rw [hof] at h
      obtain ⟨⟨⟩, h, -⟩ := bind_eq_ok.mp h
      exact hcomposite [("weighted_sum", ws), ("weight", w)]
        (by simp [hof, CanonicalKind.components]) h
  | offset base dim off =>
      rw [hof] at h
      obtain ⟨found, hfound, h⟩ := bind_eq_ok.mp h
      obtain ⟨⟨⟩, hcycle, -⟩ := bind_eq_ok.mp h
      refine ⟨?_, hcycle⟩
      intro d hd
      obtain rfl := List.mem_singleton.mp hd
      exact ⟨found, requireActive_eq_ok hfound⟩
  | derived expr inputs =>
      rw [hof] at h
      obtain ⟨⟨⟩, hinputs, hcycle⟩ := bind_eq_ok.mp h
      refine ⟨?_, hcycle⟩
      intro d hd
      obtain ⟨i, hi, rfl⟩ := List.mem_map.mp hd
      obtain ⟨found, hfound, -⟩ := bind_eq_ok.mp (forM_eq_ok hinputs i hi)
      exact ⟨found, requireActive_eq_ok hfound⟩
  | conversion base conv p =>
      -- the conversion side is only looked at when the base side does not return early, which it
      -- does not, since the base metric passed its own check
      rw [hof] at h
      obtain ⟨baseType, hbase, h⟩ := bind_eq_ok.mp h
      obtain ⟨baseFound, hbaseFound, hbaseFlat, hbaseLeaf, hbaseType⟩ := validateSide_eq_ok hbase
      have hbaseBound := hbound baseFound (activeByName_eq_some hbaseFound).1 hbaseLeaf
      obtain ⟨t, ht⟩ := Option.ne_none_iff_exists'.mp (hbaseType hbaseBound)
      simp only [ht] at h
      obtain ⟨convType, hconv, -⟩ := bind_eq_ok.mp h
      obtain ⟨convFound, hconvFound, hconvFlat, -, -⟩ := validateSide_eq_ok hconv
      have hflat : ∀ d ∈ [base, conv], ∃ found, activeByName r.bindings d = some found ∧
          found.canonical.of.dependencyNames = [] := by
        intro d hd
        rcases List.mem_pair.mp hd with rfl | rfl
        · exact ⟨baseFound, hbaseFound, hbaseFlat⟩
        · exact ⟨convFound, hconvFound, hconvFlat⟩
      refine ⟨?_, checkCycleFrom_of_flat hnd hb (by rw [hof]; exact hflat)⟩
      intro d hd
      obtain ⟨found, hfound, -⟩ := hflat d hd
      exact ⟨found, hfound⟩

theorem validated_of_validateContracts (h : validateContracts clib ss files = .ok ()) :
    Validated ss files.resolver := by
  obtain ⟨bindings, hload, h⟩ := bind_eq_ok.mp h
  obtain ⟨rfl, hnames⟩ := loadMetricBindings_eq_ok hload
  have hnd : (files.resolver.activeBindings.flatMap (·.names)).Nodup := hnames
  obtain ⟨⟨⟩, hbindings, -⟩ := bind_eq_ok.mp h
  have hkind : ∀ b ∈ files.resolver.activeBindings,
      validateKind clib.lib ss files.resolver.bindings b = .ok () := by
    intro b hb
    obtain ⟨hmem, hact⟩ := List.mem_filter.mp hb
    have hone := forM_eq_ok hbindings b hmem
    rw [validateBinding, if_pos hact] at hone
    obtain ⟨⟨⟩, hone, -⟩ := bind_eq_ok.mp hone
    exact hone
  have hbound : ∀ b ∈ files.resolver.activeBindings, b.canonical.of.sourceBound.isSome = true →
      LeafBound ss b := fun b hb => validateKind_bound (hkind b hb)
  exact
    { names_nodup := hnd
      depends := fun b hb => (validateKind_depends hnd hbound hb (hkind b hb)).1
      acyclic := fun b hb => (validateKind_depends hnd hbound hb (hkind b hb)).2
      bound := hbound }

/-! ## Resolution follows the cycle check -/

/-- The leaves of a resolved metric are its own, or those of a metric it is computed from. -/
theorem Binding.leaf_mem_leaves {t : Binding} {l : MetricBinding} (h : .leaf l ∈ t.leaves) :
    t = .leaf l ∨ ∃ c ∈ t.dependencies, .leaf l ∈ c.leaves := by
  have hlist : ∀ ts : List Binding, .leaf l ∈ Binding.leavesList ts →
      ∃ c ∈ ts, .leaf l ∈ c.leaves := by
    intro ts
    induction ts with
    | nil => simp [Binding.leavesList]
    | cons c ts ih =>
        rw [Binding.leavesList, List.mem_append]
        rintro (hc | hts)
        · exact ⟨c, List.mem_cons_self, hc⟩
        · obtain ⟨c', hmem, hc'⟩ := ih hts
          exact ⟨c', List.mem_cons_of_mem c hmem, hc'⟩
  cases t with
  | leaf b => exact .inl (by simpa [Binding.leaves, eq_comm] using h)
  | offset b base dim off => exact .inr ⟨base, by simp [Binding.dependencies], h⟩
  | composite b n d | conversion b n d p =>
      rw [Binding.leaves, List.mem_append] at h
      rcases h with h | h
      · exact .inr ⟨n, by simp [Binding.dependencies], h⟩
      · exact .inr ⟨d, by simp [Binding.dependencies], h⟩
  | derived b e ns inputs =>
      rw [Binding.leaves] at h
      split at h
      · simp at h
      · exact .inr (hlist inputs h)

/-- The names of a path are distinct active metrics, so there are no more of them than bindings. -/
structure ActivePath (r : ContractResolver) (path : List String) : Prop where
  nodup : path.Nodup
  active : ∀ p ∈ path, p ∈ r.activeBindings.map (·.metric)

theorem ActivePath.length_le {path : List String} (h : ActivePath r path) :
    path.length ≤ r.activeBindings.length := by
  have hsub : path.Subperm (r.activeBindings.map (·.metric)) :=
    List.subperm_of_subset h.nodup h.active
  simpa using hsub.length_le

theorem ActivePath.snoc {path : List String} (h : ActivePath r path) {b : MetricBinding}
    (hb : b ∈ r.activeBindings) (hnew : b.metric ∉ path) : ActivePath r (path ++ [b.metric]) := by
  constructor
  · rw [← List.concat_eq_append]
    exact List.Nodup.concat hnew h.nodup
  · intro p hp
    rcases List.mem_append.mp hp with hp | hp
    · exact h.active p hp
    · rw [List.mem_singleton.mp hp]
      exact List.mem_map_of_mem hb

/-- A resolved metric whose leaves all read existing sources and measures. -/
structure ResolvesTo (ss : Sources) (x : Except ResolveFailure Binding) (b : MetricBinding) :
    Prop where
  resolves : ∃ t, x = .ok t ∧ t.binding = b ∧ ∀ l, .leaf l ∈ t.leaves → LeafBound ss l

/-- The resolver at one metric: it succeeds when each component does, and the leaves are bound
when those of the components are. -/
theorem resolveBinding_succ (hv : Validated ss r) {n : Nat} {seen : List String}
    {b : MetricBinding} (hb : b ∈ r.activeBindings)
    (hdep : ∀ d ∈ b.canonical.of.dependencyNames, d ∉ seen ∧ ∃ b',
      r.lookupName d = .ok b' ∧ ResolvesTo ss (r.resolveBinding n (d :: seen) b') b') :
    ResolvesTo ss (r.resolveBinding (n + 1) seen b) b := by
  -- a dependency is not on the path, so it is looked up and resolved with less fuel
  have hcomponent : ∀ d ∈ b.canonical.of.dependencyNames, ∃ t,
      (if d ∈ seen then (.error (.unresolved d) : Except ResolveFailure Binding)
        else (r.lookupName d >>= fun b' => r.resolveBinding n (d :: seen) b')) = .ok t ∧
      ∀ l, .leaf l ∈ t.leaves → LeafBound ss l := by
    intro d hd
    obtain ⟨hseen, b', hlook, t, ht, -, hleaves⟩ := hdep d hd
    exact ⟨t, by rw [if_neg hseen, hlook, ok_bind, ht], hleaves⟩
  have hleaves : ∀ t : Binding, t.binding = b →
      (∀ l, t = .leaf l → l.canonical.of.sourceBound.isSome = true) →
      (∀ c ∈ t.dependencies, ∀ l, .leaf l ∈ c.leaves → LeafBound ss l) →
      ∀ l, .leaf l ∈ t.leaves → LeafBound ss l := by
    intro t ht hown hdeps l hl
    rcases Binding.leaf_mem_leaves hl with rfl | ⟨c, hc, hcl⟩
    · obtain rfl : l = b := ht
      exact hv.bound l hb (hown l rfl)
    · exact hdeps c hc l hcl
  constructor
  rw [ContractResolver.resolveBinding]
  cases hof : b.canonical.of with
  | single _ _ | semiAdditive _ _ _ _ | distinctCount _ _ _ | percentile _ _ _ _ | opaque_ _ _ _
  | cumulative _ _ _ =>
      refine ⟨.leaf b, rfl, rfl, hleaves (.leaf b) rfl ?_ (by simp [Binding.dependencies])⟩
      rintro l ⟨⟩
      simp [hof, CanonicalKind.sourceBound]
  | offset base dim off =>
      rw [hof] at hcomponent
      obtain ⟨t, ht, htl⟩ := hcomponent base (by simp [CanonicalKind.dependencyNames])
      refine ⟨.offset b t dim off, ?_, rfl, hleaves _ rfl (by simp) ?_⟩
      · simp only [ht, ok_bind]
        rfl
      · simpa [Binding.dependencies] using htl
  | derived expr inputs =>
      rw [hof] at hcomponent
      have hinput : ∀ i ∈ inputs, i.metric ∈ (CanonicalKind.derived expr inputs).dependencyNames :=
        fun i hi => List.mem_map_of_mem hi
      obtain ⟨ts, hts⟩ := exists_mapM_eq_ok fun i hi =>
        (hcomponent i.metric (hinput i hi)).imp fun _ h => h.1
      refine ⟨.derived b expr (inputs.map (·.name)) ts, ?_, rfl, hleaves _ rfl (by simp) ?_⟩
      · simp only [hts, ok_bind]
        rfl
      · intro c hc
        obtain ⟨i, hi, hic⟩ := forall₂_mem_right (mapM_eq_ok.mp hts) hc
        obtain ⟨t, ht, htl⟩ := hcomponent i.metric (hinput i hi)
        obtain rfl : c = t := Except.ok.inj (hic.symm.trans ht)
        exact htl
  | conversion base conv p =>
      rw [hof] at hcomponent
      obtain ⟨t, ht, htl⟩ := hcomponent base (by simp [CanonicalKind.dependencyNames])
      obtain ⟨u, hu, hul⟩ := hcomponent conv (by simp [CanonicalKind.dependencyNames])
      refine ⟨.conversion b t u p, ?_, rfl, hleaves _ rfl (by simp) ?_⟩
      · simp only [ht, hu, ok_bind]
        rfl
      · simpa [Binding.dependencies] using ⟨htl, hul⟩
  | ratio num den | weightedAvg num den =>
      rw [hof] at hcomponent
      obtain ⟨t, ht, htl⟩ := hcomponent num (by simp [CanonicalKind.dependencyNames])
      obtain ⟨u, hu, hul⟩ := hcomponent den (by simp [CanonicalKind.dependencyNames])
      refine ⟨.composite b t u, ?_, rfl, hleaves _ rfl (by simp) ?_⟩
      · simp only [ht, hu, ok_bind]
        rfl
      · simpa [Binding.dependencies] using ⟨htl, hul⟩

/-- The cycle check at an active metric: each of its dependencies is off the path, and passes the
check with the path extended by it. -/
theorem checkCompositeCycle_eq_ok (hnd : (r.activeBindings.flatMap (·.names)).Nodup) {m : Nat}
    {b : MetricBinding} (hb : b ∈ r.activeBindings) {path : List String}
    (h : checkCompositeCycle r.bindings (m + 1) b.metric path = .ok ()) :
    ∀ d ∈ b.canonical.of.dependencyNames,
      d ∉ path ∧ checkCompositeCycle r.bindings m d (path ++ [d]) = .ok () := by
  simp only [checkCompositeCycle, activeByName_metric hnd hb] at h
  intro d hd
  have hone := forM_eq_ok h d hd
  split at hone
  · simp [reject] at hone
  · rename_i hpath
    exact ⟨hpath, hone⟩

/-- Resolution succeeds below a metric that the cycle check passed. The path of the check is the
invariant: the names seen by the resolver are on it, or are aliases, which no dependency is. -/
theorem resolveBinding_of_path (hv : Validated ss r) (k : Nat) :
    ∀ {m : Nat} {seen path : List String} {b : MetricBinding}, b ∈ r.activeBindings →
      ActivePath r path → (∀ x ∈ seen, x ∈ path ∨ x ∉ r.activeBindings.map (·.metric)) →
      checkCompositeCycle r.bindings m b.metric path = .ok () →
      r.activeBindings.length < m + path.length → r.activeBindings.length < k + path.length →
      ResolvesTo ss (r.resolveBinding k seen b) b := by
  induction k with
  | zero =>
      intro m seen path b hb hpath hseen hcycle hm hk
      have hle := hpath.length_le
      omega
  | succ k ih =>
      intro m seen path b hb hpath hseen hcycle hm hk
      have hle := hpath.length_le
      obtain ⟨m, rfl⟩ : ∃ m', m = m' + 1 := Nat.exists_eq_succ_of_ne_zero (by omega)
      refine resolveBinding_succ hv hb fun d hd => ?_
      obtain ⟨hnew, hcycle'⟩ := checkCompositeCycle_eq_ok hv.names_nodup hb hcycle d hd
      obtain ⟨b', hb'⟩ := hv.depends b hb d hd
      obtain ⟨hact, rfl⟩ := activeByName_eq_some hb'
      have hmetric : b'.metric ∈ r.activeBindings.map (·.metric) := List.mem_map_of_mem hact
      have hunseen : b'.metric ∉ seen := fun hs =>
        (hseen b'.metric hs).elim hnew fun hno => hno hmetric
      have hlook : r.lookupName b'.metric = .ok b' :=
        lookupName_of_mem hv.names_nodup hact (by simp [MetricBinding.names])
      refine ⟨hunseen, b', hlook, ih hact (hpath.snoc hact hnew) ?_ hcycle' ?_ ?_⟩
      · intro x hx
        rcases List.mem_cons.mp hx with rfl | hx
        · exact .inl (by simp)
        · exact (hseen x hx).imp (fun h => by simp [h]) id
      · simp only [List.length_append, List.length_singleton]
        omega
      · simp only [List.length_append, List.length_singleton]
        omega

theorem length_activeBindings_le (r : ContractResolver) :
    r.activeBindings.length ≤ r.nameCount := by
  unfold ContractResolver.nameCount
  have hsum := List.length_le_sum_of_one_le (r.activeBindings.map fun b => b.names.length) (by
    intro n hn
    obtain ⟨b, -, rfl⟩ := List.mem_map.mp hn
    simp [MetricBinding.names])
  simpa using hsum

/-- In a project that validation accepts, every name and alias of an active metric resolves to the
binding that declares it, and the metrics at its leaves read existing sources and measures. -/
theorem validated_resolves (h : validateContracts clib ss files = .ok ()) {b : MetricBinding}
    (hb : b ∈ files.resolver.activeBindings) {name : String} (hn : name ∈ b.names) :
    ∃ t, files.resolver.resolveMetric name = .ok t ∧ t.binding = b ∧
      ∀ l, .leaf l ∈ t.leaves → LeafBound ss l := by
  have hv := validated_of_validateContracts h
  have hpath : ActivePath files.resolver [b.metric] :=
    ⟨List.nodup_singleton _, fun p hp => by
      rw [List.mem_singleton.mp hp]
      exact List.mem_map_of_mem hb⟩
  have hseen : ∀ x ∈ [name],
      x ∈ [b.metric] ∨ x ∉ files.resolver.activeBindings.map (·.metric) := by
    intro x hx
    obtain rfl := List.mem_singleton.mp hx
    by_cases hown : x = b.metric
    · exact .inl (by simp [hown])
    · -- an alias is no other metric's name either
      refine .inr fun hother => hown ?_
      obtain ⟨c, hc, rfl⟩ := List.mem_map.mp hother
      rw [eq_of_shared_name hv.names_nodup hc hb (by simp [MetricBinding.names]) hn]
  have hactive : files.resolver.activeBindings.length ≤ files.resolver.bindings.length :=
    List.length_filter_le _ _
  have hnames := length_activeBindings_le files.resolver
  have hroot := resolveBinding_of_path hv (files.resolver.nameCount + 1) hb hpath hseen
    (hv.acyclic b hb) (by simp; omega) (by simp; omega)
  rw [ContractResolver.resolveMetric, lookupName_of_mem hv.names_nodup hb hn, ok_bind]
  exact hroot.resolves

/-! ### A ratio with an alias, and a metric derived from it -/

private def tours : SemanticSource where
  name := "tours"
  connection := "wh"
  table := "tours"
  columns := [⟨"price", .decimal, true⟩, ⟨"guest", .string, true⟩]
  measures := [{ name := "price", expr := "SUM(price)" }]
  measures_nodup := List.nodup_singleton "price"

private def tourFiles : ContractFiles where
  metrics :=
    [("contracts/metrics/spend.yaml",
        { metric := "spend", canonical := { of := .single "tours" "price" } }),
     ("contracts/metrics/guests.yaml",
        { metric := "guests", canonical := { of := .distinctCount "tours" "guest" none } }),
     ("contracts/metrics/spend_per_guest.yaml",
        { metric := "spend_per_guest", canonical := { of := .ratio "spend" "guests" },
          aliases := ["spg"] }),
     ("contracts/metrics/doubled.yaml",
        { metric := "doubled",
          canonical := { of := .derived "x * 2" [⟨"spend_per_guest", some "x"⟩] },
          aliases := ["twice"] })]

private def tourLib : ContractLib where
  lib := Lib.ofTexts [("SUM(price)", .node (.agg .sum) [Sql.Expr.bare "price"])]
  py := PyLib.plain
  knownZone _ := true
  isWatermark _ := true

/-- The derived metric resolves by its alias, through the ratio, to two metrics on the tours. -/
theorem validated_resolves_tours :
    ∃ t, tourFiles.resolver.resolveMetric "twice" = .ok t ∧ t.metric = "doubled" ∧
      t.leaves.length = 2 ∧ ∀ l, .leaf l ∈ t.leaves → LeafBound { list := [tours] } l := by
  have hvalid : validateContracts tourLib { list := [tours] } tourFiles = .ok () := by
    decide +kernel
  obtain ⟨b, hb, hn, hmetric⟩ : ∃ b ∈ tourFiles.resolver.activeBindings,
      "twice" ∈ b.names ∧ b.metric = "doubled" := by decide +kernel
  obtain ⟨t, ht, rfl, hleaves⟩ := validated_resolves hvalid hb hn
  obtain ⟨t', ht', hlen⟩ : ∃ t, tourFiles.resolver.resolveMetric "twice" = .ok t ∧
      (t.leaves.length == 2) = true := exists_ok_of_any (by decide +kernel)
  obtain rfl := Except.ok.inj (ht.symm.trans ht')
  exact ⟨t, ht, hmetric, by simpa using hlen, hleaves⟩

end Canonic
