import Mathlib
import Canonic.Compiler.Emitted

set_option autoImplicit false

/-! # Leaf fusion

`_fuse` serves several planned leaves from one common table expression when their keys agree, and
gives each of them a column in it. The key holds the owner, the dimensions, the conditions, the
join path and the parameters of the strategy, rendered to texts, so leaves of one group read the
same rows as far as these decide (`SameRows`). It leaves out the role of each source of a finality
rule, the join behind an alias, and the columns a deduplication without a grain runs over. -/

namespace Canonic

open Sql (Expr)

/-! ## Conditions by what they select -/

/-- Which expressions are `TRUE` of one row, for every row of every database: parentheses and `AND`
have their meaning, and what renders to the same text means the same. -/
structure RowTruth (lib : Lib) where
  holds : Expr → Prop
  paren : ∀ e, holds (.node .paren [e]) ↔ holds e
  and_ : ∀ a b, holds (.node .and [a, b]) ↔ holds a ∧ holds b
  render : ∀ a b, lib.keySql a = lib.keySql b → (holds a ↔ holds b)

namespace RowTruth

variable {lib : Lib} (t : RowTruth lib)

/-- A `WHERE` keeps the row when all of its conditions are `TRUE`. -/
def Keeps (conditions : List Expr) : Prop := ∀ c ∈ conditions, t.holds c

theorem holds_iff_conjuncts (e : Expr) : t.holds e ↔ ∀ c ∈ conjuncts e, t.holds c := by
  fun_induction conjuncts e with
  | case1 args => simp
  | case2 e _ ih => rw [t.paren, ih]
  | case3 a b iha ihb =>
      rw [t.and_, iha, ihb]
      simp only [List.mem_append]
      constructor
      · rintro ⟨ha, hb⟩ c (hc | hc)
        · exact ha c hc
        · exact hb c hc
      · exact fun h => ⟨fun c hc => h c (.inl hc), fun c hc => h c (.inr hc)⟩
  | case4 args => simp [t.paren]
  | case5 e => simp

/-- Lists of conditions with the same conjuncts in the key keep the same rows. -/
theorem keeps_of_filterKey {cs ds : List Expr} (h : filterKey lib cs = filterKey lib ds)
    (hd : t.Keeps ds) : t.Keeps cs := by
  intro c hc
  rw [t.holds_iff_conjuncts]
  intro e he
  have hmem : lib.keySql e ∈ filterKey lib cs :=
    mem_firstById_self.mpr (List.mem_map_of_mem (List.mem_flatMap.mpr ⟨c, hc, he⟩))
  rw [h, filterKey, mem_firstById_self] at hmem
  obtain ⟨e', he', htext⟩ := List.mem_map.mp hmem
  obtain ⟨d, hdmem, hed⟩ := List.mem_flatMap.mp he'
  exact (t.render _ _ htext).mp ((t.holds_iff_conjuncts d).mp (hd d hdmem) e' hed)

theorem keeps_iff_of_filterKey {cs ds : List Expr} (h : filterKey lib cs = filterKey lib ds) :
    t.Keeps cs ↔ t.Keeps ds :=
  ⟨t.keeps_of_filterKey h.symm, t.keeps_of_filterKey h⟩

end RowTruth

/-! ## What a fused leaf reads -/

namespace LeafPlan

/-- Each source of the leaf's finality rule with its role. -/
def roles (l : LeafPlan) : List (String × Role) :=
  match l.emit with
  | .build _ => []
  | .finality f => f.rule.realizations.map fun r => (r.source, r.role)

/-- The watermark of the leaf's finality rule, and the time dimension it is compared with. -/
def gatedAt (l : LeafPlan) : Option (String × String) :=
  match l.emit with
  | .build _ => none
  | .finality f => some (f.watermark.iso, f.timeDim)

/-- How the joins of the leaf are reached: from where, under which alias, on which text. -/
def joinPath (l : LeafPlan) : List (String × String × String) :=
  l.inputs.edges.map fun e => (e.fromAlias, e.alias_, e.onSql)

/-- The declared joins the leaf traverses. -/
def joins (l : LeafPlan) : List Join := l.inputs.edges.map (·.join)

end LeafPlan

/-- Two leaves read the same rows: from the same sources, grouped alike, under conditions that
select the same rows, by the same strategy, and with the same finality. -/
structure SameRows (env : Env) (l l' : LeafPlan) : Prop where
  owner : l.inputs.owner = l'.inputs.owner
  joinPath : l.joinPath = l'.joinPath
  joins : l.joins = l'.joins
  dimensions : l.inputs.dimensions = l'.inputs.dimensions
  dimensionExprs : l.key.dimensionExprs = l'.key.dimensionExprs
  conditions : ∀ t : RowTruth env.lib, t.Keeps l.inputs.conditions ↔ t.Keeps l'.inputs.conditions
  strategy : l.key.strategy = l'.key.strategy
  strategyParams : l.key.strategyParams = l'.key.strategyParams
  gatedAt : l.gatedAt = l'.gatedAt
  roles : ∀ r, r ∈ l.roles ↔ r ∈ l'.roles

/-- The source and measure behind a column. -/
def LeafMetric.reads (m : LeafMetric) : String × Measure := (m.resolved.source, m.resolved.measure)

/-- The raw columns the measures of several metrics read. -/
def rawColumns (env : Env) (ms : List LeafMetric) : List String :=
  ms.flatMap fun m => ((inputColumns env m.resolved.measure).toOption).getD []

/-- A source that declares no grain: its rows are only told apart by all of their columns. -/
def grainless (env : Env) (source : String) : Bool :=
  ((env.sources.get source).map fun s => s.grain.isEmpty).getD false

/-- Whether the joins of a finality branch fan out. -/
def branchFansOut (env : Env) (f : FinalityInputs) (r : Realization) : Bool :=
  let tree := buildAliasTree env.sources r.source
  let edges := do
    let dims ← f.dims.mapM (branchDim env r.source tree)
    branchEdges env r.source tree dims f.conditions
  (edges.toOption.map fansOut).getD false

/-- Whether a `SELECT DISTINCT` over whole rows takes part in the leaf. -/
def LeafPlan.dedupsRows (env : Env) (l : LeafPlan) : Bool :=
  match l.emit with
  | .build _ => l.inputs.fanout && grainless env l.inputs.owner
  | .finality f => f.rule.realizations.any fun r => branchFansOut env f r && grainless env r.source

/-- The metric whose value a column of an expression has. -/
def Physical.carries (p : Physical) (column : String) : Option LeafMetric :=
  (p.columns.zip p.metrics).lookup column

/-- An expression serves a leaf: it reads the leaf's rows, and the leaf's columns in it carry the
leaf's own measures. Where whole rows are deduplicated, they are the rows of the same columns. -/
structure Served (env : Env) (p : Physical) (l : LeafPlan) : Prop where
  rows : SameRows env p.keyLeaf l
  columns : ∀ m ∈ l.metrics, ∃ m', p.carries m.outputAlias = some m' ∧ m'.reads = m.reads
  distinct : l.dedupsRows env = true →
    ∀ c, c ∈ rawColumns env p.metrics ↔ c ∈ rawColumns env l.metrics

/-- Fusion keeps the meaning of every leaf. -/
def FusionSound (env : Env) (leaves : List LeafPlan) : Prop :=
  ∀ (i : Nat) (l : LeafPlan), leaves[i]? = some l → ∃ (k : Nat) (p : Physical),
    (fuse true leaves).2[i]? = some k ∧ (fuse true leaves).1[k]? = some p ∧ Served env p l

/-- Two leaves agree on what the key leaves out. -/
structure FusesAlike (env : Env) (l l' : LeafPlan) : Prop where
  joins : l.joins = l'.joins
  roles : ∀ r, r ∈ l.roles ↔ r ∈ l'.roles
  columns : ∀ m ∈ l.metrics, ∀ m' ∈ l'.metrics, m.outputAlias = m'.outputAlias →
    m.reads = m'.reads
  distinct : l.dedupsRows env = true → rawColumns env l'.metrics ⊆ rawColumns env l.metrics

/-! ## Leaves with the same key -/

/-- What a key says of the plan it was made for. -/
structure LeafKey.Of (i : LeafInputs) (e : Emit) (k : LeafKey) : Prop where
  source : k.source = i.owner
  filters : k.filters = filterKey i.ctx.env.lib i.conditions
  joinPath : k.joinPath = i.edges.map fun e => (e.fromAlias, e.alias_, e.onSql)
  finality : k.finality = (e.metadata.map (·.key)).getD []

theorem LeafCall.Answered.key_of {c : LeafCall} {l : LeafPlan} (h : c.Answered l) :
    LeafKey.Of l.inputs l.emit l.key := by
  have hkey := h.key
  simp only [leafKey, bind_eq_ok, pure_eq_ok] at hkey
  obtain ⟨_, -, _, -, _, -, hk⟩ := hkey
  exact hk ▸ ⟨rfl, rfl, rfl, rfl⟩

theorem fusionKey_eq_of_groupKey {l l' : LeafPlan} (h : l.groupKey = l'.groupKey) :
    l.key.fusionKey = l'.key.fusionKey := by
  unfold LeafPlan.groupKey at h
  split at h <;> split at h <;> simp_all

/-- The requested dimensions of a leaf, resolved from its owner. -/
theorem LeafCall.Answered.resolveDimensions {c : LeafCall} {l : LeafPlan} (h : c.Answered l) :
    resolveDimensions c.ctx.env c.ctx.query.dimensions l.inputs.owner
      (buildAliasTree c.ctx.env.sources l.inputs.owner) = .ok l.inputs.dimensions := by
  obtain ⟨s⟩ := h.scoped
  have hb := s.bound_eq
  simp only [bindNames, bind_eq_ok, pure_eq_ok] at hb
  obtain ⟨_, -, dims, hd, _, -, _, -, hbound⟩ := hb
  rw [s.owner, s.dimensions, ← hbound]
  exact hd

/-- The dimensions of a leaf depend on its owner only. -/
theorem LeafCall.Answered.dimensions_eq {c c' : LeafCall} {l l' : LeafPlan} (h : c.Answered l)
    (h' : c'.Answered l') (henv : c.ctx.env = c'.ctx.env)
    (hdims : c.ctx.query.dimensions = c'.ctx.query.dimensions)
    (howner : l.inputs.owner = l'.inputs.owner) : l.inputs.dimensions = l'.inputs.dimensions := by
  have h1 := h.resolveDimensions
  have h2 := h'.resolveDimensions
  rw [henv, hdims, howner] at h1
  exact Except.ok.inj (h1.symm.trans h2)

/-- The time dimension of a finality leaf is the first requested one. -/
theorem LeafCall.Answered.gatedAt_eq {c : LeafCall} {l : LeafPlan} (h : c.Answered l) :
    l.gatedAt = l.finality.bind fun f => (findTimeDimName c.ctx.env.sources
      (buildAliasTree c.ctx.env.sources l.inputs.owner) l.inputs.dimensions).map
        fun d => (f.watermark, d) := by
  rw [h.finality]
  obtain ⟨s⟩ := h.scoped
  rcases leafEmit_eq_ok h.emit with ⟨b, -, he⟩ | ⟨-, he⟩ | ⟨-, rule, timeDim, w, hact, he⟩
  · simp [LeafPlan.gatedAt, he, Emit.metadata]
  · simp [LeafPlan.gatedAt, he, Emit.metadata]
  · simp only [activeFinality, Option.bind_eq_bind, Option.pure_def, Option.bind_eq_some_iff,
      Option.some.injEq, Prod.mk.injEq] at hact
    obtain ⟨_, -, _, -, d, hd, -, rfl⟩ := hact
    rw [s.tree, LeafCall.tree, ← s.owner] at hd
    simp [LeafPlan.gatedAt, he, Emit.metadata, hd]

/-- The finality part of a key determines the watermark. -/
theorem watermark_eq_of_key {l l' : LeafPlan} (hl : l.finality = l.emit.metadata)
    (hl' : l'.finality = l'.emit.metadata)
    (h : (l.emit.metadata.map (·.key)).getD [] = (l'.emit.metadata.map (·.key)).getD []) :
    l.finality.map (·.watermark) = l'.finality.map (·.watermark) := by
  rw [hl, hl']
  cases hm : l.emit.metadata with
  | none =>
      cases hm' : l'.emit.metadata with
      | none => rfl
      | some f' => simp [hm, hm', FinalityMetadata.key] at h
  | some f =>
      cases hm' : l'.emit.metadata with
      | none => simp [hm, hm', FinalityMetadata.key] at h
      | some f' =>
          simp only [hm, hm', Option.map_some, Option.getD_some, FinalityMetadata.key,
            List.cons_append, List.cons.injEq] at h
          simp [h.1]

/-- **Leaves of one group read the same rows**, once they agree on the joins and the roles. -/
theorem sameRows_of_groupKey {env : Env} {c c' : LeafCall} {l l' : LeafPlan} (h : c.Answered l)
    (h' : c'.Answered l') (henv : c.ctx.env = env) (henv' : c'.ctx.env = env)
    (hdims : c.ctx.query.dimensions = c'.ctx.query.dimensions)
    (hkey : l.groupKey = l'.groupKey) (hjoins : l.joins = l'.joins)
    (hroles : ∀ r, r ∈ l.roles ↔ r ∈ l'.roles) : SameRows env l l' := by
  have hk := fusionKey_eq_of_groupKey hkey
  simp only [LeafKey.fusionKey, LeafKey.mk.injEq] at hk
  obtain ⟨hsource, hstrategy, -, hexprs, hfilters, hpath, hfin, hparams, -⟩ := hk
  have k := h.key_of
  have k' := h'.key_of
  have howner : l.inputs.owner = l'.inputs.owner := by rw [← k.source, hsource, k'.source]
  have hd := h.dimensions_eq h' (henv.trans henv'.symm) hdims howner
  have hlib : l.inputs.ctx.env = env := by rw [h.ctx_eq, henv]
  have hlib' : l'.inputs.ctx.env = env := by rw [h'.ctx_eq, henv']
  refine ⟨howner, ?_, hjoins, hd, hexprs, fun t => ?_, hstrategy, hparams, ?_, hroles⟩
  · rw [LeafPlan.joinPath, ← k.joinPath, hpath, k'.joinPath, LeafPlan.joinPath]
  · refine t.keeps_iff_of_filterKey ?_
    have hf := k.filters
    have hf' := k'.filters
    rw [hlib] at hf
    rw [hlib'] at hf'
    rw [← hf, hfilters, hf']
  · have hw := watermark_eq_of_key h.finality h'.finality (k.finality ▸ k'.finality ▸ hfin)
    rw [h.gatedAt_eq, h'.gatedAt_eq, howner, hd, henv, henv']
    cases hl : l.finality with
    | none =>
        rw [hl, Option.map_none, eq_comm, Option.map_eq_none_iff] at hw
        simp [hw]
    | some f =>
        rw [hl, Option.map_some, eq_comm, Option.map_eq_some_iff] at hw
        obtain ⟨f', hf', hwf⟩ := hw
        simp [hf', hwf]

/-! ## What fusion has built -/

/-- One expression: opened for a leaf seen so far, with distinct columns, each of them a metric of
a leaf of its group. -/
structure Opened (ls : List LeafPlan) (p : Physical) : Prop where
  keyLeaf : p.keyLeaf ∈ ls
  columns : p.columns = p.metrics.map (·.outputAlias)
  nodup : p.columns.Nodup
  metrics : ∀ m ∈ p.metrics, ∃ l ∈ ls, l.groupKey = p.keyLeaf.groupKey ∧ m ∈ l.metrics

/-- The state of fusion after some leaves: the expressions are keyed by their groups, no two of
them by the same one, and each leaf is served by the expression of its group. -/
structure Fused (ls : List LeafPlan) (f : Fusion) : Prop where
  opened : ∀ q ∈ f.physical, q.2 = some q.1.keyLeaf.groupKey ∧ Opened ls q.1
  keys : (f.physical.map (·.2)).Nodup
  length : f.ownerOf.length = ls.length
  served : ∀ (i : Nat) (l : LeafPlan), ls[i]? = some l → ∃ (k : Nat) (p : Physical),
    f.ownerOf[i]? = some k ∧ f.physical[k]? = some (p, some l.groupKey) ∧
      ∀ m ∈ l.metrics, m.outputAlias ∈ p.columns

/-- Adding columns keeps them distinct, each under its metric's own name. -/
theorem addColumns_spec {ms : List LeafMetric} : ∀ {p : Physical},
    p.columns = p.metrics.map (·.outputAlias) → p.columns.Nodup →
    let p' := (ms.zip (ms.map (·.outputAlias))).foldl addColumn p
    p'.columns = p'.metrics.map (·.outputAlias) ∧ p'.columns.Nodup ∧ p.columns ⊆ p'.columns ∧
      (∀ m ∈ ms, m.outputAlias ∈ p'.columns) ∧ ∀ m ∈ p'.metrics, m ∈ p.metrics ∨ m ∈ ms := by
  induction ms with
  | nil => exact fun hc hn => ⟨hc, hn, fun _ h => h, by simp, fun m hm => .inl hm⟩
  | cons m ms ih =>
      intro p hc hn
      simp only [List.map_cons, List.zip_cons_cons, List.foldl_cons]
      by_cases hm : m.outputAlias ∈ p.columns
      · have hadd : addColumn p (m, m.outputAlias) = p := by simp [addColumn, hm]
        rw [hadd]
        obtain ⟨h1, h2, h3, h4, h5⟩ := ih hc hn
        refine ⟨h1, h2, h3, ?_, fun x hx => (h5 x hx).imp id (List.mem_cons_of_mem m)⟩
        rintro x (_ | ⟨_, hx⟩)
        · exact h3 hm
        · exact h4 x hx
      · have hadd : addColumn p (m, m.outputAlias) =
            { p with columns := p.columns ++ [m.outputAlias], metrics := p.metrics ++ [m] } := by
          simp [addColumn, hm]
        rw [hadd]
        obtain ⟨h1, h2, h3, h4, h5⟩ := ih
          (p := { p with columns := p.columns ++ [m.outputAlias], metrics := p.metrics ++ [m] })
          (by simp [hc])
          (by simpa [List.nodup_append, hn] using fun a ha (h : a = m.outputAlias) => hm (h ▸ ha))
        refine ⟨h1, h2, fun x hx => h3 (List.mem_append_left _ hx), ?_, fun x hx => ?_⟩
        · rintro x (_ | ⟨_, hx⟩)
          · exact h3 (by simp)
          · exact h4 x hx
        · rcases h5 x hx with hx | hx
          · rcases List.mem_append.mp hx with hx | hx
            · exact .inl hx
            · exact .inr (by simp_all)
          · exact .inr (List.mem_cons_of_mem m hx)

theorem Opened.mono {ls ls' : List LeafPlan} {p : Physical} (h : Opened ls p) (hs : ls ⊆ ls') :
    Opened ls' p := by
  refine ⟨hs h.keyLeaf, h.columns, h.nodup, fun m hm => ?_⟩
  obtain ⟨l, hl, hk, hml⟩ := h.metrics m hm
  exact ⟨l, hs hl, hk, hml⟩

/-- Serving a leaf of its group keeps an expression well formed, and gives the leaf its columns. -/
theorem serve_spec {ls : List LeafPlan} {p : Physical} {l : LeafPlan}
    (hl : l ∈ ls) (halias : l.measureAliases = l.metrics.map (·.outputAlias))
    (hkey : p.keyLeaf ∈ ls) (hgroup : l.groupKey = p.keyLeaf.groupKey)
    (hc : p.columns = p.metrics.map (·.outputAlias)) (hn : p.columns.Nodup)
    (hm : ∀ m ∈ p.metrics, ∃ l ∈ ls, l.groupKey = p.keyLeaf.groupKey ∧ m ∈ l.metrics) :
    Opened ls (serve p l) ∧ p.columns ⊆ (serve p l).columns ∧
      ∀ m ∈ l.metrics, m.outputAlias ∈ (serve p l).columns := by
  obtain ⟨h1, h2, h3, h4, h5⟩ := @addColumns_spec l.metrics _ hc hn
  rw [← halias] at h1 h2 h3 h4 h5
  refine ⟨⟨by rw [serve_keyLeaf]; exact hkey, h1, h2, fun m hmem => ?_⟩, h3, h4⟩
  rw [serve_keyLeaf]
  rcases h5 m hmem with h | h
  · exact hm m h
  · exact ⟨l, hl, hgroup, h⟩

/-- A key that is open belongs to one expression. -/
theorem indexOf_eq_some {f : Fusion} {key : Bool × LeafKey} {k : Nat}
    (h : f.indexOf key = some k) : ∃ p, f.physical[k]? = some (p, some key) := by
  obtain ⟨hk, hkey, -⟩ := List.findIdx?_eq_some_iff_getElem.mp h
  have hsnd : f.physical[k].2 = some key := by simpa using hkey
  exact ⟨f.physical[k].1, by rw [List.getElem?_eq_getElem hk, ← hsnd]⟩

theorem indexOf_eq_none {f : Fusion} {key : Bool × LeafKey} (h : f.indexOf key = none) :
    some key ∉ f.physical.map (·.2) := by
  intro hmem
  obtain ⟨q, hq, hkey⟩ := List.mem_map.mp hmem
  have := List.findIdx?_eq_none_iff.mp h q hq
  simp [hkey] at this

/-- One leaf more, in a group that is open already. -/
theorem fuseLeaf_open {ls : List LeafPlan} {f : Fusion} {l : LeafPlan} {k : Nat} (hf : Fused ls f)
    (halias : l.measureAliases = l.metrics.map (·.outputAlias))
    (hk : f.indexOf l.groupKey = some k) : Fused (ls ++ [l])
      ⟨f.physical.modify k fun p => (serve p.1 l, p.2), f.ownerOf ++ [k]⟩ := by
  obtain ⟨p, hp⟩ := indexOf_eq_some hk
  obtain ⟨hkeyp, hop⟩ := hf.opened _ (List.mem_of_getElem? hp)
  have hgroup : l.groupKey = p.keyLeaf.groupKey := Option.some.inj hkeyp
  have hsub : ls ⊆ ls ++ [l] := List.subset_append_left _ _
  have hop' := hop.mono hsub
  obtain ⟨hserved, hcols, hnew⟩ := serve_spec (by simp) halias hop'.keyLeaf hgroup hop'.columns
    hop'.nodup hop'.metrics
  -- the expressions after the step: the one of the group is extended, the others are kept
  have hget (j : Nat) (q : Physical) (key : Option (Bool × LeafKey))
      (hq : f.physical[j]? = some (q, key)) : ∃ q', (f.physical.modify k
        fun p => (serve p.1 l, p.2))[j]? = some (q', key) ∧ q.columns ⊆ q'.columns := by
    rw [List.getElem?_modify]
    by_cases hjk : k = j
    · subst hjk
      obtain ⟨rfl, rfl⟩ := Prod.mk.inj (Option.some.inj (hp.symm.trans hq))
      exact ⟨serve p l, by simp [hp], hcols⟩
    · exact ⟨q, by simp [hjk, hq], fun _ h => h⟩
  refine ⟨fun q hq => ?_, ?_, by simp [hf.length], fun i l' hl' => ?_⟩
  · obtain ⟨j, hj⟩ := List.mem_iff_getElem?.mp hq
    rw [List.getElem?_modify] at hj
    split at hj
    next hkj =>
      subst hkj
      obtain rfl : (serve p l, some l.groupKey) = q := by simpa [hp] using hj
      refine ⟨?_, hserved⟩
      simp only [serve_keyLeaf]
      exact hkeyp
    · obtain ⟨hkey, ho⟩ := hf.opened q (List.mem_of_getElem? (by simpa using hj))
      exact ⟨hkey, ho.mono hsub⟩
  · have hsame : (f.physical.modify k fun p => (serve p.1 l, p.2)).map (·.2) =
        f.physical.map (·.2) := by
      refine List.ext_getElem? fun j => ?_
      simp only [List.getElem?_map, List.getElem?_modify]
      split
      · cases f.physical[j]? <;> rfl
      · simp
    rw [hsame]
    exact hf.keys
  · by_cases hi : i < ls.length
    · rw [List.getElem?_append_left hi] at hl'
      obtain ⟨j, q, hj, hq, hcol⟩ := hf.served i l' hl'
      obtain ⟨q', hq', hsubset⟩ := hget j q _ hq
      have hio : i < f.ownerOf.length := hf.length ▸ hi
      exact ⟨j, q', by rw [List.getElem?_append_left hio]; exact hj, hq',
        fun m hm => hsubset (hcol m hm)⟩
    · obtain rfl : i = ls.length := by
        have := (List.getElem?_eq_some_iff.mp hl').1
        simp at this
        omega
      obtain rfl : l' = l := by simpa using hl'.symm
      refine ⟨k, serve p l', by simp [← hf.length], ?_, hnew⟩
      rw [List.getElem?_modify]
      simp [hp]

/-- One leaf more, that opens its group. -/
theorem fuseLeaf_new {ls : List LeafPlan} {f : Fusion} {l : LeafPlan} (hf : Fused ls f)
    (halias : l.measureAliases = l.metrics.map (·.outputAlias))
    (hk : f.indexOf l.groupKey = none) : Fused (ls ++ [l])
      ⟨f.physical ++ [(serve { keyLeaf := l } l, some l.groupKey)],
        f.ownerOf ++ [f.physical.length]⟩ := by
  have hsub : ls ⊆ ls ++ [l] := List.subset_append_left _ _
  obtain ⟨hserved, -, hnew⟩ := @serve_spec (ls ++ [l]) { keyLeaf := l } l (by simp) halias
    (by simp) rfl (by simp) (by simp) (by simp)
  refine ⟨fun q hq => ?_, ?_, by simp [hf.length], fun i l' hl' => ?_⟩
  · rcases List.mem_append.mp hq with hq | hq
    · obtain ⟨hkey, ho⟩ := hf.opened q hq
      exact ⟨hkey, ho.mono hsub⟩
    · obtain rfl := List.mem_singleton.mp hq
      exact ⟨by simp [serve_keyLeaf], hserved⟩
  · rw [List.map_append, List.nodup_append]
    refine ⟨hf.keys, by simp, ?_⟩
    rintro a ha b hb rfl
    obtain rfl : a = some l.groupKey := by simpa using hb
    exact indexOf_eq_none hk ha
  · by_cases hi : i < ls.length
    · rw [List.getElem?_append_left hi] at hl'
      obtain ⟨j, q, hj, hq, hcol⟩ := hf.served i l' hl'
      have hio : i < f.ownerOf.length := hf.length ▸ hi
      have hjp := (List.getElem?_eq_some_iff.mp hq).1
      exact ⟨j, q, by rw [List.getElem?_append_left hio]; exact hj,
        by rw [List.getElem?_append_left hjp]; exact hq, hcol⟩
    · obtain rfl : i = ls.length := by
        have := (List.getElem?_eq_some_iff.mp hl').1
        simp at this
        omega
      obtain rfl : l' = l := by simpa using hl'.symm
      exact ⟨f.physical.length, _, by simp [← hf.length], by simp, hnew⟩

/-- **The run of fusion**: whatever the leaves, each is served by the one expression of its
group. -/
theorem fused_foldl (leaves : List LeafPlan)
    (halias : ∀ l ∈ leaves, l.measureAliases = l.metrics.map (·.outputAlias)) :
    Fused leaves (leaves.foldl (fuseLeaf true) {}) := by
  induction leaves using List.reverseRecOn with
  | nil => exact ⟨by simp, by simp, rfl, by simp⟩
  | append_singleton ls l ih =>
      have hf := ih fun x hx => halias x (by simp [hx])
      have hl := halias l (by simp)
      rw [List.foldl_append, List.foldl_cons, List.foldl_nil]
      unfold fuseLeaf
      split
      next k hk => exact fuseLeaf_open hf hl (by simpa using hk)
      next hk => exact fuseLeaf_new hf hl (by simpa using hk)

/-! ## Soundness -/

/-- The expression that serves a leaf, with everything known of it. -/
theorem fuse_served {leaves : List LeafPlan}
    (halias : ∀ l ∈ leaves, l.measureAliases = l.metrics.map (·.outputAlias)) {i : Nat}
    {l : LeafPlan} (hl : leaves[i]? = some l) :
    ∃ (k : Nat) (p : Physical), (fuse true leaves).2[i]? = some k ∧
      (fuse true leaves).1[k]? = some p ∧ Opened leaves p ∧ p.keyLeaf.groupKey = l.groupKey ∧
        ∀ m ∈ l.metrics, m.outputAlias ∈ p.columns := by
  have hf := fused_foldl leaves halias
  obtain ⟨k, p, hk, hp, hcol⟩ := hf.served i l hl
  obtain ⟨hkey, ho⟩ := hf.opened _ (List.mem_of_getElem? hp)
  exact ⟨k, p, hk, by simp [fuse, hp], ho, (Option.some.inj hkey).symm, hcol⟩

/-- Leaves of one group are served by the same expression. -/
theorem fuse_same_group {leaves : List LeafPlan}
    (halias : ∀ l ∈ leaves, l.measureAliases = l.metrics.map (·.outputAlias)) {i j k k' : Nat}
    {l l' : LeafPlan} (hl : leaves[i]? = some l) (hl' : leaves[j]? = some l')
    (hgroup : l.groupKey = l'.groupKey) (hk : (fuse true leaves).2[i]? = some k)
    (hk' : (fuse true leaves).2[j]? = some k') : k = k' := by
  have hf := fused_foldl leaves halias
  obtain ⟨n, p, hn, hp, -⟩ := hf.served i l hl
  obtain ⟨n', p', hn', hp', -⟩ := hf.served j l' hl'
  obtain rfl : k = n := Option.some.inj (hk.symm.trans hn)
  obtain rfl : k' = n' := Option.some.inj (hk'.symm.trans hn')
  have hlen := (List.getElem?_eq_some_iff.mp hp).1
  refine (List.getElem?_inj (by simpa using hlen) hf.keys).mp ?_
  simp [hp, hp', hgroup]

/-- A column carries the first metric of its name. -/
theorem Opened.carries_eq {ls : List LeafPlan} {p : Physical} (h : Opened ls p) (c : String) :
    p.carries c = p.metrics.find? fun m => c == m.outputAlias := by
  rw [Physical.carries, h.columns]
  induction p.metrics with
  | nil => rfl
  | cons m ms ih =>
      rw [List.map_cons, List.zip_cons_cons, List.lookup_cons, List.find?_cons, ih]

theorem Opened.carries_mem {ls : List LeafPlan} {p : Physical} (h : Opened ls p) {c : String}
    {m : LeafMetric} (hm : p.carries c = some m) : m ∈ p.metrics ∧ c = m.outputAlias := by
  rw [h.carries_eq] at hm
  exact ⟨List.mem_of_find?_eq_some hm, by simpa using List.find?_some hm⟩

theorem Opened.exists_carries {ls : List LeafPlan} {p : Physical} (h : Opened ls p) {c : String}
    (hc : c ∈ p.columns) : ∃ m, p.carries c = some m := by
  rw [h.columns] at hc
  obtain ⟨m, hm, rfl⟩ := List.mem_map.mp hc
  rw [h.carries_eq]
  exact Option.isSome_iff_exists.mp (List.find?_isSome.mpr ⟨m, hm, by simp⟩)

theorem mem_rawColumns {env : Env} {ms : List LeafMetric} {c : String} :
    c ∈ rawColumns env ms ↔
      ∃ m ∈ ms, c ∈ ((inputColumns env m.resolved.measure).toOption).getD [] := by
  simp [rawColumns]

/-- The raw columns of a leaf are among those of an expression that carries its measures. -/
theorem rawColumns_of_carried {env : Env} {ls : List LeafPlan} {p : Physical} {l : LeafPlan}
    (ho : Opened ls p)
    (hcols : ∀ m ∈ l.metrics, ∃ m', p.carries m.outputAlias = some m' ∧ m'.reads = m.reads) :
    rawColumns env l.metrics ⊆ rawColumns env p.metrics := by
  intro c hc
  obtain ⟨m, hm, hcm⟩ := mem_rawColumns.mp hc
  obtain ⟨m', hcar, hreads⟩ := hcols m hm
  have hmeasure : m'.resolved.measure = m.resolved.measure := (Prod.mk.inj hreads).2
  exact mem_rawColumns.mpr ⟨m', (ho.carries_mem hcar).1, by rw [hmeasure]; exact hcm⟩

/-- Leaves that agree on what the key leaves out are served by the expression of their group. -/
theorem served_of_fusesAlike {env : Env} {leaves : List LeafPlan} {p : Physical} {l : LeafPlan}
    (hl : l ∈ leaves) (ho : Opened leaves p) (hkey : p.keyLeaf.groupKey = l.groupKey)
    (hcol : ∀ m ∈ l.metrics, m.outputAlias ∈ p.columns)
    (hrows : ∀ l' ∈ leaves, l'.groupKey = l.groupKey → l'.joins = l.joins →
      (∀ r, r ∈ l'.roles ↔ r ∈ l.roles) → SameRows env l' l)
    (halike : ∀ l ∈ leaves, ∀ l' ∈ leaves, l.groupKey = l'.groupKey → FusesAlike env l l') :
    Served env p l := by
  have hkeyLeaf := halike _ ho.keyLeaf _ hl hkey
  have hcarries : ∀ m ∈ l.metrics,
      ∃ m', p.carries m.outputAlias = some m' ∧ m'.reads = m.reads := by
    intro m hm
    obtain ⟨m', hm'⟩ := ho.exists_carries (hcol m hm)
    obtain ⟨hmem, hname⟩ := ho.carries_mem hm'
    obtain ⟨l', hl', hk', hml'⟩ := ho.metrics m' hmem
    have h := halike l' hl' l hl (hk'.trans hkey)
    exact ⟨m', hm', h.columns m' hml' m hm hname.symm⟩
  refine ⟨hrows _ ho.keyLeaf hkey hkeyLeaf.joins hkeyLeaf.roles, hcarries, fun hd c => ?_⟩
  constructor
  · intro hc
    obtain ⟨m, hm, hcm⟩ := mem_rawColumns.mp hc
    obtain ⟨l', hl', hk', hml'⟩ := ho.metrics m hm
    exact (halike l hl l' hl' (hkey.symm.trans hk'.symm)).distinct hd
      (mem_rawColumns.mpr ⟨m, hml', hcm⟩)
  · exact fun hc => rawColumns_of_carried ho hcarries hc

/-- Leaves that the same expression serves agree on what the key leaves out. -/
theorem fusesAlike_of_served {env : Env} {leaves : List LeafPlan} {p : Physical} {l l' : LeafPlan}
    (ho : Opened leaves p) (h : Served env p l) (h' : Served env p l') : FusesAlike env l l' := by
  refine ⟨h.rows.joins.symm.trans h'.rows.joins,
    fun r => (h.rows.roles r).symm.trans (h'.rows.roles r), fun m hm m' hm' heq => ?_,
    fun hd c hc => ?_⟩
  · obtain ⟨n, hn, hreads⟩ := h.columns m hm
    obtain ⟨n', hn', hreads'⟩ := h'.columns m' hm'
    obtain rfl : n = n' := Option.some.inj (by rw [← hn, heq, hn'])
    exact hreads.symm.trans hreads'
  · exact (h.distinct hd c).mp (rawColumns_of_carried ho h'.columns hc)

/-- The leaves of a plan with the same key read the same rows, but for the joins and the roles. -/
theorem PlannedFrom.sameRows {p : Project} {q : SemanticQuery} {principal : Principal} {plan : Plan}
    (h : PlannedFrom p q principal plan) {l l' : LeafPlan} (hl : l ∈ plan.leaves)
    (hl' : l' ∈ plan.leaves) (hkey : l.groupKey = l'.groupKey) (hjoins : l.joins = l'.joins)
    (hroles : ∀ r, r ∈ l.roles ↔ r ∈ l'.roles) : SameRows plan.ctx.env l l' := by
  obtain ⟨c, ⟨b, hb, hc⟩, ha⟩ := planQuery_calls h hl
  obtain ⟨c', ⟨b', hb', hc'⟩, ha'⟩ := planQuery_calls h hl'
  exact sameRows_of_groupKey ha ha' hc.sameAs.env hc'.sameAs.env
    (hc.dimensions.trans hc'.dimensions.symm) hkey hjoins hroles

theorem PlannedFrom.aliases {p : Project} {q : SemanticQuery} {principal : Principal} {plan : Plan}
    (h : PlannedFrom p q principal plan) :
    ∀ l ∈ plan.leaves, l.measureAliases = l.metrics.map (·.outputAlias) := by
  intro l hl
  obtain ⟨c, -, ha⟩ := planQuery_calls h hl
  exact ha.aliases

/-- Where fusion is sound, leaves of one group agree on what the key leaves out. -/
theorem fusesAlike_of_sound {env : Env} {leaves : List LeafPlan}
    (halias : ∀ l ∈ leaves, l.measureAliases = l.metrics.map (·.outputAlias))
    (hsound : FusionSound env leaves) {l l' : LeafPlan} (hl : l ∈ leaves) (hl' : l' ∈ leaves)
    (hkey : l.groupKey = l'.groupKey) : FusesAlike env l l' := by
  obtain ⟨i, hi⟩ := List.mem_iff_getElem?.mp hl
  obtain ⟨j, hj⟩ := List.mem_iff_getElem?.mp hl'
  obtain ⟨k, p, hk, hp, hs⟩ := hsound i l hi
  obtain ⟨k', p', hk', hp', hs'⟩ := hsound j l' hj
  obtain rfl := fuse_same_group halias hi hj hkey hk hk'
  obtain rfl : p = p' := Option.some.inj (hp.symm.trans hp')
  obtain ⟨n, q, hn, hq, ho, -⟩ := fuse_served halias hi
  obtain rfl : k = n := Option.some.inj (hk.symm.trans hn)
  obtain rfl : p = q := Option.some.inj (hp.symm.trans hq)
  exact fusesAlike_of_served ho hs hs'

/-- **Fusion keeps the meaning of a query's leaves exactly where the leaves of one group agree on
what the key leaves out.** -/
theorem fusionSound_iff {p : Project} {q : SemanticQuery} {principal : Principal} {plan : Plan}
    (h : planQuery p q principal = .ok plan) :
    FusionSound plan.ctx.env plan.leaves ↔ ∀ l ∈ plan.leaves, ∀ l' ∈ plan.leaves,
      l.groupKey = l'.groupKey → FusesAlike plan.ctx.env l l' := by
  have hfrom := planQuery_eq_ok h
  constructor
  · exact fun hsound l hl l' hl' hkey => fusesAlike_of_sound hfrom.aliases hsound hl hl' hkey
  · intro halike i l hi
    have hl := List.mem_of_getElem? hi
    obtain ⟨k, p, hk, hp, ho, hkey, hcol⟩ := fuse_served hfrom.aliases hi
    exact ⟨k, p, hk, hp, served_of_fusesAlike hl ho hkey hcol
      (fun l' hl' hkey hjoins hroles => hfrom.sameRows hl' hl hkey hjoins hroles) halike⟩

/-! ### Two metrics of one ledger -/

private def ledgerTexts : List (String × Expr) :=
  [("SUM(amount)", .node (.agg .sum) [Expr.bare "amount"]),
   ("SUM(fee)", .node (.agg .sum) [Expr.bare "fee"]),
   ("SUM(\"ledger\".\"amount\")", .node (.agg .sum) [Expr.col "amount" "ledger"]),
   ("SUM(\"ledger\".\"fee\")", .node (.agg .sum) [Expr.col "fee" "ledger"]),
   ("\"ledger\".\"day\"", Expr.col "day" "ledger")]

private def booked (name : String) : SemanticSource where
  name := name
  connection := "wh"
  table := name
  columns := [⟨"day", .date, true⟩, ⟨"amount", .decimal, true⟩, ⟨"fee", .decimal, true⟩]
  measures := [{ name := "amount", expr := "SUM(amount)" }, { name := "fee", expr := "SUM(fee)" }]
  dimensions := [{ name := "day", column := some "day" }]
  dimensions_nodup := List.nodup_singleton "day"

/-- Final in one source, provisional in the other. -/
private def finalIn (metric source other : String) : FinalityRule where
  metric := metric
  realizations := [
    { source := source, role := .final, watermark := some "business_day", tz := some "UTC" },
    { source := other, role := .provisional }]
  one_final := by simp

/-- Revenue is final in the ledger; the fees are final in the given source. -/
private def ledgerProject (feesFinalIn other : String) : Project where
  lib := Lib.ofTexts ledgerTexts
  sources := { list := [booked "ledger", booked "staging"] }
  resolver := {
    bindings := [
      { metric := "revenue", canonical := { of := .single "ledger" "amount" } },
      { metric := "fees", canonical := { of := .single "ledger" "fee" } }]
    finality := [finalIn "revenue" "ledger" "staging", finalIn "fees" feesFinalIn other] }

private def bothByDay : SemanticQuery := { metrics := ["revenue", "fees"], dimensions := ["day"] }

/-- The key sorts the sources of a finality rule, so the fees, final in the staging source, are
served by the expression of the revenue, where that source is provisional. -/
theorem fusionSound_counterexample :
    (∃ r, compile (ledgerProject "staging" "ledger") bothByDay {} = .ok r) ∧
      ∃ plan, planQuery (ledgerProject "staging" "ledger") bothByDay {} = .ok plan ∧
        ¬ FusionSound plan.ctx.env plan.leaves := by
  refine ⟨exists_ok_of_isOk (by decide +kernel), ?_⟩
  obtain ⟨plan, hplan, hroles⟩ := exists_ok_of_any
    (x := planQuery (ledgerProject "staging" "ledger") bothByDay {})
    (P := fun plan => plan.leaves.any fun l => plan.leaves.any fun l' =>
      l.groupKey == l'.groupKey && ("ledger", Role.final) ∈ l.roles &&
        ("ledger", Role.final) ∉ l'.roles)
    (by decide +kernel)
  refine ⟨plan, hplan, fun hsound => ?_⟩
  simp only [List.any_eq_true, Bool.and_eq_true, beq_iff_eq, decide_eq_true_eq] at hroles
  obtain ⟨l, hl, l', hl', ⟨hkey, hfinal⟩, hnot⟩ := hroles
  have halike := fusesAlike_of_sound (planQuery_eq_ok hplan).aliases hsound hl hl' hkey
  exact hnot ((halike.roles _).mp hfinal)

/-- With the same roles for both metrics one expression serves them. -/
theorem fusionSound_ledger :
    ∃ plan, planQuery (ledgerProject "ledger" "staging") bothByDay {} = .ok plan ∧
      (fuse true plan.leaves).1.length = 1 ∧ FusionSound plan.ctx.env plan.leaves := by
  obtain ⟨plan, hplan, hok⟩ := exists_ok_of_any
    (x := planQuery (ledgerProject "ledger" "staging") bothByDay {})
    (P := fun plan => (fuse true plan.leaves).1.length == 1 && plan.leaves.all fun l =>
      plan.leaves.all fun l' => l.joins == l'.joins && l.roles == l'.roles &&
        !l.dedupsRows plan.ctx.env && l.metrics.all fun m => l'.metrics.all fun m' =>
          decide (m.outputAlias = m'.outputAlias → m.reads = m'.reads))
    (by decide +kernel)
  simp only [Bool.and_eq_true, beq_iff_eq, List.all_eq_true, Bool.not_eq_true',
    decide_eq_true_eq] at hok
  refine ⟨plan, hplan, hok.1, (fusionSound_iff hplan).mpr fun l hl l' hl' _ => ?_⟩
  obtain ⟨⟨⟨hjoins, hroles⟩, hdedup⟩, hcols⟩ := hok.2 l hl l' hl'
  exact ⟨hjoins, fun r => by rw [hroles], hcols, fun hd => by simp [hdedup] at hd⟩

end Canonic
