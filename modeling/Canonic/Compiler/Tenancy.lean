import Canonic.Sql.Traverse
import Canonic.Compiler.Emitted
import Canonic.Compiler.JoinTree

set_option autoImplicit false

/-! # Tenant predicates

Every scan of a scoped source should be restricted to the caller's tenants on its own alias. The
predicates are built once for a leaf, one for each alias it joins, with the source of an alias
taken from the alias tree. They reach every `SELECT` of the leaf. Two things can go wrong: a
join may read another source than the alias tree records, and a finality branch may read sources
that the owner's leaf does not. `TenancyAgrees` excludes both, and is enough. -/

namespace Canonic

open Sql (Expr Select Statement)

/-- The tenancy policy scopes a source on a column. -/
def ContractResolver.ScopedOn (r : ContractResolver) (source column : String) : Prop :=
  ∃ rule, r.tenancyFor source = .scopeRule rule column

/-- A conjunct restricts a column of an alias to the tenants, as literals of some column type. -/
def Restricted (tenants : List TenantValue) (alias_ column : String) (where_ : List Expr) : Prop :=
  ∃ type place values, tenantLiterals tenants type place = .ok values ∧
    tenantPredicate alias_ column values ∈ where_

/-- Every scan of a scoped source is restricted, on its own alias and the source's own scope
column, in the `WHERE` of the `SELECT` it stands in. -/
def TenancyComplete (r : ContractResolver) (tenants : List TenantValue) (st : Statement) : Prop :=
  ∀ s ∈ st.selects, ∀ scan ∈ s.scans, ∀ column, r.ScopedOn scan.1 column →
    Restricted tenants scan.2.2 column s.where_

/-- A scoped source is declared with its column. -/
theorem ContractResolver.ScopedOn.mem {r : ContractResolver} {source column : String}
    (h : r.ScopedOn source column) :
    ∃ t, r.tenancy = some t ∧ ⟨source, column⟩ ∈ t.scopedSources := by
  obtain ⟨rule, h⟩ := h
  unfold ContractResolver.tenancyFor at h
  split at h
  · simp at h
  next t ht =>
    split at h
    next x hx =>
      obtain ⟨-, hcol⟩ := ScopeResolution.scopeRule.inj h
      have hmem := List.mem_filter.mp (List.mem_of_getLast? hx)
      have hsrc : x.source = source := by simpa using hmem.2
      exact ⟨t, ht, by rw [← hsrc, ← hcol]; exact hmem.1⟩
    · split at h <;> simp at h

theorem Restricted.mono {tenants : List TenantValue} {alias_ column : String} {w w' : List Expr}
    (h : Restricted tenants alias_ column w) (hw : ∀ e ∈ w, e ∈ w') :
    Restricted tenants alias_ column w' := by
  obtain ⟨type, place, values, hv, hmem⟩ := h
  exact ⟨type, place, values, hv, hw _ hmem⟩

/-! ## The predicates of a leaf -/

theorem conditions_foldl_append (parts : List TenantScoping) :
    ∀ acc, (parts.foldl TenantScoping.append acc).conditions =
      acc.conditions ++ parts.flatMap (·.conditions) := by
  induction parts with
  | nil => simp
  | cons p parts ih =>
      intro acc
      simp [ih, TenantScoping.append]

/-- An alias whose source is scoped has its predicate among those of the leaf. -/
theorem tenantConditions_restricted {r : ContractResolver} {owner : String}
    {edges : List JoinEdge} {tree : Dict String} {tenants : List TenantValue}
    {policy : EffectivePolicy} {ss : Sources} {t : TenantScoping}
    (h : tenantConditions r owner edges tree tenants policy ss = .ok t)
    (hexempt : policy.tenancyExempt = false) (htenants : tenants ≠ []) {a column : String}
    (ha : a ∈ owner :: aliasesOf edges) (hs : r.ScopedOn (tree.getD a a) column) :
    Restricted tenants a column t.conditions := by
  simp only [tenantConditions, hexempt, Bool.false_eq_true, if_false, bind_eq_ok,
    pure_eq_ok] at h
  obtain ⟨parts, hparts, rfl⟩ := h
  obtain ⟨part, hpart, hp⟩ := forall₂_mem_left (mapM_eq_ok.mp hparts) ha
  obtain ⟨rule, hrule⟩ := hs
  have hempty : tenants.isEmpty = false := by simpa using htenants
  simp only [tenantAlias, hrule, hempty, Bool.false_eq_true, if_false, bind_eq_ok,
    pure_eq_ok] at hp
  obtain ⟨values, hv, rfl⟩ := hp
  refine ⟨_, _, values, hv, ?_⟩
  rw [conditions_foldl_append]
  exact List.mem_append_right _ (List.mem_flatMap.mpr ⟨_, hpart, by simp⟩)

/-- A tenant predicate reads one column. -/
theorem mem_columns_tenantPredicate {a column : String} {values : List TenantValue}
    {c : Sql.Column} (h : c ∈ (tenantPredicate a column values).columns) : c = ⟨"", a, column⟩ := by
  have hlit (v : TenantValue) : c ∉ v.literal.columns := by
    cases v with
    | int n =>
        simp only [TenantValue.literal, intLiteral]
        split <;> simp [Expr.call, Expr.number]
    | str s => simp [TenantValue.literal, Expr.string]
  unfold tenantPredicate at h
  split at h
  · simpa [Expr.mkEq, Expr.col, hlit] using h
  · simpa [Expr.col, hlit] using h

theorem requalify_literal (v : TenantValue) (o n : String) :
    requalifySource v.literal o n = v.literal := by
  cases v with
  | int k =>
      simp only [TenantValue.literal, intLiteral]
      split <;> simp [requalifySource, Expr.call, Expr.number]
  | str s => simp [requalifySource, TenantValue.literal, Expr.string]

/-- The predicate of the owner becomes the predicate of a realization. -/
theorem requalify_tenantPredicate (o n column : String) (values : List TenantValue) :
    requalifySource (tenantPredicate o column values) o n = tenantPredicate n column values := by
  have hlit (v : TenantValue) : v.literal.mapColumns (fun c =>
      if c.table = o then Expr.col c.name n else .column c) = v.literal := requalify_literal v o n
  have hcol : (Expr.col column o).mapColumns (fun c =>
      if c.table = o then Expr.col c.name n else .column c) = Expr.col column n := by
    simp [Expr.col]
  unfold tenantPredicate
  split
  · simp [requalifySource, Expr.mkEq, hlit, hcol]
  · simp [requalifySource, hlit, hcol]

/-- The predicate of a join stays as it is. -/
theorem requalify_tenantPredicate_of_ne {a o : String} (h : a ≠ o) (n column : String)
    (values : List TenantValue) :
    requalifySource (tenantPredicate a column values) o n = tenantPredicate a column values := by
  refine Expr.mapColumns_id fun c hc => ?_
  rw [mem_columns_tenantPredicate hc, if_neg h]

/-! ## When the predicates cover every scan -/

/-- The scoped sources a leaf reads are those its predicates were built for: a join reads a source
with the scope column of the source its alias stands for, a realization has the scope column of the
owner, and a scoped source that a branch joins is joined by the owner's leaf under the same
alias. -/
structure TenancyAgrees (o : LeafOptions) (i : LeafInputs) : Prop where
  joins : ∀ e ∈ i.edges, ∀ column, i.ctx.resolver.ScopedOn e.join.to_ column →
    i.ctx.resolver.ScopedOn (i.tree.getD e.alias_ e.alias_) column
  realizations : ∀ f, leafEmit i.ctx i o = .ok (.finality f) → ∀ r ∈ f.rule.realizations,
    ∀ column, i.ctx.resolver.ScopedOn r.source column → i.ctx.resolver.ScopedOn i.owner column
  branches : ∀ f r, leafEmit i.ctx i o = .ok (.finality f) → ∀ b : Branch i.ctx.env f r,
    ∀ e ∈ b.edges, ∀ column, i.ctx.resolver.ScopedOn e.join.to_ column →
      e.alias_ ∈ aliasesOf i.edges ∧
        i.ctx.resolver.ScopedOn (i.tree.getD e.alias_ e.alias_) column

/-- The condition for every call behind a query. -/
def TenancyCovered (p : Project) (q : SemanticQuery) (principal : Principal) : Prop :=
  ∀ plan, planQuery p q principal = .ok plan → ∀ c, plan.Reads c →
    ∀ s, scopeLeaf c.ctx c.owner c.metrics = .ok s → TenancyAgrees c.options s.inputs

/-- The joins of a leaf never come back to its owner. -/
theorem LeafCall.Scoped.alias_ne_owner {c : LeafCall} {i : LeafInputs} (s : c.Scoped i)
    {a : String} (ha : a ∈ aliasesOf i.edges) : a ≠ c.owner := by
  rintro rfl
  exact (List.nodup_cons.mp (planJoins_tree s.edges_eq).once).1 ha

/-- A leaf that agrees restricts every scan of every `SELECT` it emits. -/
theorem restricted_of_leafSelect {c : LeafCall} {l : LeafPlan} (ha : c.Answered l)
    (hexempt : l.inputs.ctx.policy.tenancyExempt = false)
    (htenants : l.inputs.ctx.principal.tenants ≠ []) (hagree : TenancyAgrees c.options l.inputs)
    {s : Select} (hs : LeafSelect l s) {scan : String × String × String} (hscan : scan ∈ s.scans)
    {column : String} (hcol : l.inputs.ctx.resolver.ScopedOn scan.1 column) :
    Restricted l.inputs.ctx.principal.tenants scan.2.2 column s.where_ := by
  obtain ⟨sc⟩ := ha.scoped
  have htree : l.inputs.tree.getD l.inputs.owner l.inputs.owner = l.inputs.owner := by
    rw [sc.tree, sc.owner]
    simp [Dict.getD, LeafCall.tree, buildAliasTree_owner]
  -- the predicates of the leaf are among its conditions
  have own {a : String} (hmem : a = l.inputs.owner ∨ a ∈ aliasesOf l.inputs.edges)
      (hs : l.inputs.ctx.resolver.ScopedOn (l.inputs.tree.getD a a) column) :
      Restricted l.inputs.ctx.principal.tenants a column l.inputs.conditions := by
    rw [sc.ctx] at hexempt htenants hs ⊢
    rw [sc.tree] at hs
    rw [sc.owner] at hmem
    refine (tenantConditions_restricted sc.tenancy_eq hexempt htenants
      (List.mem_cons.mpr hmem) hs).mono fun e he => ?_
    rw [sc.conditions]
    simp [he]
  cases hs with
  | noTable h =>
      rw [h] at hscan
      simp at hscan
  | rows h =>
      rcases h.mem_scans hscan with ⟨hsrc, hal⟩ | ⟨e, he, hsrc, hal⟩
      · rw [hal]
        refine (own (.inl rfl) ?_).mono h.where_
        rwa [htree, ← hsrc]
      · rw [hal]
        refine (own (.inr (List.mem_map_of_mem he)) ?_).mono h.where_
        exact hagree.joins e he column (hsrc ▸ hcol)
  | branch f r hf b h =>
      have hemit : leafEmit l.inputs.ctx l.inputs c.options = .ok (.finality f) := by
        rw [sc.ctx, ha.emit, hf]
      have hparts : f.conditions = l.inputs.conditions ∧ f.owner = l.inputs.owner := by
        rcases leafEmit_eq_ok hemit with ⟨_, -, h⟩ | ⟨-, h⟩ | ⟨-, _, _, _, -, h⟩
        · simp at h
        · simp at h
        · obtain rfl := Emit.finality.inj h
          exact ⟨rfl, rfl⟩
      -- a requalified predicate of the leaf is a conjunct of the branch
      have requalified {a a' : String}
          (hr : Restricted l.inputs.ctx.principal.tenants a column l.inputs.conditions)
          (heq : ∀ values, requalifySource (tenantPredicate a column values) l.inputs.owner
            r.source = tenantPredicate a' column values) :
          Restricted l.inputs.ctx.principal.tenants a' column s.where_ := by
        obtain ⟨type, place, values, hv, hmem⟩ := hr
        refine ⟨type, place, values, hv, h.where_ _ ?_⟩
        rw [Branch.conditions, hparts.1, hparts.2]
        exact List.mem_append_left _ (List.mem_map.mpr ⟨_, hmem, heq values⟩)
      rcases h.mem_scans hscan with ⟨hsrc, hal⟩ | ⟨e, he, hsrc, hal⟩
      · rw [hal]
        have hown := hagree.realizations f hemit r b.mem column (hsrc ▸ hcol)
        exact requalified (own (.inl rfl) (htree.symm ▸ hown))
          (requalify_tenantPredicate _ _ _)
      · rw [hal]
        obtain ⟨hjoined, hscope⟩ := hagree.branches f r hemit b e he column (hsrc ▸ hcol)
        have hne : e.alias_ ≠ l.inputs.owner := sc.owner ▸ sc.alias_ne_owner hjoined
        exact requalified (own (.inr hjoined) hscope) (requalify_tenantPredicate_of_ne hne _ _)

/-- **Tenancy is complete** where the predicates cover every scan: for a principal with tenants
that is not exempt, no scan of a scoped source in the compiled statement is left unrestricted. -/
theorem compile_tenancyComplete {p : Project} {q : SemanticQuery} {principal : Principal}
    {dedup : Bool} {r : CompileResult} (h : compile p q principal dedup = .ok r)
    (htenants : principal.tenants ≠ [])
    (hexempt : (p.resolver.authzFor principal).tenancyExempt = false)
    (hcov : TenancyCovered p q principal) :
    TenancyComplete p.resolver principal.tenants r.statement := by
  obtain ⟨plan, hplan, composed, hcomposed, hst⟩ := compile_eq_ok h
  have hfrom := planQuery_eq_ok hplan
  -- one leaf, of the plan or inlined in it
  have leaf {c : LeafCall} {l : LeafPlan} (hc : plan.Reads c) (hsame : c.ctx.SameAs plan.ctx)
      (ha : c.Answered l) {s : Select} (hs : LeafSelect l s) :
      ∀ scan ∈ s.scans, ∀ column, p.resolver.ScopedOn scan.1 column →
        Restricted principal.tenants scan.2.2 column s.where_ := by
    intro scan hscan column hcol
    obtain ⟨scope, hscope, hi⟩ := ha.scope
    have hagree := hcov plan hplan c hc scope hscope
    rw [← hi] at hagree
    have hctx := ha.ctx_eq
    have hr : l.inputs.ctx.resolver = p.resolver := by
      rw [hctx, hsame.resolver, hfrom.resolver]
    have hp : l.inputs.ctx.principal = principal := by rw [hctx, hsame.principal, hfrom.caller]
    have hpol : l.inputs.ctx.policy = p.resolver.authzFor principal := by
      rw [hctx, hsame.policy, hfrom.policy]
    have := restricted_of_leafSelect ha (by rw [hpol, hexempt]) (by rw [hp]; exact htenants)
      hagree hs hscan (hr.symm ▸ hcol)
    rwa [hp] at this
  intro s hs
  rw [hst] at hs
  rcases compose_selects hcomposed s hs with hno | ⟨l, hl, ms, pre, built, hbuilt, hsb⟩
  · intro scan hscan
    rw [hno] at hscan
    simp at hscan
  · obtain ⟨c, hc, ha⟩ := planQuery_calls hfrom hl
    obtain ⟨b, hb, hcalls⟩ := hc
    rcases hcalls.leafSelect ha hbuilt hsb with hsel | ⟨c', l', hin, ha', hsel⟩
    · exact leaf (.inl ⟨b, hb, hcalls⟩) hcalls.sameAs ha hsel
    · exact leaf (.inr ⟨c, ⟨b, hb, hcalls⟩, hin⟩) (hin.sameAs.trans hcalls.sameAs) ha' hsel

/-! ### Closed and open sales -/

private def salesTexts : List (String × Expr) :=
  [("SUM(amount)", .node (.agg .sum) [Expr.bare "amount"])]

private def sales (name : String) : SemanticSource where
  name := name
  connection := "wh"
  table := name
  columns := [⟨"day", .date, true⟩, ⟨"tenant_id", .int, true⟩, ⟨"amount", .decimal, true⟩]
  measures := [{ name := "amount", expr := "SUM(amount)" }]
  dimensions := [{ name := "day", column := some "day" }]
  measures_nodup := List.nodup_singleton "amount"
  dimensions_nodup := List.nodup_singleton "day"

private def salesRealizations : List Realization :=
  [{ source := "closed_sales", role := .final, watermark := some "business_day", tz := some "UTC" },
   { source := "open_sales", role := .provisional }]

/-- Revenue is final in the closed sales and provisional in the open ones. -/
private def salesProject (tenancy : TenancyPolicy) : Project where
  lib := Lib.ofTexts salesTexts
  sources := { list := [sales "closed_sales", sales "open_sales"] }
  resolver := {
    bindings := [{ metric := "revenue", canonical := { of := .single "closed_sales" "amount" } }]
    finality := [{ metric := "revenue", realizations := salesRealizations }]
    tenancy := some tenancy }

private def revenueByDay : SemanticQuery := { metrics := ["revenue"], dimensions := ["day"] }

private def tenantSeven : Principal := { tenants := [.int 7] }

/-- Only the open sales are scoped. -/
private def openScoped : TenancyPolicy :=
  { scopedSources := [⟨"open_sales", "tenant_id"⟩], sharedSources := ["closed_sales"] }

/-- Both sources are scoped on the same column. -/
private def bothScoped : TenancyPolicy :=
  { scopedSources := [⟨"closed_sales", "tenant_id"⟩, ⟨"open_sales", "tenant_id"⟩] }

/-- The owner of the metric is tenant-neutral, so no predicate is built, and the branch over the
scoped open sales reads them unrestricted. -/
theorem compile_tenancyComplete_counterexample :
    ∃ r, compile (salesProject openScoped) revenueByDay tenantSeven = .ok r ∧
      ((salesProject openScoped).resolver.authzFor tenantSeven).tenancyExempt = false ∧
      ¬ TenancyComplete (salesProject openScoped).resolver tenantSeven.tenants r.statement := by
  obtain ⟨r, hr, hmem⟩ := exists_ok_of_any
    (x := compile (salesProject openScoped) revenueByDay tenantSeven)
    (P := fun r => r.statement.selects.any fun s =>
      s.scans == [("open_sales", "open_sales", "open_sales")] &&
        s.where_ ==
          [.node .gt [Expr.col "day" "open_sales", watermarkLiteral ⟨"business_day UTC", 0⟩]])
    (by decide +kernel)
  refine ⟨r, hr, by decide, fun h => ?_⟩
  obtain ⟨s, hs, heq⟩ := List.any_eq_true.mp hmem
  simp only [Bool.and_eq_true, beq_iff_eq] at heq
  obtain ⟨type, place, values, -, hval⟩ := h s hs ("open_sales", "open_sales", "open_sales")
    (by simp [heq.1]) "tenant_id" ⟨"open_sales", by decide⟩
  rw [heq.2, List.mem_singleton] at hval
  unfold tenantPredicate at hval
  split at hval <;> simp [Expr.mkEq] at hval

/-- With both sources scoped on the same column every scan is restricted. -/
theorem compile_tenancyComplete_sales :
    ∃ r, compile (salesProject bothScoped) revenueByDay tenantSeven = .ok r ∧
      TenancyComplete (salesProject bothScoped).resolver tenantSeven.tenants r.statement := by
  obtain ⟨r, hr⟩ := exists_ok_of_isOk (x := compile (salesProject bothScoped) revenueByDay
    tenantSeven) (by decide +kernel)
  refine ⟨r, hr, compile_tenancyComplete hr (by decide) (by decide) ?_⟩
  intro plan hplan c hc s hs
  have hsame : c.ctx.SameAs plan.ctx := by
    rcases hc with hc | ⟨c', hc', hin⟩
    · exact hc.sameAs
    · exact hin.sameAs.trans hc'.sameAs
  have hres : c.ctx.resolver = (salesProject bothScoped).resolver := by
    rw [hsame.resolver, (planQuery_eq_ok hplan).resolver]
  have hss : c.ctx.env.sources = (salesProject bothScoped).sources := by
    rw [hsame.env, (planQuery_eq_ok hplan).env]
  obtain ⟨sc⟩ := LeafCall.scoped_of_scopeLeaf hs
  -- no source declares a join
  have nojoin {env : Env} (henv : env.sources = (salesProject bothScoped).sources)
      {owner : String} {targets : List String} {via : Option (List String)}
      {edges : List JoinEdge} (h : planJoins env.lib env.sources owner targets via = .ok edges)
      {e : JoinEdge} (he : e ∈ edges) : False := by
    obtain ⟨src, source, hsrc, hj, -⟩ := planJoins_edge h e he
    have hnone : ∀ x ∈ (salesProject bothScoped).sources.list, x.joins = [] := by decide
    rw [hnone source (henv ▸ Sources.get_mem hsrc)] at hj
    simp at hj
  refine ⟨fun e he => (nojoin hss sc.edges_eq he).elim, fun f _ r _ column hcol => ?_,
    fun f r _ b e he => (nojoin (sc.ctx ▸ hss) b.edges_eq he).elim⟩
  rw [sc.ctx, hres] at hcol ⊢
  rw [sc.owner]
  have howner : c.owner = "closed_sales" := by
    rcases hc with ⟨⟨name, b⟩, hb, hcalls⟩ | ⟨c', ⟨⟨name, b⟩, hb, hcalls⟩, hin⟩
    · obtain ⟨hn, hbind⟩ := (planQuery_eq_ok hplan).mem_bindings.mp hb
      obtain rfl : name = "revenue" := by simpa [revenueByDay] using hn
      obtain rfl := Except.ok.inj hbind
      obtain ⟨lf, hlf, hsrc⟩ := hcalls.grouped
      obtain rfl := List.mem_singleton.mp hlf
      exact (Option.some.inj hsrc).symm
    · obtain ⟨hn, hbind⟩ := (planQuery_eq_ok hplan).mem_bindings.mp hb
      obtain rfl : name = "revenue" := by simpa [revenueByDay] using hn
      obtain rfl := Except.ok.inj hbind
      have := hin.strategy
      cases hcalls <;> simp_all [simpleCall]
  obtain ⟨t, ht, hmem⟩ := hcol.mem
  obtain rfl := Option.some.inj ht
  rw [howner]
  refine ⟨"closed_sales", ?_⟩
  have : column = "tenant_id" := by
    rcases List.mem_pair.mp hmem with h | h
    · exact (ScopedSource.mk.inj h).2
    · exact (ScopedSource.mk.inj h).2
  rw [this]
  decide
end Canonic
