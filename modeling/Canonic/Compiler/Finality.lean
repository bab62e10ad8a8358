import Canonic.Compiler.Emitted
import Canonic.Compiler.Fusion
import Canonic.Compiler.Pipeline
import Canonic.Compiler.Scanned
import Canonic.Sql.Eval

set_option autoImplicit false

/-! # The two sides of a watermark

A finality union reads one branch per realization of the rule. The final branch keeps the rows up to
the watermark and every other one the rows after it, so each instant is served once only when the
rule has one provisional realization. The gate of a branch reads the time dimension on the
realization itself, whatever source the dimension was found on. -/

namespace Canonic

open Sql (Expr Query Projection)

/-! ## What a dimension reads -/

theorem qualifyTo_eq_iff {e : Expr} {a b : String} :
    qualifyTo e a = qualifyTo e b ↔ a = b ∨ ∀ c ∈ e.columns, c.table ≠ "" := by
  unfold qualifyTo
  rw [Sql.Expr.mapColumns_eq_iff]
  constructor
  · intro h
    by_cases hab : a = b
    · exact Or.inl hab
    · refine Or.inr fun c hc htable => hab ?_
      have hcol := h c hc
      rw [if_pos htable, if_pos htable] at hcol
      simpa [Expr.col] using hcol
  · rintro (rfl | h) c hc
    · rfl
    · rw [if_neg (h c hc), if_neg (h c hc)]

theorem shift_nil (env : Env) (e : Expr) : env.shift [] e = e :=
  Sql.Expr.mapColumns_id fun _ _ => rfl

/-- The JSON accessors read the columns of what they are applied to. -/
theorem mem_columns_jsonValue {d : Dialect} {e : Expr} {segments : List String}
    {type : NormalizedType} {c : Sql.Column} :
    c ∈ (d.jsonValue e segments type).columns ↔ c ∈ e.columns := by
  have hpath : ∀ keys : List String, c ∉ (Dialect.jsonPath keys).columns := by
    intro keys
    simp [Dialect.jsonPath, Expr.call, Expr.string]
  have hfold : ∀ (keys : List String) (e : Expr), c ∈
      (keys.foldl (fun e key => Expr.call "JSONExtract" [e, Dialect.jsonPath [key]]) e).columns ↔
        c ∈ e.columns := by
    intro keys
    induction keys with
    | nil => exact fun _ => Iff.rfl
    | cons key keys ih => exact fun e => (ih _).trans (by simp [Expr.call, hpath])
  simp only [Expr.call] at hfold
  have htext : c ∈ (d.jsonExtractText e segments).columns ↔ c ∈ e.columns := by
    cases d <;> simp [Dialect.jsonExtractText, Expr.call, Expr.cast, Expr.string, hpath, hfold]
  unfold Dialect.jsonValue
  split
  · exact htext
  · simpa [Expr.cast] using htext

/-- A derived dimension whose expression reads no column of its source. -/
def Dimension.ReadsNothing (env : Env) (d : Dimension) : Prop :=
  ∃ text parsed, d.expr = some text ∧ env.parse text = .ok parsed ∧
    ∀ c ∈ parsed.columns, c.table ≠ ""

/-- A dimension reads the same at two aliases only where it reads nothing. -/
theorem dimensionBaseExpr_eq_iff {env : Env} {a b : String} {d : Dimension} {e : Expr}
    (h : dimensionBaseExpr env [] b d = .ok e) :
    dimensionBaseExpr env [] a d = .ok e ↔ a = b ∨ d.ReadsNothing env := by
  unfold dimensionBaseExpr at h ⊢
  have hcolumn : ∀ name, Expr.col name a = Expr.col name b ↔ a = b := fun name => by
    simp [Expr.col]
  cases hexpr : d.expr with
  | some text =>
      simp only [hexpr, bind_eq_ok, pure_eq_ok, shift_nil] at h ⊢
      obtain ⟨parsed, hparsed, rfl⟩ := h
      simp only [hparsed, Except.ok.injEq, exists_eq_left', qualifyTo_eq_iff]
      refine or_congr_right ⟨fun hno => ⟨text, parsed, hexpr, hparsed, hno⟩, ?_⟩
      rintro ⟨text', parsed', htext, hparsed', hno⟩
      obtain rfl := Option.some.inj (hexpr.symm.trans htext)
      obtain rfl := Except.ok.inj (hparsed.symm.trans hparsed')
      exact hno
  | none =>
      have hreads : ¬ d.ReadsNothing env := by
        rintro ⟨text, -, htext, -⟩
        simp [hexpr] at htext
      rw [or_iff_left hreads]
      cases hcol : d.column with
      | none => simp [hexpr, hcol] at h
      | some c =>
          cases hpath : d.jsonPath with
          | none =>
              simp only [hexpr, hcol, hpath, shift_nil, Except.ok.injEq] at h ⊢
              rw [← h, hcolumn]
          | some path =>
              cases htype : d.type with
              | none => simp [hexpr, hcol, hpath, htype] at h
              | some type =>
                  simp only [hexpr, hcol, hpath, htype, Except.ok.injEq] at h ⊢
                  subst h
                  constructor
                  · intro heq
                    -- the column of the one is a column of the other
                    have hmem : ∀ x, x ∈ (Expr.col c a).columns ↔ x ∈ (Expr.col c b).columns := by
                      intro x
                      rw [← mem_columns_jsonValue, heq, mem_columns_jsonValue]
                    simpa [Expr.col] using hmem
                  · rintro rfl
                    rfl

/-! ## The property -/

/-- A realization of this role serves an instant of the time axis, given the watermark. -/
def Role.Serves (role : Role) (t mark : ℤ) : Prop :=
  match role with
  | .final => t ≤ mark
  | .provisional => mark < t

instance Role.decidableServes (role : Role) (t mark : ℤ) : Decidable (role.Serves t mark) := by
  unfold Role.Serves
  cases role <;> infer_instance

/-- How an engine reads instants, and compares them with the watermark. -/
structure Clock {α : Type} [DecidableEq α] (E : Sql.Engine α) (w : Watermark) where
  instant : Sql.Value α → Option ℤ
  mark : ℤ
  lte : ∀ s e, (E.eval s (.node .lte [e, watermarkLiteral w])).isTrue = true ↔
    ∃ t, instant (E.eval s e) = some t ∧ t ≤ mark
  gt : ∀ s e, (E.eval s (.node .gt [e, watermarkLiteral w])).isTrue = true ↔
    ∃ t, instant (E.eval s e) = some t ∧ mark < t

/-- The dimensions of a branch. -/
def branchDims (env : Env) (f : FinalityInputs) (r : Realization) :
    Except Err (List (String × Dimension)) :=
  f.dims.mapM (branchDim env r.source (buildAliasTree env.sources r.source))

/-- The requested time dimension, as it is looked up from a realization. -/
def branchTime (env : Env) (f : FinalityInputs) (r : Realization) : Option (String × Dimension) :=
  (branchDims env f r).toOption.bind fun dims => dims.find? fun p => p.2.name == f.timeDim

/-- The branches of a union, from the left. -/
def unionBranches : Query → List Query
  | .union _ l r => unionBranches l ++ unionBranches r
  | .select d ps fs w g => [.select d ps fs w g]

/-- The role that the rows of a branch are marked with, in its last column. -/
def markedRole : Query → Option Role
  | .select _ ps _ _ _ => ps.getLast?.bind fun p =>
      [Role.final, Role.provisional].find? fun role => p = isFinalProjection role
  | .union .. => none

/-- The conditions of the owner's leaf, on a realization. -/
def branchConditions (f : FinalityInputs) (r : Realization) : List Expr :=
  f.conditions.map (requalifySource · f.owner r.source)

/-- **A branch serves its side of the watermark**: it reads the rows of its realization that meet
the conditions of the leaf and whose requested time is on the side of its role, all of them and no
others, under the marker of the role; where its joins multiply rows, one for each value of the
grain, else each row as it is. -/
structure ServesSide (env : Env) (f : FinalityInputs) (r : Realization) (b : Query) : Prop where
  marked : markedRole b = some r.role
  reads : ∃ s ∈ b.selects, ∃ scan ∈ s.scans, scan.1 = r.source
  gated : ∀ s ∈ b.selects, ¬ ReadsNoTable s → ∀ a d, branchTime env f r = some (a, d) →
    ∃ e, dimensionBaseExpr env [] a d = .ok e ∧
      s.where_ = branchConditions f r ++ [gate r.role e f.watermark]
  keeps : ∀ (α : Type) [DecidableEq α] (E : Sql.Engine α) (c : Clock E f.watermark),
    ∀ s ∈ b.selects, ¬ ReadsNoTable s → ∀ a d e, branchTime env f r = some (a, d) →
      dimensionBaseExpr env [] a d = .ok e → ∀ scope, (E.holds scope s.where_ = true ↔
        E.holds scope (branchConditions f r) = true ∧
          ∃ t, c.instant (E.eval scope e) = some t ∧ r.role.Serves t c.mark)
  once : ∀ s ∈ b.selects, ¬ ReadsNoTable s → branchFansOut env f r = true →
    ∃ source, env.sources.get r.source = some source ∧ source.grain ≠ [] ∧
      s.distinct = .on (source.grain.map fun g => Expr.col g r.source)
  whole : ∀ s ∈ b.selects, ¬ ReadsNoTable s → branchFansOut env f r = false → s.distinct = .none

/-- **Finality partitions the time axis**: a statement has one branch for each realization, which
serves its side of the watermark, and each instant is on the side of one branch. -/
structure FinalityPartition (env : Env) (f : FinalityInputs) (q : Query) : Prop where
  branches : List.Forall₂ (ServesSide env f) f.rule.realizations (unionBranches q)
  served : ∀ t mark : ℤ, ((unionBranches q).filter fun b =>
    (markedRole b).any fun role => decide (role.Serves t mark)).length = 1

/-- The rules and queries for which it does. -/
structure FinalitySound (env : Env) (f : FinalityInputs) : Prop where
  provisional : (f.rule.realizations.filter fun r => r.role = .provisional).length = 1
  ownTime : ∀ r ∈ f.rule.realizations, ∀ a d, branchTime env f r = some (a, d) →
    a = r.source ∨ d.ReadsNothing env
  grain : ∀ r ∈ f.rule.realizations, branchFansOut env f r = true →
    grainless env r.source = false

/-! ## Branches -/

theorem Branch.dims_eq_branchDims {env : Env} {f : FinalityInputs} {r : Realization}
    (b : Branch env f r) : branchDims env f r = .ok b.dims := b.dims_eq

theorem Branch.fansOut_eq {env : Env} {f : FinalityInputs} {r : Realization} (b : Branch env f r) :
    branchFansOut env f r = fansOut b.edges := by
  have hedges : (do
      let dims ← f.dims.mapM (branchDim env r.source (buildAliasTree env.sources r.source))
      branchEdges env r.source (buildAliasTree env.sources r.source) dims f.conditions) =
        .ok b.edges := bind_eq_ok.mpr ⟨b.dims, b.dims_eq, b.edges_eq⟩
  unfold branchFansOut
  simp only [hedges]
  rfl

/-- The gate compares the time dimension, read on the realization itself. -/
theorem Branch.column_eq_of_time {env : Env} {f : FinalityInputs} {r : Realization}
    (b : Branch env f r) {a : String} {d : Dimension} (h : branchTime env f r = some (a, d)) :
    dimensionBaseExpr env [] r.source d = .ok b.column := by
  have hfind : (b.dims.find? fun p => p.2.name == f.timeDim) = some (a, d) := by
    rw [branchTime, b.dims_eq_branchDims] at h
    exact h
  have hgate := b.column_eq
  unfold gateColumn at hgate
  rw [hfind] at hgate
  exact hgate

@[simp]
theorem gate_inj {role : Role} {e e' : Expr} {w : Watermark} :
    gate role e w = gate role e' w ↔ e = e' := by
  cases role <;> simp [gate]

theorem markedRole_append {d : Sql.Distinct} {ps : List Projection} {role : Role}
    {fs : List (Sql.FromItem Query)} {w g : List Expr} :
    markedRole (.select d (ps ++ [isFinalProjection role]) fs w g) = some role := by
  rw [markedRole, List.getLast?_concat]
  cases role <;> rfl

/-- A branch is one `SELECT` that marks its rows. What it reads from tables stands under its
conditions, cut to one row for each value of the grain where the joins multiply rows. -/
structure IsBranch (env : Env) (src : String) (role : Role) (conditions : List Expr)
    (edges : List JoinEdge) (q : Query) : Prop where
  branches : unionBranches q = [q]
  marked : markedRole q = some role
  where_ : ∀ s ∈ q.selects, ¬ ReadsNoTable s → s.where_ = conditions
  reads : ∃ s ∈ q.selects, ∃ scan ∈ s.scans, scan.1 = src
  distinct : fansOut edges = true → ∃ source, env.sources.get src = some source ∧
    ∀ s ∈ q.selects, ¬ ReadsNoTable s → s.distinct = distinctOn src source.grain
  whole : fansOut edges = false → ∀ s ∈ q.selects, ¬ ReadsNoTable s → s.distinct = .none

theorem branchSelect_isBranch {env : Env} {shifted : ShiftMap} {src : String} {role : Role}
    {metrics : List ResolvedMetric} {outputs : List String} {dims : List (String × Dimension)}
    {conditions : List Expr} {edges : List JoinEdge} {aliases : List String} {mask : DimMask}
    {q : Query} (h : branchSelect env shifted src role metrics outputs dims conditions edges
      aliases mask = .ok q) : IsBranch env src role conditions edges q := by
  have hreads := (branchSelect_reads h).scanned List.mem_cons_self
  unfold branchSelect at h
  split at h
  · next hfans =>
    simp only [bind_eq_ok, pure_eq_ok, buildDedupInner] at h
    obtain ⟨inner, ⟨source, hs, dimPs, -, inputPs, -, from_, hf, rfl⟩, measurePs, -, rfl⟩ := h
    -- the outer query reads a derived table, the inner one the source and its joins
    have honly {P : Sql.Select → Prop}
        (hP : P ⟨distinctOn src source.grain, dimPs ++ inputPs, from_, conditions, []⟩) :
        ∀ s ∈ (Query.select .none (readDims dedupAlias outputs ++ measurePs ++
          [isFinalProjection role]) [⟨.from, .derived (.select (distinctOn src source.grain)
            (dimPs ++ inputPs) from_ conditions []), dedupAlias, []⟩] []
          ((readDims dedupAlias outputs).map (·.expr))).selects, ¬ ReadsNoTable s → P s := by
      refine selects_derived (fun s hno h => absurd hno h) fun i hi => ?_
      obtain rfl := List.mem_singleton.mp hi
      refine ⟨_, rfl, fun s hs' _ => ?_⟩
      rw [Query.selects_select, selectsItems_fromAndJoins hf, List.mem_singleton] at hs'
      rw [hs']
      exact hP
    refine ⟨rfl, markedRole_append, honly rfl, hreads,
      fun _ => ⟨source, Sources.getKey_eq_ok.mp hs, honly rfl⟩, fun h => ?_⟩
    simp [h] at hfans
  · next hfans =>
    simp only [bind_eq_ok, pure_eq_ok] at h
    obtain ⟨dimPs, -, measurePs, -, from_, hf, rfl⟩ := h
    have honly : ∀ s ∈ (Query.select .none (dimPs ++ measurePs ++ [isFinalProjection role]) from_
        conditions (dimPs.map (·.expr))).selects, ¬ ReadsNoTable s →
          s.where_ = conditions ∧ s.distinct = .none := by
      intro s hs _
      rw [Query.selects_select, selectsItems_fromAndJoins hf, List.mem_singleton] at hs
      rw [hs]
      exact ⟨rfl, rfl⟩
    exact ⟨rfl, markedRole_append, fun s hs hno => (honly s hs hno).1, hreads,
      fun h => absurd h hfans, fun _ s hs hno => (honly s hs hno).2⟩

/-- The branch of a realization, under the conditions of the leaf and its gate. -/
theorem exists_branch {env : Env} {f : FinalityInputs} {metrics : List ResolvedMetric}
    {aliases : List String} {r : Realization} {q : Query} (hr : r ∈ f.rule.realizations)
    (h : finalityBranch env f metrics aliases r = .ok q) :
    ∃ b : Branch env f r, IsBranch env r.source r.role b.conditions b.edges q := by
  simp only [finalityBranch, bind_eq_ok] at h
  obtain ⟨_, -, ms, -, shifted, -, dims, hd, edges, he, column, hc, _, -, hsel⟩ := h
  exact ⟨⟨dims, edges, column, hr, hd, he, hc⟩, branchSelect_isBranch hsel⟩

theorem unionBranches_unionAll (q : Query) (qs : List Query) :
    unionBranches (Query.unionAll true q qs) = unionBranches q ++ qs.flatMap unionBranches := by
  induction qs generalizing q with
  | nil => simp [Query.unionAll]
  | cons q' qs ih => rw [Query.unionAll, ih, unionBranches, List.append_assoc, List.flatMap_cons]

/-- The branches of a union are those of the realizations of its rule, in their order. -/
theorem unionBranches_eq {env : Env} {f : FinalityInputs} {metrics : List ResolvedMetric}
    {aliases : List String} {q : Query}
    (h : buildFinalityUnion env f metrics aliases = .ok q) :
    List.Forall₂ (fun r b => finalityBranch env f metrics aliases r = .ok b) f.rule.realizations
      (unionBranches q) := by
  simp only [buildFinalityUnion, bind_eq_ok] at h
  obtain ⟨branches, hb, h⟩ := h
  have hbranches := mapM_eq_ok.mp hb
  have hone : ∀ b ∈ branches, unionBranches b = [b] := by
    intro b hmem
    obtain ⟨r, hr, hrb⟩ := forall₂_mem_right hbranches hmem
    obtain ⟨_, hbranch⟩ := exists_branch hr hrb
    exact hbranch.branches
  cases branches with
  | nil => simp at h
  | cons b bs =>
      obtain rfl := Except.ok.inj h
      rw [List.forall_mem_cons] at hone
      have hrest : bs.flatMap unionBranches = bs := by
        rw [List.flatMap_congr hone.2, List.flatMap_singleton']
      rw [unionBranches_unionAll, hone.1, hrest]
      exact hbranches

theorem served_iff (rule : FinalityRule) :
    (∀ t mark : ℤ, (rule.realizations.filter fun r => r.role.Serves t mark).length = 1) ↔
      (rule.realizations.filter fun r => r.role = .provisional).length = 1 := by
  have hafter : ∀ t mark : ℤ, mark < t → (rule.realizations.filter fun r =>
      r.role.Serves t mark) = rule.realizations.filter fun r => r.role = .provisional := by
    intro t mark ht
    refine List.filter_congr fun r _ => decide_eq_decide.mpr ?_
    cases r.role with
    | final => simp [Role.Serves, ht]
    | provisional => simp [Role.Serves, ht]
  have hbefore : ∀ t mark : ℤ, t ≤ mark → (rule.realizations.filter fun r =>
      r.role.Serves t mark) = rule.realizations.filter fun r => r.role = .final := by
    intro t mark ht
    refine List.filter_congr fun r _ => decide_eq_decide.mpr ?_
    cases r.role with
    | final => simp [Role.Serves, ht]
    | provisional => simp [Role.Serves, ht]
  constructor
  · intro h
    rw [← hafter 1 0 (by decide)]
    exact h 1 0
  · intro h t mark
    rcases le_or_gt t mark with ht | ht
    · rw [hbefore t mark ht]
      exact rule.one_final
    · rw [hafter t mark ht]
      exact h

/-- A row passes the gate exactly when it is on the side of the branch. -/
theorem Clock.serves_iff {α : Type} [DecidableEq α] {E : Sql.Engine α} {w : Watermark}
    (c : Clock E w) {role : Role} {e : Expr} {scope : Sql.Scope α} :
    (E.eval scope (gate role e w)).isTrue = true ↔
      ∃ t, c.instant (E.eval scope e) = some t ∧ role.Serves t c.mark := by
  cases role with
  | final => exact c.lte scope e
  | provisional => exact c.gt scope e

/-- The sides of branches that are marked with the roles of a rule are those of the rule. -/
theorem length_filter_marked {rs : List Realization} {bs : List Query}
    (h : List.Forall₂ (fun r b => markedRole b = some r.role) rs bs) (t mark : ℤ) :
    (bs.filter fun b => (markedRole b).any fun role => decide (role.Serves t mark)).length =
      (rs.filter fun r => r.role.Serves t mark).length := by
  induction h with
  | nil => rfl
  | @cons r b rs bs hb _ ih =>
      simp only [List.filter_cons, hb, Option.any_some]
      split
      · rw [List.length_cons, List.length_cons, ih]
      · exact ih

/-! ## When it holds -/

section
variable {env : Env} {f : FinalityInputs} {metrics : List ResolvedMetric} {aliases : List String}

theorem FinalitySound.gated (h : FinalitySound env f) {r : Realization}
    (hr : r ∈ f.rule.realizations) (b : Branch env f r) {a : String} {d : Dimension}
    (ht : branchTime env f r = some (a, d)) : dimensionBaseExpr env [] a d = .ok b.column :=
  (dimensionBaseExpr_eq_iff (b.column_eq_of_time ht)).mpr (h.ownTime r hr a d ht)

theorem grainless_eq {src : String} {source : SemanticSource}
    (h : env.sources.get src = some source) : grainless env src = source.grain.isEmpty := by
  rw [grainless, h]
  rfl

/-- A branch of a sound rule serves its side. -/
theorem FinalitySound.servesSide (h : FinalitySound env f) {r : Realization}
    (hr : r ∈ f.rule.realizations) {q : Query}
    (hq : finalityBranch env f metrics aliases r = .ok q) : ServesSide env f r q := by
  obtain ⟨b, hbranch⟩ := exists_branch hr hq
  refine ⟨hbranch.marked, hbranch.reads, fun s hs hreads a d ht =>
    ⟨b.column, h.gated hr b ht, hbranch.where_ s hs hreads⟩, ?_, ?_,
    fun s hs hreads hfans => hbranch.whole (b.fansOut_eq ▸ hfans) s hs hreads⟩
  · intro α _ E c s hs hreads a d e ht he scope
    obtain rfl := Except.ok.inj (he.symm.trans (h.gated hr b ht))
    have hall : E.holds scope b.conditions =
        (E.holds scope (branchConditions f r) &&
          (E.eval scope (gate r.role b.column f.watermark)).isTrue) := by
      simp [Sql.Engine.holds, Branch.conditions, branchConditions, List.all_append]
    rw [hbranch.where_ s hs hreads, hall, Bool.and_eq_true, c.serves_iff]
  · intro s hs hreads hfans
    obtain ⟨source, hsource, hdistinct⟩ := hbranch.distinct (b.fansOut_eq ▸ hfans)
    have hgrain := h.grain r hr hfans
    rw [grainless_eq hsource] at hgrain
    refine ⟨source, hsource, by simpa using hgrain, ?_⟩
    rw [hdistinct s hs hreads, distinctOn, if_neg (by simp [hgrain])]

/-- A sound rule partitions the time axis. -/
theorem FinalitySound.partition (h : FinalitySound env f) {q : Query}
    (hq : buildFinalityUnion env f metrics aliases = .ok q) : FinalityPartition env f q := by
  have hsides : List.Forall₂ (ServesSide env f) f.rule.realizations (unionBranches q) := by
    have hbranches := unionBranches_eq hq
    rw [List.forall₂_iff_get] at hbranches ⊢
    exact ⟨hbranches.1, fun i hi hi' => h.servesSide (List.get_mem _ _) (hbranches.2 i hi hi')⟩
  refine ⟨hsides, fun t mark => ?_⟩
  rw [length_filter_marked (hsides.imp fun r b hb => hb.marked)]
  exact (served_iff f.rule).mpr h.provisional t mark

/-- A branch reads a table. -/
theorem ServesSide.exists_reads {r : Realization} {q : Query} (h : ServesSide env f r q) :
    ∃ s ∈ q.selects, ¬ ReadsNoTable s := by
  obtain ⟨s, hs, scan, hscan, -⟩ := h.reads
  refine ⟨s, hs, fun hno => ?_⟩
  rw [hno] at hscan
  simp at hscan

/-- A rule that partitions the time axis is sound. -/
theorem FinalityPartition.sound {q : Query} (hq : buildFinalityUnion env f metrics aliases = .ok q)
    (h : FinalityPartition env f q) : FinalitySound env f := by
  have hbranch {r : Realization} (hr : r ∈ f.rule.realizations) : ∃ b' : Query,
      finalityBranch env f metrics aliases r = .ok b' ∧ ServesSide env f r b' := by
    have hbranches := List.forall₂_iff_get.mp (unionBranches_eq hq)
    have hsides := List.forall₂_iff_get.mp h.branches
    obtain ⟨i, rfl⟩ := List.mem_iff_get.mp hr
    have hi : i.1 < (unionBranches q).length := hsides.1 ▸ i.2
    exact ⟨_, hbranches.2 i.1 i.2 hi, hsides.2 i.1 i.2 hi⟩
  constructor
  · refine (served_iff f.rule).mp fun t mark => ?_
    rw [← length_filter_marked (h.branches.imp fun r b hb => hb.marked)]
    exact h.served t mark
  · intro r hr a d ht
    obtain ⟨b', hb', hside⟩ := hbranch hr
    obtain ⟨b, hbranch⟩ := exists_branch hr hb'
    obtain ⟨s, hs, hreads⟩ := hside.exists_reads
    obtain ⟨e, he, hwhere⟩ := hside.gated s hs hreads a d ht
    rw [hbranch.where_ s hs hreads] at hwhere
    obtain rfl : b.column = e := by simpa [Branch.conditions, branchConditions] using hwhere
    exact (dimensionBaseExpr_eq_iff (b.column_eq_of_time ht)).mp he
  · intro r hr hfans
    obtain ⟨b', hb', hside⟩ := hbranch hr
    obtain ⟨b, hbranch⟩ := exists_branch hr hb'
    obtain ⟨s, hs, hreads⟩ := hside.exists_reads
    obtain ⟨source, hsource, hgrain, -⟩ := hside.once s hs hreads hfans
    rw [grainless_eq hsource]
    simpa using hgrain

end

/-- **Finality partitions the time axis** exactly when the rule has one provisional realization, the
time dimension is each realization's own, and no realization without a grain is joined to rows that
multiply its own. -/
theorem finalityPartition_iff (env : Env) (f : FinalityInputs) (metrics : List ResolvedMetric)
    (aliases : List String) :
    (∀ q, buildFinalityUnion env f metrics aliases = .ok q → FinalityPartition env f q) ↔
      ((buildFinalityUnion env f metrics aliases).isOk = true → FinalitySound env f) := by
  constructor
  · intro h hok
    obtain ⟨q, hq⟩ := exists_ok_of_isOk hok
    exact (h q hq).sound hq
  · intro h q hq
    exact (h (by rw [hq]; rfl)).partition hq

/-! Sales are closed by a ledger. In the first project two feeds serve what is not closed yet; in
the second the day is a column of the joined shipments. -/

private def closingTexts : List (String × Expr) :=
  [("SUM(amount)", .node (.agg .sum) [Expr.bare "amount"]),
    ("closed.shipment = shipments.id",
      .mkEq (.column ⟨"", "closed", "shipment"⟩) (.column ⟨"", "shipments", "id"⟩)),
    ("feed.shipment = shipments.id",
      .mkEq (.column ⟨"", "feed", "shipment"⟩) (.column ⟨"", "shipments", "id"⟩))]

private def ledgerOf (name : String) : SemanticSource where
  name := name
  connection := "wh"
  table := name
  columns := [⟨"amount", .decimal, true⟩, ⟨"day", .date, true⟩]
  measures := [{ name := "amount", expr := "SUM(amount)" }]
  dimensions := [{ name := "day", column := some "day" }]
  measures_nodup := List.nodup_singleton "amount"
  dimensions_nodup := List.nodup_singleton "day"

private def shippedLedger (name : String) : SemanticSource where
  name := name
  connection := "wh"
  table := name
  columns := [⟨"shipment", .string, true⟩, ⟨"amount", .decimal, true⟩]
  measures := [{ name := "amount", expr := "SUM(amount)" }]
  joins := [{ to_ := "shipments", on := name ++ ".shipment = shipments.id",
              relationship := .manyToOne }]
  measures_nodup := List.nodup_singleton "amount"
  joins_nodup := List.nodup_singleton "shipments"

private def shipments : SemanticSource where
  name := "shipments"
  connection := "wh"
  table := "shipments"
  columns := [⟨"id", .string, true⟩, ⟨"day", .date, true⟩]
  dimensions := [{ name := "day", column := some "day" }]
  dimensions_nodup := List.nodup_singleton "day"

private def closedSales : Realization :=
  { source := "closed", role := .final, watermark := some "business_day", tz := some "UTC" }

private def feedSales (feed : String) : Realization := { source := feed, role := .provisional }

private def salesBinding : MetricBinding :=
  { metric := "sales", canonical := { of := .single "closed" "amount" } }

/-- Two feeds serve what is after the watermark. -/
private def twoFeeds : Project where
  lib := Lib.ofTexts closingTexts
  sources := { list := [ledgerOf "closed", ledgerOf "feed", ledgerOf "late"] }
  resolver := {
    bindings := [salesBinding]
    finality := [{
      metric := "sales"
      realizations := [closedSales, feedSales "feed", feedSales "late"] }] }

/-- The day of a sale is the day of its shipment. -/
private def shippedSales : Project where
  lib := Lib.ofTexts closingTexts
  sources := { list := [shippedLedger "closed", shippedLedger "feed", shipments] }
  resolver := {
    bindings := [salesBinding]
    finality := [{ metric := "sales", realizations := [closedSales, feedSales "feed"] }] }

private def salesByDay : SemanticQuery := { metrics := ["sales"], dimensions := ["day"] }

/-- A finality leaf of the plan that compiles and passes a test. -/
private def hasUnion (test : Env → FinalityInputs → Bool) (plan : Plan) : Bool :=
  plan.leaves.any fun l =>
    match l.emit with
    | .build _ => false
    | .finality f => test plan.ctx.env f &&
        (buildFinalityUnion plan.ctx.env f (l.metrics.map (·.resolved)) l.measureAliases).isOk

private theorem exists_of_hasUnion {test : Env → FinalityInputs → Bool} {plan : Plan}
    (h : hasUnion test plan = true) : ∃ l ∈ plan.leaves, ∃ f, l.emit = .finality f ∧
      test plan.ctx.env f = true ∧ ∃ q, buildFinalityUnion plan.ctx.env f
        (l.metrics.map (·.resolved)) l.measureAliases = .ok q := by
  obtain ⟨l, hl, hmatch⟩ := List.any_eq_true.mp h
  refine ⟨l, hl, ?_⟩
  cases hemit : l.emit with
  | build b => simp [hemit] at hmatch
  | finality f =>
      simp only [hemit, Bool.and_eq_true] at hmatch
      exact ⟨f, rfl, hmatch.1, exists_ok_of_isOk hmatch.2⟩

theorem finalityPartition_counterexample :
    (∃ plan, planQuery twoFeeds salesByDay {} = .ok plan ∧ ∃ l ∈ plan.leaves, ∃ f,
      l.emit = .finality f ∧ ∃ q, buildFinalityUnion plan.ctx.env f (l.metrics.map (·.resolved))
        l.measureAliases = .ok q ∧ ¬ FinalityPartition plan.ctx.env f q) ∧
    ∃ plan, planQuery shippedSales salesByDay {} = .ok plan ∧ ∃ l ∈ plan.leaves, ∃ f,
      l.emit = .finality f ∧ ∃ q, buildFinalityUnion plan.ctx.env f (l.metrics.map (·.resolved))
        l.measureAliases = .ok q ∧ ¬ FinalityPartition plan.ctx.env f q := by
  constructor
  · obtain ⟨plan, hplan, hunion⟩ := exists_ok_of_any (x := planQuery twoFeeds salesByDay {})
      (P := hasUnion fun _ f =>
        (f.rule.realizations.filter fun r => r.role = .provisional).length == 2) (by decide +kernel)
    obtain ⟨l, hl, f, hemit, htwo, q, hq⟩ := exists_of_hasUnion hunion
    refine ⟨plan, hplan, l, hl, f, hemit, q, hq, fun h => ?_⟩
    have hone := (h.sound hq).provisional
    rw [beq_iff_eq] at htwo
    omega
  · obtain ⟨plan, hplan, hunion⟩ := exists_ok_of_any (x := planQuery shippedSales salesByDay {})
      (P := hasUnion fun env f => f.rule.realizations.any fun r => (branchTime env f r).any fun p =>
        p.1 == "shipments" && r.source == "feed" && p.2.expr.isNone) (by decide +kernel)
    obtain ⟨l, hl, f, hemit, hjoined, q, hq⟩ := exists_of_hasUnion hunion
    refine ⟨plan, hplan, l, hl, f, hemit, q, hq, fun h => ?_⟩
    obtain ⟨r, hr, hany⟩ := List.any_eq_true.mp hjoined
    rw [Option.any_eq_true] at hany
    obtain ⟨⟨a, d⟩, ht, htest⟩ := hany
    simp only [Bool.and_eq_true, beq_iff_eq] at htest
    obtain ⟨⟨rfl, hsource⟩, hexpr⟩ := htest
    rcases (h.sound hq).ownTime r hr _ d ht with hown | ⟨text, -, htext, -⟩
    · rw [hsource] at hown
      exact absurd hown (by decide)
    · simp [htext] at hexpr

end Canonic
