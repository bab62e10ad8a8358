import Canonic.Compiler.JoinTree

set_option autoImplicit false

/-! # Acting on the candidates of an ambiguous join

When a target has several join paths, `planJoins` fails and offers each of them as a candidate,
with the `via` that selects it. This file says what a caller gets by passing that `via` back.

The target of the candidate is settled: it is never reported as ambiguous again, and, when no
alias stands for two sources, a plan that is returned reaches it by the candidate's path alone. The
other targets of the query are not: `via` is a prefix that *each* ambiguous path must begin
with, so a second ambiguous target whose paths all begin differently becomes unreachable. -/

namespace Canonic

open Canonic.Graph

variable {lib : Lib} {ss : Sources}

/-! ## The routes inside a plan -/

/-- Edges that follow one another, the first of them from the alias `a`. -/
def Leads : String → List JoinEdge → Prop
  | _, [] => True
  | a, e :: es => e.fromAlias = a ∧ Leads e.alias_ es

/-- `q` is a way through the edges of a plan from the owner to the alias `t`. -/
structure Route (owner : String) (edges : List JoinEdge) (t : String) (q : List JoinEdge) :
    Prop where
  leads : Leads owner q
  within : q ⊆ edges
  last : (owner :: aliasesOf q).getLast? = some t

theorem IsTrail.leads {a src : String} {p : List JoinEdge} (h : IsTrail lib ss a src p) :
    Leads a p := by
  induction p generalizing a src with
  | nil => trivial
  | cons e p ih => exact ⟨h.edge.1, ih h.2⟩

/-- The last edge of a chain starts where the rest of it ends. -/
theorem leads_concat {a : String} {q : List JoinEdge} {e : JoinEdge} :
    Leads a (q ++ [e]) ↔ Leads a q ∧ (a :: aliasesOf q).getLast? = some e.fromAlias := by
  induction q generalizing a with
  | nil => simp [Leads, aliasesOf, eq_comm]
  | cons f q ih =>
      simp only [List.cons_append, Leads, ih, aliasesOf, List.map_cons, List.getLast?_cons_cons,
        and_assoc]

/-- A chain of plan edges that ends at the owner is empty. -/
theorem Route.eq_nil {owner : String} {edges q : List JoinEdge} (h : IsJoinTree owner edges)
    (hq : Route owner edges owner q) : q = [] := by
  rcases List.eq_nil_or_concat' q with rfl | ⟨q₀, e, rfl⟩
  · rfl
  · exfalso
    have hlast : e.alias_ = owner := by
      have := hq.last
      simp only [aliasesOf, List.map_append, List.map_cons, List.map_nil] at this
      rw [getLast?_cons_concat] at this
      exact Option.some.inj this
    have he : e ∈ edges := hq.within (by simp)
    exact (List.nodup_cons.mp h.once).1 (hlast ▸ List.mem_map_of_mem he)

/-- **A plan has one route to an alias.** -/
theorem Route.unique {owner t : String} {edges p q : List JoinEdge} (h : IsJoinTree owner edges)
    (hp : Route owner edges t p) (hq : Route owner edges t q) : p = q := by
  induction p using List.reverseRecOn generalizing q t with
  | nil =>
      obtain rfl : owner = t := by simpa [aliasesOf] using hp.last
      exact (hq.eq_nil h).symm
  | append_singleton p e ih =>
      have het : e.alias_ = t := by
        have := hp.last
        simp only [aliasesOf, List.map_append, List.map_cons, List.map_nil] at this
        rw [getLast?_cons_concat] at this
        exact Option.some.inj this
      rcases List.eq_nil_or_concat' q with rfl | ⟨q, f, rfl⟩
      · obtain rfl : owner = t := by simpa [aliasesOf] using hq.last
        exact hp.eq_nil h
      · have hft : f.alias_ = t := by
          have := hq.last
          simp only [aliasesOf, List.map_append, List.map_cons, List.map_nil] at this
          rw [getLast?_cons_concat] at this
          exact Option.some.inj this
        -- the tree introduces `t` once, so both routes end in the same edge
        have hef : e = f := List.inj_on_of_nodup_map (List.nodup_cons.mp h.once).2
          (hp.within (by simp)) (hq.within (by simp)) (het.trans hft.symm)
        subst hef
        obtain ⟨hpl, hpe⟩ := leads_concat.mp hp.leads
        obtain ⟨hql, hqe⟩ := leads_concat.mp hq.leads
        have hpq : p = q := ih ⟨hpl, fun g hg => hp.within (by simp [hg]), hpe⟩
          ⟨hql, fun g hg => hq.within (by simp [hg]), hqe⟩
        rw [hpq]

/-! ## The failures of planning -/

/-- Enumerating paths fails at an ON text that does not parse, and nowhere else. -/
theorem walkPaths_error {target : String} (n : Nat) {a src : String} {visited : List String}
    {e : Err} (h : walkPaths lib ss target n a src visited = .error e) :
    ∃ on, e = .parseError on := by
  induction n generalizing a src visited with
  | zero => simp [walkPaths] at h
  | succ n ih =>
      simp only [walkPaths] at h
      split at h
      · simp at h
      · split at h
        · simp at h
        · rcases bind_eq_error.mp h with hjoins | ⟨found, -, h⟩
          · obtain ⟨join, -, hjoin⟩ := exists_mem_of_mapM_error hjoins
            split at hjoin
            · simp at hjoin
            · rcases bind_eq_error.mp hjoin with htr | ⟨edge, -, hjoin⟩
              · simp only [traverse, rewriteOn] at htr
                rcases bind_eq_error.mp htr with hon | ⟨on, -, h⟩
                · split at hon
                  · exact ⟨join.on, (Except.error.inj hon).symm⟩
                  · simp at hon
                · simp [pure, Except.pure] at h
              · rcases bind_eq_error.mp hjoin with htails | ⟨tails, -, h⟩
                · exact ih htails
                · simp [pure, Except.pure] at h
          · simp [pure, Except.pure] at h

/-- No path to `t` is left: it has none, or several and none of them begins with `via`. -/
def CutOff (lib : Lib) (ss : Sources) (owner : String) (via : Option (List String)) (t : String) :
    Prop :=
  ∃ paths, allSimplePaths lib ss owner t = .ok paths ∧
    (paths = [] ∨ 1 < paths.length ∧ ∃ v, via = some v ∧ ∀ p ∈ paths, ¬ v <+: aliasesOf p)

theorem narrowByVia_subset {owner t : String} {via : Option (List String)}
    {paths left : List (List JoinEdge)} (h : narrowByVia owner t via paths = .ok left) :
    left ⊆ paths := by
  cases via with
  | none =>
      simp only [narrowByVia, Except.ok.injEq] at h
      exact h ▸ List.Subset.refl paths
  | some v =>
      simp only [narrowByVia] at h
      split at h
      · split at h
        · simp at h
        · exact Except.ok.inj h ▸ List.filter_subset_self _
      · exact Except.ok.inj h ▸ List.Subset.refl paths

/-- Narrowing fails when there are several paths and `via` allows none of them. -/
theorem narrowByVia_error {owner t : String} {via : Option (List String)}
    {paths : List (List JoinEdge)} {e : Err} (h : narrowByVia owner t via paths = .error e) :
    (∃ msg, e = .unreachable msg []) ∧ 1 < paths.length ∧
      ∃ v, via = some v ∧ ∀ p ∈ paths, ¬ v <+: aliasesOf p := by
  cases via with
  | none => simp [narrowByVia] at h
  | some v =>
      simp only [narrowByVia] at h
      split at h
      · rename_i hlen
        split at h
        · rename_i hempty
          refine ⟨⟨_, (Except.error.inj h).symm⟩, hlen, v, rfl, ?_⟩
          intro p hp hv
          have hmem : p ∈ filterByVia paths v := by simp [filterByVia, hp, hv]
          rw [List.isEmpty_iff.mp hempty] at hmem
          simp at hmem
        · simp at h
      · simp at h

/-- A target is unreachable only when it is cut off. -/
theorem choosePath_unreachable {owner t msg : String} {via : Option (List String)}
    {cs : List String} (h : choosePath lib ss owner via t = .error (.unreachable msg cs)) :
    CutOff lib ss owner via t := by
  simp only [choosePath] at h
  rcases bind_eq_error.mp h with hpaths | ⟨paths, hpaths, h⟩
  · obtain ⟨on, hon⟩ := walkPaths_error _ hpaths
    simp at hon
  · refine ⟨paths, hpaths, ?_⟩
    split at h
    · rename_i hnil
      exact Or.inl (List.isEmpty_iff.mp hnil)
    · rcases bind_eq_error.mp h with hnarrow | ⟨left, -, h⟩
      · exact Or.inr (narrowByVia_error hnarrow).2
      · rcases left with _ | ⟨q, _ | ⟨q', left⟩⟩ <;> simp at h

/-- An ambiguous target is offered its own paths, each as one candidate. -/
theorem choosePath_ambiguous {owner t msg o t' : String} {via : Option (List String)}
    {cands : List JoinPathCandidate}
    (h : choosePath lib ss owner via t = .error (.ambiguousJoinPath msg o t' cands)) :
    t' = t ∧ ∃ paths, allSimplePaths lib ss owner t = .ok paths ∧
      ∀ c ∈ cands, ∃ p ∈ paths, c = joinPathCandidate owner p := by
  simp only [choosePath] at h
  rcases bind_eq_error.mp h with hpaths | ⟨paths, hpaths, h⟩
  · obtain ⟨on, hon⟩ := walkPaths_error _ hpaths
    simp at hon
  · split at h
    · simp at h
    · rcases bind_eq_error.mp h with hnarrow | ⟨left, hleft, h⟩
      · obtain ⟨⟨msg', hmsg⟩, -⟩ := narrowByVia_error hnarrow
        simp at hmsg
      · have hsub : left ⊆ paths := narrowByVia_subset hleft
        have hcands : t = t' ∧ left.map (joinPathCandidate owner) = cands := by
          rcases left with _ | ⟨q, _ | ⟨q', left⟩⟩
          · simp only [Except.error.injEq, Err.ambiguousJoinPath.injEq] at h
            exact ⟨h.2.2.1, h.2.2.2⟩
          · simp at h
          · simp only [Except.error.injEq, Err.ambiguousJoinPath.injEq] at h
            exact ⟨h.2.2.1, h.2.2.2⟩
        refine ⟨hcands.1.symm, paths, hpaths, ?_⟩
        intro c hc
        rw [← hcands.2] at hc
        obtain ⟨p, hp, rfl⟩ := List.mem_map.mp hc
        exact ⟨p, hsub hp, rfl⟩

/-- A failing plan fails at one of its targets, one that is not joined yet. -/
theorem planJoins_error {owner : String} {targets : List String} {via : Option (List String)}
    {e : Err} (h : planJoins lib ss owner targets via = .error e) :
    ∃ t ∈ targets, t ≠ owner ∧ choosePath lib ss owner via t = .error e := by
  obtain ⟨edges, t, ht, hstep⟩ := exists_mem_of_foldlM_error h
  simp only [planTarget] at hstep
  split at hstep
  · simp at hstep
  · rename_i hnew
    rcases bind_eq_error.mp hstep with hchoose | ⟨p, -, hstep⟩
    · exact ⟨t, mem_sortedSet.mp ht, fun hto => hnew (Or.inl hto), hchoose⟩
    · simp [pure, Except.pure] at hstep

/-- A target that is offered candidates is requested, and each candidate is one of its paths. -/
theorem planJoins_ambiguous {owner msg o t : String} {targets : List String}
    {via : Option (List String)} {cands : List JoinPathCandidate}
    (h : planJoins lib ss owner targets via = .error (.ambiguousJoinPath msg o t cands)) :
    t ∈ targets ∧ t ≠ owner ∧ ∃ paths, allSimplePaths lib ss owner t = .ok paths ∧
      ∀ c ∈ cands, ∃ p ∈ paths, c = joinPathCandidate owner p := by
  obtain ⟨t', ht', hne, hchoose⟩ := planJoins_error h
  obtain ⟨rfl, hpaths⟩ := choosePath_ambiguous hchoose
  exact ⟨ht', hne, hpaths⟩

/-! ## The second call -/

/-- What the plan made with `via` reaches `t` by: the path of the candidate and no other. -/
def ReachedBy (owner t : String) (edges : List JoinEdge) (c : JoinPathCandidate) : Prop :=
  ∃ p, c = joinPathCandidate owner p ∧ ∀ q, Route owner edges t q ↔ q = p

/-- Every candidate offered for `t` can be acted on: the call that passes its `via` back neither
is unreachable nor reports `t` again, and what it returns reaches `t` by the candidate's path. -/
def Actionable (lib : Lib) (ss : Sources) (owner : String) (targets : List String)
    (via : Option (List String)) : Prop :=
  ∀ msg o t cands,
    planJoins lib ss owner targets via = .error (.ambiguousJoinPath msg o t cands) →
    ∀ c ∈ cands,
      (∀ msg' cs, planJoins lib ss owner targets (some c.via) ≠ .error (.unreachable msg' cs)) ∧
      (∀ msg' o' cs, planJoins lib ss owner targets (some c.via) ≠
        .error (.ambiguousJoinPath msg' o' t cs)) ∧
      ∀ edges, planJoins lib ss owner targets (some c.via) = .ok edges →
        ReachedBy owner t edges c

/-- **Acting on a candidate settles its target.** The call that passes its `via` back is
unreachable only for another target that is cut off, never reports the same target as ambiguous,
and, where no alias stands for two sources, reaches the target by the candidate's path alone. -/
theorem planJoins_candidate_settles {owner msg o t : String} {targets : List String}
    {via : Option (List String)} {cands : List JoinPathCandidate} {c : JoinPathCandidate}
    (h : planJoins lib ss owner targets via = .error (.ambiguousJoinPath msg o t cands))
    (hc : c ∈ cands) :
    (∀ msg' cs, planJoins lib ss owner targets (some c.via) = .error (.unreachable msg' cs) →
      ∃ t' ∈ targets, t' ≠ t ∧ CutOff lib ss owner (some c.via) t') ∧
    (∀ msg' o' cs, planJoins lib ss owner targets (some c.via) ≠
      .error (.ambiguousJoinPath msg' o' t cs)) ∧
    (Consistent (joinStep ss) owner owner → ∀ edges,
      planJoins lib ss owner targets (some c.via) = .ok edges → ReachedBy owner t edges c) := by
  obtain ⟨ht, hne, paths, hpaths, hcands⟩ := planJoins_ambiguous h
  obtain ⟨p, hp, rfl⟩ := hcands c hc
  have hself : choosePath lib ss owner (some (joinPathCandidate owner p).via) t = .ok p :=
    choosePath_via_self hpaths hne hp
  refine ⟨?_, ?_, ?_⟩
  · intro msg' cs hcall
    obtain ⟨t', ht', -, hchoose⟩ := planJoins_error hcall
    refine ⟨t', ht', ?_, choosePath_unreachable hchoose⟩
    rintro rfl
    rw [hself] at hchoose
    simp at hchoose
  · intro msg' o' cs hcall
    obtain ⟨t', -, -, hchoose⟩ := planJoins_error hcall
    obtain ⟨rfl, -⟩ := choosePath_ambiguous hchoose
    rw [hself] at hchoose
    simp at hchoose
  · intro hcons edges hcall
    have hsound := planJoins_sound hcons hcall
    obtain ⟨htrail, -, hlast⟩ := mem_allSimplePaths hpaths hp
    have hroute : Route owner edges t p := ⟨htrail.leads, hsound.whole t ht p hself, hlast⟩
    refine ⟨p, rfl, fun q => ⟨fun hq => hq.unique hsound.tree hroute, ?_⟩⟩
    rintro rfl
    exact hroute

/-- The candidates a failing plan offers. -/
def offered : Except Err (List JoinEdge) → List JoinPathCandidate
  | .error (.ambiguousJoinPath _ _ _ cands) => cands
  | _ => []

/-- What a plan that reaches a target by a candidate joins for it. -/
theorem ReachedBy.joins_subset {owner t : String} {edges : List JoinEdge} {c : JoinPathCandidate}
    (h : ReachedBy owner t edges c) : c.joins ⊆ (joinPathCandidate owner edges).joins := by
  obtain ⟨p, rfl, hp⟩ := h
  exact List.map_subset _ ((hp p).mpr rfl).within

theorem exists_of_mem_offered {r : Except Err (List JoinEdge)} {c : JoinPathCandidate}
    (h : c ∈ offered r) :
    ∃ msg o t cands, r = .error (.ambiguousJoinPath msg o t cands) ∧ c ∈ cands := by
  unfold offered at h
  split at h
  · exact ⟨_, _, _, _, rfl, h⟩
  · simp at h

/-! ### Two ambiguous targets, and an alias of two sources

A shipment has an address of its own and one through its customer, a region of its own and one
through its depot: no candidate for the addresses is a prefix of a path to the regions. In the
second project `site` is the store of an order, and the home of its customer. -/

private def shipmentTexts : List (String × Sql.Expr) :=
  let on (a b : Sql.Column) : Sql.Expr := .mkEq (.column a) (.column b)
  [("shipments.address_id = addresses.id",
      on ⟨"", "shipments", "address_id"⟩ ⟨"", "addresses", "id"⟩),
   ("shipments.customer_id = customers.id",
      on ⟨"", "shipments", "customer_id"⟩ ⟨"", "customers", "id"⟩),
   ("shipments.depot_id = depots.id", on ⟨"", "shipments", "depot_id"⟩ ⟨"", "depots", "id"⟩),
   ("shipments.region_id = regions.id", on ⟨"", "shipments", "region_id"⟩ ⟨"", "regions", "id"⟩),
   ("customers.address_id = addresses.id",
      on ⟨"", "customers", "address_id"⟩ ⟨"", "addresses", "id"⟩),
   ("depots.region_id = regions.id", on ⟨"", "depots", "region_id"⟩ ⟨"", "regions", "id"⟩)]

private def shipmentSources : Sources where
  list :=
    [ { name := "shipments", connection := "wh", table := "shipments"
        joins :=
          [ { to_ := "addresses", on := "shipments.address_id = addresses.id",
              relationship := .manyToOne },
            { to_ := "customers", on := "shipments.customer_id = customers.id",
              relationship := .manyToOne },
            { to_ := "depots", on := "shipments.depot_id = depots.id",
              relationship := .manyToOne },
            { to_ := "regions", on := "shipments.region_id = regions.id",
              relationship := .manyToOne } ] },
      { name := "customers", connection := "wh", table := "customers"
        joins := [ { to_ := "addresses", on := "customers.address_id = addresses.id",
                     relationship := .manyToOne } ] },
      { name := "depots", connection := "wh", table := "depots"
        joins := [ { to_ := "regions", on := "depots.region_id = regions.id",
                     relationship := .manyToOne } ] },
      { name := "addresses", connection := "wh", table := "addresses" },
      { name := "regions", connection := "wh", table := "regions" } ]

private def siteJoinTexts : List (String × Sql.Expr) :=
  let on (a b : Sql.Column) : Sql.Expr := .mkEq (.column a) (.column b)
  [("orders.store_id = stores.id", on ⟨"", "orders", "store_id"⟩ ⟨"", "stores", "id"⟩),
   ("orders.store_id = site.id", on ⟨"", "orders", "store_id"⟩ ⟨"", "site", "id"⟩),
   ("orders.customer_id = customers.id", on ⟨"", "orders", "customer_id"⟩ ⟨"", "customers", "id"⟩),
   ("customers.home_id = homes.id", on ⟨"", "customers", "home_id"⟩ ⟨"", "homes", "id"⟩),
   ("customers.home_id = site.id", on ⟨"", "customers", "home_id"⟩ ⟨"", "site", "id"⟩),
   ("stores.brand_id = brands.id", on ⟨"", "stores", "brand_id"⟩ ⟨"", "brands", "id"⟩),
   ("site.brand_id = brands.id", on ⟨"", "site", "brand_id"⟩ ⟨"", "brands", "id"⟩),
   ("stores.region_id = regions.id", on ⟨"", "stores", "region_id"⟩ ⟨"", "regions", "id"⟩),
   ("homes.region_id = regions.id", on ⟨"", "homes", "region_id"⟩ ⟨"", "regions", "id"⟩),
   ("site.region_id = regions.id", on ⟨"", "site", "region_id"⟩ ⟨"", "regions", "id"⟩)]

private def siteJoinSources : Sources where
  list :=
    [ { name := "orders", connection := "wh", table := "orders"
        joins :=
          [ { to_ := "stores", on := "orders.store_id = stores.id",
              relationship := .manyToOne, name := some "site" },
            { to_ := "customers", on := "orders.customer_id = customers.id",
              relationship := .manyToOne } ] },
      { name := "customers", connection := "wh", table := "customers"
        joins := [ { to_ := "homes", on := "customers.home_id = homes.id",
                     relationship := .manyToOne, name := some "site" } ] },
      { name := "stores", connection := "wh", table := "stores"
        joins :=
          [ { to_ := "brands", on := "stores.brand_id = brands.id",
              relationship := .manyToOne },
            { to_ := "regions", on := "stores.region_id = regions.id",
              relationship := .manyToOne } ] },
      { name := "homes", connection := "wh", table := "homes"
        joins := [ { to_ := "regions", on := "homes.region_id = regions.id",
                     relationship := .manyToOne } ] },
      { name := "brands", connection := "wh", table := "brands" },
      { name := "regions", connection := "wh", table := "regions" } ]

private def ownAddress : JoinPathCandidate where
  via := ["addresses"]
  route := "shipments → addresses"
  joins := [[("from", "shipments"), ("to", "addresses"),
    ("on", "shipments.address_id = addresses.id"), ("alias", "addresses")]]

private def homeRegion : JoinPathCandidate where
  via := ["customers", "site", "regions"]
  route := "orders → customers → site → regions"
  joins :=
    [[("from", "orders"), ("to", "customers"), ("on", "orders.customer_id = customers.id"),
      ("alias", "customers")],
     [("from", "customers"), ("to", "homes"), ("on", "customers.home_id = site.id"),
      ("alias", "site")],
     [("from", "homes"), ("to", "regions"), ("on", "site.region_id = regions.id"),
      ("alias", "regions")]]

/-- Choosing the address of the shipment makes its region unreachable; choosing the region of the
customer's home returns a plan that joins the store as `site`. -/
theorem planJoins_candidates_counterexample :
    ¬ Actionable (Lib.ofTexts shipmentTexts) shipmentSources "shipments"
        ["addresses", "regions"] none ∧
    ¬ Actionable (Lib.ofTexts siteJoinTexts) siteJoinSources "orders" ["brands", "regions"]
        none := by
  constructor
  · intro h
    have hc : ownAddress ∈ offered (planJoins (Lib.ofTexts shipmentTexts) shipmentSources
        "shipments" ["addresses", "regions"] none) := by decide +kernel
    obtain ⟨msg, o, t, cands, hr, hmem⟩ := exists_of_mem_offered hc
    refine (h msg o t cands hr ownAddress hmem).1 ("no join path from 'shipments' to 'regions' " ++
      "passes through ['addresses']") [] ?_
    decide +kernel
  · intro h
    have hc : homeRegion ∈ offered (planJoins (Lib.ofTexts siteJoinTexts) siteJoinSources
        "orders" ["brands", "regions"] none) := by decide +kernel
    obtain ⟨msg, o, t, cands, hr, hmem⟩ := exists_of_mem_offered hc
    obtain ⟨edges, hedges, hother⟩ : ∃ edges, planJoins (Lib.ofTexts siteJoinTexts)
        siteJoinSources "orders" ["brands", "regions"] (some homeRegion.via) = .ok edges ∧
        !(homeRegion.joins.all (· ∈ (joinPathCandidate "orders" edges).joins)) := by
      exact exists_ok_of_any (by decide +kernel)
    have hsub := ((h msg o t cands hr homeRegion hmem).2.2 edges hedges).joins_subset
    have hall : homeRegion.joins.all (· ∈ (joinPathCandidate "orders" edges).joins) = true := by
      simpa using fun j hj => hsub hj
    simp [hall] at hother

/-- Asked for the addresses alone, the shipments are reached by the address that was chosen. -/
theorem planJoins_candidate_settles_shipments :
    ∃ edges, planJoins (Lib.ofTexts shipmentTexts) shipmentSources "shipments" ["addresses"]
        (some ownAddress.via) = .ok edges ∧
      ReachedBy "shipments" "addresses" edges ownAddress := by
  have hc : ownAddress ∈ offered (planJoins (Lib.ofTexts shipmentTexts) shipmentSources
      "shipments" ["addresses"] none) := by decide +kernel
  have ht : planJoins (Lib.ofTexts shipmentTexts) shipmentSources "shipments" ["addresses"] none =
      .error (.ambiguousJoinPath ("more than one join path from 'shipments' to 'addresses'; " ++
        "use \"via\" to specify which path") "shipments" "addresses"
        (offered (planJoins (Lib.ofTexts shipmentTexts) shipmentSources
          "shipments" ["addresses"] none))) := by decide +kernel
  obtain ⟨edges, hedges⟩ := exists_ok_of_isOk (x := planJoins (Lib.ofTexts shipmentTexts)
    shipmentSources "shipments" ["addresses"] (some ownAddress.via)) (by decide +kernel)
  refine ⟨edges, hedges, (planJoins_candidate_settles ht hc).2.2 ?_ edges hedges⟩
  exact consistent_of_aliases _ id (by decide) _

end Canonic
