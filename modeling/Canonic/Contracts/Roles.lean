import Canonic.Except
import Canonic.Contracts.Resolver

set_option autoImplicit false

/-! # Roles

What the role policy of a project means. A role's fields are read along its `inherits` chain, which
the validator makes finite; the roles of a principal are then united, with deny winning. -/

namespace Canonic

namespace ContractResolver

/-! ## Chains -/

/-- The `inherits` chain of a role, the role itself first, up to a role that inherits from none. -/
inductive InheritsChain (roles : List (String × RoleDef)) : String → List RoleDef → Prop
  | root {name : String} {role : RoleDef} (h : roles.lookup name = some role)
      (hi : role.inherits = none) : InheritsChain roles name [role]
  | step {name parent : String} {role : RoleDef} {chain : List RoleDef}
      (h : roles.lookup name = some role) (hi : role.inherits = some parent)
      (hc : InheritsChain roles parent chain) : InheritsChain roles name (role :: chain)

theorem InheritsChain.ne_nil {roles : List (String × RoleDef)} {name : String}
    {chain : List RoleDef} (h : InheritsChain roles name chain) : chain ≠ [] := by
  cases h <;> simp

/-- The loop that collects a chain ends with it, given a step for each role. -/
theorem InheritsChain.roleChain_eq {roles : List (String × RoleDef)} {name : String}
    {chain : List RoleDef} (h : InheritsChain roles name chain) :
    ∀ {n : Nat}, chain.length ≤ n → roleChain roles n name = chain := by
  induction h with
  | root hl hi =>
      intro n hn
      cases n with
      | zero => simp at hn
      | succ n => simp [roleChain, hl, hi]
  | step hl hi _ ih =>
      intro n hn
      cases n with
      | zero => simp at hn
      | succ n => simp [roleChain, hl, hi, ih (Nat.le_of_succ_le_succ hn)]

/-- The chain that the validator has walked. -/
theorem walkInherits_chain {p : RolePolicy} {name : String} :
    ∀ {n : Nat} {seen : List String} {current : String},
      p.walkInherits name n seen (some current) = .ok () →
        ∃ chain, InheritsChain p.roles current chain ∧ chain.length ≤ n := by
  intro n
  induction n with
  | zero =>
      intro seen current h
      simp [RolePolicy.walkInherits] at h
  | succ n ih =>
      intro seen current h
      rw [RolePolicy.walkInherits] at h
      split at h
      · simp at h
      next role hrole =>
        split at h
        · simp at h
        · cases hi : role.inherits with
          | none => exact ⟨[role], .root hrole hi, by simp⟩
          | some parent =>
              rw [hi] at h
              obtain ⟨chain, hc, hlen⟩ := ih h
              exact ⟨role :: chain, .step hrole hi hc, by simpa using hlen⟩

/-- Every declared role of a policy that is accepted has a chain, no longer than there are roles
to collect. -/
theorem exists_chain {p : RolePolicy} (hv : p.validateRoles = .ok ()) {name : String}
    {role : RoleDef} (h : p.roles.lookup name = some role) :
    ∃ chain, InheritsChain p.roles name chain ∧ chain.length ≤ p.roles.length + 1 := by
  simp only [RolePolicy.validateRoles, bind_eq_ok] at hv
  obtain ⟨-, -, hwalk⟩ := hv
  have hrole := forM_eq_ok hwalk (name, role) (mem_of_lookup h)
  cases hi : role.inherits with
  | none => exact ⟨[role], .root h hi, by simp⟩
  | some parent =>
      rw [hi] at hrole
      obtain ⟨chain, hc, hlen⟩ := walkInherits_chain hrole
      exact ⟨role :: chain, .step h hi hc, by simpa using hlen⟩

/-! ## Fields -/

/-- The value of a field that the nearest role of a chain authors, or the default. -/
def nearest {α : Type} (chain : List RoleDef) (field : RoleDef → Option α) (default : α) : α :=
  (chain.findSome? field).getD default

/-- Overriding from the root on leaves the nearest value. -/
theorem flattenField_eq {α : Type} {field : RoleDef → Option α} {default : α}
    {chain : List RoleDef} (h : chain ≠ []) :
    flattenField chain field default = some (nearest chain field default) := by
  have hstep (role : RoleDef) (rest : List RoleDef) :
      flattenField (role :: rest) field default =
        overrideField field default (flattenField rest field default) role := by
    simp [flattenField]
  induction chain with
  | nil => exact absurd rfl h
  | cons role rest ih =>
      rw [hstep]
      cases hf : field role with
      | some v => simp [overrideField, nearest, hf]
      | none =>
          cases rest with
          | nil => simp [overrideField, flattenField, nearest, hf]
          | cons r rs =>
              rw [ih (by simp)]
              simp [overrideField, nearest, hf]

/-- A role as its chain defines it, every field decided. -/
def chainRole (chain : List RoleDef) : RoleDef where
  inherits := none
  metrics := some (nearest chain (·.metrics) {})
  dimensions := some (nearest chain (·.dimensions) {})
  allowTags := some (nearest chain (·.allowTags) [])
  runSql := some (nearest chain (·.runSql) false)
  tenancyExempt := some (nearest chain (·.tenancyExempt) false)
  masking := some (nearest chain (·.masking) [])

theorem flattenRole_eq {roles : List (String × RoleDef)} {name : String} {chain : List RoleDef}
    (hc : InheritsChain roles name chain) (hlen : chain.length ≤ roles.length + 1) :
    flattenRole roles name = chainRole chain := by
  simp only [flattenRole, hc.roleChain_eq hlen, chainRole, flattenField_eq hc.ne_nil]

/-! ## Several roles -/

/-- The roles a principal carries: its own, or the default role when it has none. -/
def roleNames (policy : RolePolicy) (principal : Principal) : List String :=
  match principal.roles, policy.defaultRole with
  | [], some d => [d]
  | rs, _ => rs

/-- The ones among them that the policy declares. -/
def knownRoles (policy : RolePolicy) (principal : Principal) : List String :=
  (roleNames policy principal).filter fun n => policy.roles.any fun p => p.1 == n

/-- The allow set of a list: its names, or everything when none is authored. -/
def allowSet (p : Option AllowDenyPolicy) : List String :=
  match p.bind (·.allow) with
  | some a => a
  | none => ["*"]

def denySet (p : Option AllowDenyPolicy) : List String := (p.map (·.deny)).getD []

/-- The flattened roles of a principal, in the order they are united in. -/
def flattenedRoles (policy : RolePolicy) (principal : Principal) : List RoleDef :=
  ((knownRoles policy principal).insertionSort (· ≤ ·)).map (flattenRole policy.roles)

section
variable {r : ContractResolver} {policy : RolePolicy} {principal : Principal}

theorem mem_flattenedRoles {role : RoleDef} :
    role ∈ flattenedRoles policy principal ↔
      ∃ n ∈ knownRoles policy principal, flattenRole policy.roles n = role := by
  simp [flattenedRoles, List.mem_insertionSort]

theorem authzFor_denyAll (hr : r.roles = some policy) (hs : principal.systemExempt = false)
    (hk : knownRoles policy principal = []) : r.authzFor principal = denyAll := by
  have hempty : ((knownRoles policy principal).insertionSort (· ≤ ·)).isEmpty = true := by
    rw [hk]
    rfl
  simp only [authzFor, hs, hr, Bool.false_eq_true, if_false]
  exact if_pos hempty

/-- The policy of a principal with a known role, field by field. -/
theorem authzFor_known (hr : r.roles = some policy) (hs : principal.systemExempt = false)
    (hk : knownRoles policy principal ≠ []) :
    r.authzFor principal = {
      allowMetrics := (flattenedRoles policy principal).flatMap fun x => allowSet x.metrics
      denyMetrics := (flattenedRoles policy principal).flatMap fun x => denySet x.metrics
      allowDimensions := (flattenedRoles policy principal).flatMap fun x => allowSet x.dimensions
      denyDimensions := (flattenedRoles policy principal).flatMap fun x => denySet x.dimensions
      allowTags := (flattenedRoles policy principal).flatMap fun x => x.allowTags.getD []
      runSql := (flattenedRoles policy principal).any fun x => x.runSql.getD false
      tenancyExempt := (flattenedRoles policy principal).any fun x => x.tenancyExempt.getD false
      masking := (((flattenedRoles policy principal).flatMap fun x =>
        x.masking.getD []).dedup).insertionSort fun a b => maskingLe a b
      roles := (knownRoles policy principal).insertionSort (· ≤ ·) } := by
  have hne : ((knownRoles policy principal).insertionSort (· ≤ ·)).isEmpty ≠ true := by
    rw [ne_eq, List.isEmpty_iff]
    intro h
    have hlen := congrArg List.length h
    rw [List.length_insertionSort] at hlen
    exact hk (List.length_eq_zero_iff.mp hlen)
  simp only [authzFor, hs, hr, Bool.false_eq_true, if_false]
  exact if_neg hne

/-- One of several texts is allowed: none of them is denied by a role, and a role allows everything
or one of them. -/
def RolesAllow (policy : RolePolicy) (principal : Principal)
    (field : RoleDef → Option AllowDenyPolicy) (texts : List String) : Prop :=
  (∃ role ∈ knownRoles policy principal, "*" ∈ allowSet (field (flattenRole policy.roles role)) ∨
    ∃ n ∈ texts, n ∈ allowSet (field (flattenRole policy.roles role))) ∧
  ∀ role ∈ knownRoles policy principal, ∀ n ∈ texts,
    n ∉ denySet (field (flattenRole policy.roles role))

theorem mem_flatMap_roles {f : RoleDef → List String} {n : String} :
    n ∈ (flattenedRoles policy principal).flatMap f ↔
      ∃ role ∈ knownRoles policy principal, n ∈ f (flattenRole policy.roles role) := by
  simp only [List.mem_flatMap, mem_flattenedRoles]
  constructor
  · rintro ⟨_, ⟨role, hrole, rfl⟩, h⟩
    exact ⟨role, hrole, h⟩
  · rintro ⟨role, hrole, h⟩
    exact ⟨_, ⟨role, hrole, rfl⟩, h⟩

theorem metricAllowed_iff (hr : r.roles = some policy) (hs : principal.systemExempt = false)
    (hk : knownRoles policy principal ≠ []) (n : String) :
    (r.authzFor principal).metricAllowed n = true ↔
      RolesAllow policy principal (·.metrics) [n] := by
  simp only [authzFor_known hr hs hk, EffectivePolicy.metricAllowed, mem_flatMap_roles, RolesAllow,
    List.mem_singleton, forall_eq, exists_eq_left, exists_or, and_or_left]
  split
  next h =>
    obtain ⟨role, hrole, hmem⟩ := h
    exact iff_of_false (by simp) fun hden => hden.2 role hrole hmem
  next h =>
    have hden : ∀ role ∈ knownRoles policy principal,
        n ∉ denySet (flattenRole policy.roles role).metrics :=
      fun role hrole hmem => h ⟨role, hrole, hmem⟩
    simp only [Bool.or_eq_true, decide_eq_true_eq]
    exact ⟨fun hal => ⟨hal, hden⟩, fun hal => hal.1⟩

/-- A dimension is matched on its full name and on the last component of it. -/
theorem dimensionAllowed_iff (hr : r.roles = some policy) (hs : principal.systemExempt = false)
    (hk : knownRoles policy principal ≠ []) (n : String) :
    (r.authzFor principal).dimensionAllowed n = true ↔
      RolesAllow policy principal (·.dimensions) [n, lastComponent n] := by
  simp only [authzFor_known hr hs hk, EffectivePolicy.dimensionAllowed, mem_flatMap_roles,
    RolesAllow, List.mem_pair]
  split
  next h =>
    refine iff_of_false (by simp) fun hden => ?_
    rcases h with ⟨role, hrole, hmem⟩ | ⟨role, hrole, hmem⟩
    · exact hden.2 role hrole n (.inl rfl) hmem
    · exact hden.2 role hrole _ (.inr rfl) hmem
  next h =>
    have hden : ∀ role ∈ knownRoles policy principal, ∀ x, x = n ∨ x = lastComponent n →
        x ∉ denySet (flattenRole policy.roles role).dimensions := by
      rintro role hrole x (rfl | rfl) hmem
      · exact h (.inl ⟨role, hrole, hmem⟩)
      · exact h (.inr ⟨role, hrole, hmem⟩)
    simp only [Bool.or_eq_true, decide_eq_true_eq]
    constructor
    · rintro ((⟨role, hrole, hal⟩ | ⟨role, hrole, hal⟩) | ⟨role, hrole, hal⟩)
      · exact ⟨⟨role, hrole, .inl hal⟩, hden⟩
      · exact ⟨⟨role, hrole, .inr ⟨n, .inl rfl, hal⟩⟩, hden⟩
      · exact ⟨⟨role, hrole, .inr ⟨_, .inr rfl, hal⟩⟩, hden⟩
    · rintro ⟨⟨role, hrole, hal | ⟨x, rfl | rfl, hal⟩⟩, -⟩
      · exact .inl (.inl ⟨role, hrole, hal⟩)
      · exact .inl (.inr ⟨role, hrole, hal⟩)
      · exact .inr ⟨role, hrole, hal⟩

/-- A role that is not declared is passed over. -/
theorem authzFor_insert_unknown (hr : r.roles = some policy) {pre post : List String}
    {u : String} (hroles : principal.roles = pre ++ post)
    (hu : policy.roles.any (fun p => p.1 == u) = false) (hk : knownRoles policy principal ≠ [])
    (hne : principal.roles ≠ []) :
    r.authzFor { principal with roles := pre ++ u :: post } = r.authzFor principal := by
  have hnames {q : Principal} (hq : q.roles ≠ []) : roleNames policy q = q.roles := by
    unfold roleNames
    split
    next hnil _ => exact absurd hnil hq
    · rfl
  have hknown : knownRoles policy { principal with roles := pre ++ u :: post } =
      knownRoles policy principal := by
    rw [knownRoles, knownRoles, hnames (by simp), hnames hne, hroles]
    simp only [List.filter_append, List.filter_cons, hu, Bool.false_eq_true, if_false]
  by_cases hs : principal.systemExempt = true
  · simp [authzFor, hs]
  · have hs : principal.systemExempt = false := by simpa using hs
    have hother := @authzFor_known r policy { principal with roles := pre ++ u :: post } hr hs
      (by rw [hknown]; exact hk)
    rw [authzFor_known hr hs hk, hother]
    simp only [flattenedRoles, hknown]

end

/-! ## The law of an effective policy -/

/-- What a role policy means: chains give the fields of a role, several roles are united with deny
winning, and undeclared roles give nothing. -/
structure PolicyLaw (r : ContractResolver) (policy : RolePolicy) : Prop where
  /-- The chain of a declared role ends, and decides each field by its nearest author. -/
  flattened : ∀ name role, policy.roles.lookup name = some role →
    ∃ chain, InheritsChain policy.roles name chain ∧ flattenRole policy.roles name = chainRole chain
  /-- A principal of the system is held to no role at all. -/
  exempt : ∀ principal : Principal, principal.systemExempt = true → ∀ n,
    (r.authzFor principal).metricAllowed n = true ∧
      (r.authzFor principal).dimensionAllowed n = true
  metric : ∀ principal : Principal, principal.systemExempt = false →
    knownRoles policy principal ≠ [] → ∀ n, (r.authzFor principal).metricAllowed n = true ↔
      RolesAllow policy principal (·.metrics) [n]
  dimension : ∀ principal : Principal, principal.systemExempt = false →
    knownRoles policy principal ≠ [] → ∀ n, (r.authzFor principal).dimensionAllowed n = true ↔
      RolesAllow policy principal (·.dimensions) [n, lastComponent n]
  unknown : ∀ principal : Principal, principal.systemExempt = false →
    knownRoles policy principal = [] → (r.authzFor principal).runSql = false ∧
      (r.authzFor principal).tenancyExempt = false ∧ (r.authzFor principal).allowTags = [] ∧
      ∀ n, (r.authzFor principal).metricAllowed n = false ∧
        (r.authzFor principal).dimensionAllowed n = false
  inserted : ∀ (principal : Principal) (pre post : List String) (u : String),
    principal.roles = pre ++ post → (∃ n ∈ principal.roles, n ∈ policy.roles.map (·.1)) →
      u ∉ policy.roles.map (·.1) →
        r.authzFor { principal with roles := pre ++ u :: post } = r.authzFor principal

/-- **The effective policy of a principal**, for a role policy that the validator accepts. -/
theorem policyLaw_of_validateRoles {r : ContractResolver} {policy : RolePolicy}
    (hr : r.roles = some policy) (hv : policy.validateRoles = .ok ()) : PolicyLaw r policy := by
  refine ⟨fun name role h => ?_, fun principal hs n => ?_,
    fun _ hs hk => metricAllowed_iff hr hs hk,
    fun _ hs hk => dimensionAllowed_iff hr hs hk, fun principal hs hk => ?_, ?_⟩
  · obtain ⟨chain, hc, hlen⟩ := exists_chain hv h
    exact ⟨chain, hc, flattenRole_eq hc hlen⟩
  · rw [authzFor, if_pos hs]
    simp [unrestricted, EffectivePolicy.metricAllowed, EffectivePolicy.dimensionAllowed]
  · rw [authzFor_denyAll hr hs hk]
    simp [denyAll, EffectivePolicy.metricAllowed, EffectivePolicy.dimensionAllowed]
  · intro principal pre post u hroles hknown hu
    obtain ⟨n, hn, hdeclared⟩ := hknown
    have hany (m : String) : policy.roles.any (fun p => p.1 == m) = true ↔
        m ∈ policy.roles.map (·.1) := by
      simp [List.any_eq_true]
    have hne : principal.roles ≠ [] := List.ne_nil_of_mem hn
    have hunknown : policy.roles.any (fun p => p.1 == u) = false := by
      rw [Bool.eq_false_iff]
      exact fun h => hu ((hany u).mp h)
    refine authzFor_insert_unknown hr hroles hunknown ?_ hne
    refine List.ne_nil_of_mem (a := n) (List.mem_filter.mpr ⟨?_, (hany n).mpr hdeclared⟩)
    unfold roleNames
    split
    next hnil _ => exact absurd hnil hne
    · exact hn

/-- Two roles: one may read the dimension `city`, the other inherits from it. -/
private def cityRoles : RolePolicy where
  roles := [("viewer", { dimensions := some { allow := some ["city"] } }),
    ("editor", { inherits := some "viewer", runSql := some true })]

theorem policyLaw_cityRoles :
    cityRoles.validateRoles = .ok () ∧ PolicyLaw { roles := some cityRoles } cityRoles :=
  ⟨by decide, policyLaw_of_validateRoles rfl (by decide)⟩

/-- The dimension `pickup.city` is allowed to a principal of both roles, and is in the allow set of
neither. -/
theorem policyLaw_qualified_counterexample :
    cityRoles.validateRoles = .ok () ∧
      ¬ ∀ n, (ContractResolver.authzFor { roles := some cityRoles }
        { roles := ["viewer", "editor"] }).dimensionAllowed n = true ↔
          RolesAllow cityRoles { roles := ["viewer", "editor"] } (·.dimensions) [n] := by
  refine ⟨by decide, fun h => ?_⟩
  have hal := (h "pickup.city").mp (by decide)
  revert hal
  unfold RolesAllow
  decide

end ContractResolver

end Canonic
