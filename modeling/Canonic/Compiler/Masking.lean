import Canonic.Contracts.Roles
import Canonic.Compiler.AliasTree
import Canonic.Compiler.Builders

set_option autoImplicit false

/-! # Masking

What the masking rules of a principal's roles leave of a dimension. The rules of all roles are
sorted, a column keeps the last of its rules, and a dimension takes the mask of the first masked
column it reads. -/

namespace Canonic

open ContractResolver

/-! ## Strength -/

/-- How much a mask hides: all but two characters, the text, everything. -/
def MaskStrategy.strength : MaskStrategy → Nat
  | .partial_ => 1
  | .hash => 2
  | .null => 3

/-- The strength of what is applied; nothing hides nothing. -/
def maskStrength (m : Option MaskStrategy) : Nat := (m.map MaskStrategy.strength).getD 0

/-- A rule of one of the principal's roles masks a column of a source. A principal of the system is
held to no role. -/
def RoleMasks (r : ContractResolver) (principal : Principal) (source column : String)
    (m : MaskStrategy) : Prop :=
  principal.systemExempt = false ∧ ∃ policy, r.roles = some policy ∧
    ∃ role ∈ knownRoles policy principal,
      ∃ rule ∈ (flattenRole policy.roles role).masking.getD [],
        splitRole rule.column = some (source, column) ∧ rule.strategy = m

/-! ## The rules of a policy -/

section
variable {r : ContractResolver} {principal : Principal}

theorem mem_masking {rule : MaskingRule} :
    rule ∈ (r.authzFor principal).masking ↔
      principal.systemExempt = false ∧ ∃ policy, r.roles = some policy ∧
        ∃ role ∈ knownRoles policy principal,
          rule ∈ (flattenRole policy.roles role).masking.getD [] := by
  by_cases hs : principal.systemExempt = true
  · simp [authzFor, hs, unrestricted]
  · have hs : principal.systemExempt = false := by simpa using hs
    cases hr : r.roles with
    | none => simp [authzFor, hs, hr, unrestricted]
    | some policy =>
        by_cases hk : knownRoles policy principal = []
        · simp [authzFor_denyAll hr hs hk, hk, denyAll]
        · rw [authzFor_known hr hs hk]
          simp [hs, mem_flattenedRoles, List.mem_insertionSort]

theorem maskingLe_trans {a b c : MaskingRule} (hab : maskingLe a b = true)
    (hbc : maskingLe b c = true) : maskingLe a c = true := by
  simp only [maskingLe, Bool.or_eq_true, Bool.and_eq_true, decide_eq_true_eq, beq_iff_eq] at *
  rcases hab with hab | ⟨hab, hab'⟩ <;> rcases hbc with hbc | ⟨hbc, hbc'⟩
  · exact .inl (String.lt_trans hab hbc)
  · exact .inl (hbc ▸ hab)
  · exact .inl (hab ▸ hbc)
  · exact .inr ⟨hab.trans hbc, String.le_trans hab' hbc'⟩

theorem maskingLe_total (a b : MaskingRule) : maskingLe a b = true ∨ maskingLe b a = true := by
  simp only [maskingLe, Bool.or_eq_true, Bool.and_eq_true, decide_eq_true_eq, beq_iff_eq]
  by_cases hab : a.column < b.column
  · exact .inl (.inl hab)
  by_cases hba : b.column < a.column
  · exact .inr (.inl hba)
  have heq : a.column = b.column :=
    String.le_antisymm (String.not_lt.mp hba) (String.not_lt.mp hab)
  rcases String.le_total a.strategy.value b.strategy.value with h | h
  · exact .inl (.inr ⟨heq, h⟩)
  · exact .inr (.inr ⟨heq.symm, h⟩)

/-- The rules stand by column and, on one column, in the order of the strategies' texts. -/
theorem masking_sorted :
    (r.authzFor principal).masking.Pairwise fun a b => maskingLe a b = true := by
  by_cases hs : principal.systemExempt = true
  · simp [authzFor, hs, unrestricted]
  · have hs : principal.systemExempt = false := by simpa using hs
    cases hr : r.roles with
    | none => simp [authzFor, hs, hr, unrestricted]
    | some policy =>
        by_cases hk : knownRoles policy principal = []
        · simp [authzFor_denyAll hr hs hk, denyAll]
        · rw [authzFor_known hr hs hk]
          have : Std.Total fun a b : MaskingRule => maskingLe a b = true := ⟨maskingLe_total⟩
          have : IsTrans MaskingRule fun a b => maskingLe a b = true :=
            ⟨fun _ _ _ => maskingLe_trans⟩
          exact List.pairwise_insertionSort _ _

end

/-! ## The mask of a column -/

/-- The rules by column: the last rule of a column is the one whose strategy has the last text. -/
theorem byColumn_spec {masking : List MaskingRule}
    (hs : masking.Pairwise fun a b => maskingLe a b = true) :
    let d : Dict MaskStrategy := masking.foldl (fun d r => d.set r.column r.strategy) []
    (d.map (·.1)).Nodup ∧ ∀ k m, (k, m) ∈ d ↔
      ⟨k, m⟩ ∈ masking ∧ ∀ rule ∈ masking, rule.column = k → rule.strategy.value ≤ m.value := by
  induction masking using List.reverseRecOn with
  | nil => simp
  | append_singleton rules last ih =>
      obtain ⟨hrules, -, hlast⟩ := List.pairwise_append.mp hs
      obtain ⟨hnd, hmem⟩ := ih hrules
      have hle (rule : MaskingRule) (h : rule ∈ rules) (hc : rule.column = last.column) :
          rule.strategy.value ≤ last.strategy.value := by
        have := hlast rule h last (List.mem_singleton.mpr rfl)
        simpa [maskingLe, hc, String.lt_irrefl] using this
      rw [List.foldl_append, List.foldl_cons, List.foldl_nil]
      refine ⟨Dict.nodup_set hnd, fun k m => ?_⟩
      rw [Dict.mem_set, hmem]
      constructor
      · rintro (⟨rfl, rfl⟩ | ⟨hne, hin, hall⟩)
        · refine ⟨by simp, fun rule hrule hc => ?_⟩
          rcases List.mem_append.mp hrule with hrule | hrule
          · exact hle rule hrule hc
          · exact List.mem_singleton.mp hrule ▸ String.le_refl _
        · refine ⟨List.mem_append_left _ hin, fun rule hrule hc => ?_⟩
          rcases List.mem_append.mp hrule with hrule | hrule
          · exact hall rule hrule hc
          · rw [List.mem_singleton.mp hrule] at hc
            exact absurd hc.symm hne
      · rintro ⟨hin, hall⟩
        by_cases hk : k = last.column
        · have hval : m.value = last.strategy.value := by
            refine String.le_antisymm ?_ (hall last (by simp) hk.symm)
            rcases List.mem_append.mp hin with hin | hin
            · exact hle _ hin hk
            · exact List.mem_singleton.mp hin ▸ String.le_refl _
          refine .inl ⟨hk, ?_⟩
          revert hval
          cases m <;> cases last.strategy <;> simp [MaskStrategy.value]
        · refine .inr ⟨hk, ?_, fun rule hrule => hall rule (List.mem_append_left _ hrule)⟩
          rcases List.mem_append.mp hin with hin | hin
          · exact hin
          · exact absurd (by rw [← List.mem_singleton.mp hin]) hk

section
variable {r : ContractResolver} {principal : Principal} {tree : Dict String}
  {alias_ source : String}

/-- The mask of a column: of the strategies its rules name, the one whose text is last. -/
theorem mem_resolveDimMask (hnd : (tree.map (·.1)).Nodup) (ht : tree.get alias_ = some source)
    {column : String} {m : MaskStrategy} :
    ((alias_, column), m) ∈ resolveDimMask tree (r.authzFor principal).masking ↔
      RoleMasks r principal source column m ∧
        ∀ m', RoleMasks r principal source column m' → m'.value ≤ m.value := by
  have hspec := (byColumn_spec (@masking_sorted r principal)).2
  have hrole (m : MaskStrategy) : RoleMasks r principal source column m ↔
      ∃ key, splitRole key = some (source, column) ∧
        ⟨key, m⟩ ∈ (r.authzFor principal).masking := by
    simp only [mem_masking, RoleMasks]
    constructor
    · rintro ⟨hs, policy, hr, role, hrole, ⟨key, st⟩, hrule, hsplit, rfl⟩
      exact ⟨key, hsplit, hs, policy, hr, role, hrole, hrule⟩
    · rintro ⟨key, hsplit, hs, policy, hr, role, hrole, hrule⟩
      exact ⟨hs, policy, hr, role, hrole, _, hrule, hsplit, rfl⟩
  simp only [resolveDimMask, List.mem_flatMap, List.mem_filterMap]
  constructor
  · rintro ⟨p, hp, ⟨key, st⟩, hin, heq⟩
    split at heq
    next s c hsplit =>
      split at heq
      next hsrc =>
        simp only [Option.some.injEq, Prod.mk.injEq] at heq
        obtain ⟨⟨halias, rfl⟩, rfl⟩ := heq
        have hp' : tree.get alias_ = some p.2 := Dict.get_of_mem hnd (halias ▸ hp)
        obtain rfl : source = s := by rw [ht] at hp'; rw [hsrc]; exact Option.some.inj hp'
        obtain ⟨hmem, hall⟩ := (hspec key st).mp hin
        refine ⟨(hrole st).mpr ⟨key, hsplit, hmem⟩, fun m' hm' => ?_⟩
        obtain ⟨key', hsplit', hmem'⟩ := (hrole m').mp hm'
        exact hall _ hmem' (splitRole_inj hsplit' hsplit)
      · simp at heq
    · simp at heq
  · rintro ⟨hm, hall⟩
    obtain ⟨key, hsplit, hmem⟩ := (hrole m).mp hm
    refine ⟨_, Dict.get_eq_some_mem ht, (key, m), (hspec key m).mpr ⟨hmem, ?_⟩, by simp [hsplit]⟩
    rintro ⟨key', st⟩ hrule rfl
    exact hall st ((hrole st).mpr ⟨key', hsplit, hrule⟩)

/-- A column without a mask is one that no rule names. -/
theorem lookup_resolveDimMask_none (hnd : (tree.map (·.1)).Nodup)
    (ht : tree.get alias_ = some source) {column : String}
    (h : (resolveDimMask tree (r.authzFor principal).masking).lookup (alias_, column) = none)
    (m : MaskStrategy) : ¬ RoleMasks r principal source column m := by
  intro hm
  obtain ⟨m₀, hm₀, hmax⟩ : ∃ m₀, RoleMasks r principal source column m₀ ∧
      ∀ m', RoleMasks r principal source column m' → m'.value ≤ m₀.value := by
    -- the texts are in the order hash, null, partial
    by_cases hp : RoleMasks r principal source column .partial_
    · exact ⟨_, hp, fun m' _ => by cases m' <;> decide⟩
    by_cases hn : RoleMasks r principal source column .null
    · refine ⟨_, hn, fun m' hm' => ?_⟩
      cases m' with
      | partial_ => exact absurd hm' hp
      | hash => decide
      | null => decide
    · refine ⟨m, hm, fun m' hm' => ?_⟩
      cases m' with
      | partial_ => exact absurd hm' hp
      | null => exact absurd hm' hn
      | hash =>
          cases m with
          | partial_ => exact absurd hm hp
          | null => exact absurd hm hn
          | hash => decide
  have hin := (mem_resolveDimMask hnd ht).mpr ⟨hm₀, hmax⟩
  have hne := List.lookup_eq_none_iff.mp h _ hin
  simp at hne

end

/-! ## The mask of a dimension -/

section
variable {lib : Lib} {ss : Sources} {owner alias_ source : String} {r : ContractResolver}
  {principal : Principal} {dim : Dimension}

/-- The mask of a dimension in a leaf of an owner. -/
def dimMask (lib : Lib) (ss : Sources) (owner : String) (r : ContractResolver)
    (principal : Principal) (alias_ : String) (dim : Dimension) : Option MaskStrategy :=
  dimMaskStrategy lib (resolveDimMask (buildAliasTree ss owner) (r.authzFor principal).masking)
    alias_ dim

theorem dimMask_none (ht : (buildAliasTree ss owner).get alias_ = some source)
    (h : dimMask lib ss owner r principal alias_ dim = none) {column : String}
    (hc : column ∈ dim.backingColumns lib) (m : MaskStrategy) :
    ¬ RoleMasks r principal source column m :=
  lookup_resolveDimMask_none (buildAliasTree_inv ss owner).nodup ht
    (List.findSome?_eq_none_iff.mp h column (mem_sortedSet.mpr hc)) m

/-- The mask of a dimension is the mask of the first masked column it reads. -/
theorem dimMask_some (ht : (buildAliasTree ss owner).get alias_ = some source)
    {m : MaskStrategy} (h : dimMask lib ss owner r principal alias_ dim = some m) :
    ∃ first ∈ dim.backingColumns lib, RoleMasks r principal source first m ∧
      (∀ m', RoleMasks r principal source first m' → m'.value ≤ m.value) ∧
      ∀ c ∈ dim.backingColumns lib, c < first → ∀ m', ¬ RoleMasks r principal source c m' := by
  have hnd := (buildAliasTree_inv ss owner).nodup
  obtain ⟨pre, first, post, hl, hfirst, hpre⟩ := List.findSome?_eq_some_iff.mp h
  have hread : first ∈ dim.backingColumns lib := mem_sortedSet.mp (by rw [hl]; simp)
  obtain ⟨hm, hmax⟩ := (mem_resolveDimMask hnd ht).mp (mem_of_lookup hfirst)
  refine ⟨first, hread, hm, hmax, fun c hc hlt => ?_⟩
  have hmem : c ∈ pre ++ first :: post := hl ▸ mem_sortedSet.mpr hc
  have hsorted : (pre ++ first :: post).Pairwise (· ≤ ·) := by
    rw [← hl]
    exact List.pairwise_insertionSort _ _
  rcases List.mem_append.mp hmem with hmem | hmem
  · exact lookup_resolveDimMask_none hnd ht (hpre c hmem)
  · rcases List.mem_cons.mp hmem with rfl | hmem
    · exact absurd hlt (String.lt_irrefl _)
    · have hle := (List.pairwise_cons.mp (List.pairwise_append.mp hsorted).2.1).1 c hmem
      exact absurd hlt (String.not_lt.mpr hle)

/-- The mask of a dimension is as strong as every rule that a role of the principal has on a column
the dimension reads, of the source its alias stands for in the owner's alias tree. -/
def FailsClosed (lib : Lib) (ss : Sources) (owner : String) (r : ContractResolver)
    (principal : Principal) (alias_ : String) (dim : Dimension) : Prop :=
  ∀ source, (buildAliasTree ss owner).get alias_ = some source →
    ∀ c ∈ dim.backingColumns lib, ∀ m, RoleMasks r principal source c m →
      m.strength ≤ maskStrength (dimMask lib ss owner r principal alias_ dim)

/-- The first masked column a dimension reads speaks for all of them: a rule of strategy `partial`
on it stands beside rules of that strategy only, and a rule of strategy `null` on any column stands
beside one on the first. -/
def FirstMaskDecides (lib : Lib) (ss : Sources) (owner : String) (r : ContractResolver)
    (principal : Principal) (alias_ : String) (dim : Dimension) : Prop :=
  ∀ source, (buildAliasTree ss owner).get alias_ = some source →
    ∀ first ∈ dim.backingColumns lib, (∃ m, RoleMasks r principal source first m) →
      (∀ c ∈ dim.backingColumns lib, c < first → ∀ m, ¬ RoleMasks r principal source c m) →
        ∀ c ∈ dim.backingColumns lib, ∀ m, RoleMasks r principal source c m →
          (RoleMasks r principal source first .partial_ → m = .partial_) ∧
            (m = .null → RoleMasks r principal source first .null)

/-- Two columns that are both first of the masked ones are one. -/
theorem first_unique {reads : List String} {P : String → Prop} {a b : String} (ha : a ∈ reads)
    (hb : b ∈ reads) (hpa : P a) (hpb : P b) (hfa : ∀ c ∈ reads, c < a → ¬ P c)
    (hfb : ∀ c ∈ reads, c < b → ¬ P c) : a = b :=
  String.le_antisymm (String.not_lt.mp fun h => hfa b hb h hpb)
    (String.not_lt.mp fun h => hfb a ha h hpa)

theorem firstMaskDecides_of_failsClosed
    (h : FailsClosed lib ss owner r principal alias_ dim) :
    FirstMaskDecides lib ss owner r principal alias_ dim := by
  intro source ht first hfirst hmasked hleast c hc m hm
  have hstrong := h source ht c hc m hm
  cases hd : dimMask lib ss owner r principal alias_ dim with
  | none => exact absurd hm (dimMask_none ht hd hc m)
  | some applied =>
      obtain ⟨f, hf, hfm, hmax, hleast'⟩ := dimMask_some ht hd
      obtain rfl : f = first :=
        first_unique (P := fun c => ∃ m, RoleMasks r principal source c m) hf hfirst ⟨_, hfm⟩
          hmasked (fun c hc hlt ⟨m, hm⟩ => hleast' c hc hlt m hm)
          (fun c hc hlt ⟨m, hm⟩ => hleast c hc hlt m hm)
      rw [hd] at hstrong
      constructor
      · -- beside `partial`, whose text is last, nothing else is applied
        intro hp
        have hval := hmax _ hp
        cases applied with
        | hash => exact absurd hval (by decide)
        | null => exact absurd hval (by decide)
        | partial_ =>
            cases m with
            | partial_ => rfl
            | hash => exact absurd hstrong (by decide)
            | null => exact absurd hstrong (by decide)
      · rintro rfl
        cases applied with
        | null => exact hfm
        | hash => exact absurd hstrong (by decide)
        | partial_ => exact absurd hstrong (by decide)

theorem failsClosed_of_firstMaskDecides
    (h : FirstMaskDecides lib ss owner r principal alias_ dim) :
    FailsClosed lib ss owner r principal alias_ dim := by
  intro source ht c hc m hm
  cases hd : dimMask lib ss owner r principal alias_ dim with
  | none => exact absurd hm (dimMask_none ht hd hc m)
  | some applied =>
      obtain ⟨first, hfirst, hfm, hmax, hleast⟩ := dimMask_some ht hd
      obtain ⟨hsame, hnull⟩ := h source ht first hfirst ⟨_, hfm⟩ hleast c hc m hm
      cases applied with
      | null => cases m <;> decide
      | hash =>
          cases m with
          | partial_ => decide
          | hash => decide
          | null => exact absurd (hmax _ (hnull rfl)) (by decide)
      | partial_ =>
          rw [hsame hfm]
          decide

/-- Rules that stay, on columns that are still read, keep their strength. -/
theorem dimMask_mono {principal' : Principal} {dim' : Dimension}
    (ht : (buildAliasTree ss owner).get alias_ = some source)
    (hroles : ∀ c m, RoleMasks r principal source c m → RoleMasks r principal' source c m)
    (hreads : dim.backingColumns lib ⊆ dim'.backingColumns lib)
    (h : FailsClosed lib ss owner r principal' alias_ dim') :
    maskStrength (dimMask lib ss owner r principal alias_ dim) ≤
      maskStrength (dimMask lib ss owner r principal' alias_ dim') := by
  cases hd : dimMask lib ss owner r principal alias_ dim with
  | none => exact Nat.zero_le _
  | some applied =>
      obtain ⟨first, hfirst, hfm, -, -⟩ := dimMask_some ht hd
      exact h source ht first (hreads hfirst) applied (hroles first applied hfm)

theorem RoleMasks.mono {principal' : Principal} {column : String} {m : MaskStrategy}
    (hsys : principal'.systemExempt = principal.systemExempt)
    (hroles : ∀ policy, r.roles = some policy →
      roleNames policy principal ⊆ roleNames policy principal')
    (h : RoleMasks r principal source column m) : RoleMasks r principal' source column m := by
  obtain ⟨hs, policy, hr, role, hrole, hrule⟩ := h
  obtain ⟨hname, hknown⟩ := List.mem_filter.mp hrole
  exact ⟨hsys ▸ hs, policy, hr, role, List.mem_filter.mpr ⟨hroles policy hr hname, hknown⟩, hrule⟩

end

/-- **Masking fails closed exactly where the first masked column speaks for all of them**, and there
it is monotone in the roles of the principal and in the columns that are read. -/
theorem failsClosed_iff (lib : Lib) (ss : Sources) (owner alias_ : String)
    (r : ContractResolver) (principal : Principal) (dim : Dimension) :
    (FailsClosed lib ss owner r principal alias_ dim ↔
      FirstMaskDecides lib ss owner r principal alias_ dim) ∧
    ∀ (fewer : Principal) (narrower : Dimension) (source : String),
      (buildAliasTree ss owner).get alias_ = some source →
      principal.systemExempt = fewer.systemExempt →
      (∀ policy, r.roles = some policy → roleNames policy fewer ⊆ roleNames policy principal) →
      narrower.backingColumns lib ⊆ dim.backingColumns lib →
      FirstMaskDecides lib ss owner r principal alias_ dim →
        maskStrength (dimMask lib ss owner r fewer alias_ narrower) ≤
          maskStrength (dimMask lib ss owner r principal alias_ dim) := by
  refine ⟨⟨firstMaskDecides_of_failsClosed, failsClosed_of_firstMaskDecides⟩, ?_⟩
  intro fewer narrower source ht hsys hroles hreads hfirst
  exact dimMask_mono ht (fun c m => RoleMasks.mono hsys hroles) hreads
    (failsClosed_of_firstMaskDecides hfirst)

private def emailDim : Dimension := { name := "email", column := some "email" }

private def userSources : Sources where
  list := [{
    name := "users", connection := "wh", table := "users"
    columns := [⟨"email", .string, true⟩]
    dimensions := [emailDim] }]

/-- The auditor sees no address, the support sees two characters of it. -/
private def emailRoles : ContractResolver where
  roles := some {
    roles := [("auditor", { masking := some [⟨"users.email", .null⟩] }),
      ("support", { masking := some [⟨"users.email", .partial_⟩] })] }

/-- With both roles, what only the auditor's rule hides is shown in part. -/
theorem failsClosed_two_roles_counterexample :
    ¬ FailsClosed (Lib.ofTexts []) userSources "users" emailRoles
      { roles := ["auditor", "support"] } "users" emailDim := by
  intro h
  have hnull := h "users" (by decide) "email" (by decide) .null
    ⟨rfl, _, rfl, "auditor", by decide, ⟨"users.email", .null⟩, by decide, by decide, rfl⟩
  revert hnull
  decide

theorem failsClosed_auditor :
    FailsClosed (Lib.ofTexts []) userSources "users" emailRoles { roles := ["auditor"] } "users"
      emailDim ∧
    maskStrength (dimMask (Lib.ofTexts []) userSources "users" emailRoles {} "users" emailDim) ≤
      maskStrength (dimMask (Lib.ofTexts []) userSources "users" emailRoles
        { roles := ["auditor"] } "users" emailDim) := by
  have hclosed : FailsClosed (Lib.ofTexts []) userSources "users" emailRoles
      { roles := ["auditor"] } "users" emailDim := by
    intro _ _ _ _ m _
    cases m <;> decide
  obtain ⟨hiff, hmono⟩ := failsClosed_iff (Lib.ofTexts []) userSources "users" "users" emailRoles
    { roles := ["auditor"] } emailDim
  refine ⟨hclosed, hmono {} emailDim "users" (by decide) rfl ?_ (List.Subset.refl _)
    (hiff.mp hclosed)⟩
  rintro _ ⟨⟩
  decide

end Canonic
