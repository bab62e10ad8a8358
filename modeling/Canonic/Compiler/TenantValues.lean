import Mathlib.Data.List.Lex
import Mathlib.Data.String.Basic
import Canonic.Compiler.Conditions
import Canonic.Except

set_option autoImplicit false

/-! # Tenant values

A tenant claim becomes the literals of a scope column in two steps: `normalize_tenants` collects
the identifiers, `_tenant_literals` writes them in the type of the column. Both collect sets, so
neither the order nor the repetition of the elements matters. The second one reads strings with
`int`, which takes more spellings of a number than its numeral: two identifiers can become one
literal that way. -/

namespace Canonic

/-! ## What a tenant should become -/

/-- The scope column is compared as an integer. -/
abbrev isNumericColumn (columnType : Option NormalizedType) : Bool :=
  (columnType.map (·.isNumericTenant)).getD false

/-- The literal `l` is the tenant `v` in the type of the column: an integer stands for itself and
for its numeral. -/
def Denotes (columnType : Option NormalizedType) (v l : TenantValue) : Prop :=
  if isNumericColumn columnType then ∃ n : Int, l = .int n ∧ (v = .int n ∨ v = .str (toString n))
  else if columnType = some .string then
    ∃ s, l = .str s ∧ (v = .str s ∨ ∃ n : Int, v = .int n ∧ s = toString n)
  else l = v

/-- An integer and its canonical numeral. -/
def NumeralPair (v w : TenantValue) : Prop :=
  ∃ n : Int, (v = .int n ∧ w = .str (toString n)) ∨ (v = .str (toString n) ∧ w = .int n)

/-- The claim has the identifier among its elements. -/
def TenantClaim.Carries (raw : TenantClaim) (v : TenantValue) : Prop :=
  ∃ x ∈ raw.items, tenantElement x = .ok (some v)

/-- The distinct identifiers of a claim. -/
def TenantClaim.values (raw : TenantClaim) : List TenantValue :=
  (raw.items.filterMap fun x => (tenantElement x).toOption.join).dedup

/-- The literals a principal with this claim is scoped to. -/
def scopedLiterals (raw : TenantClaim) (limit : Nat) (columnType : Option NormalizedType)
    (place : String) : Except Err (List TenantValue) := do
  let tenants ← normalizeTenants raw limit
  tenantLiterals tenants columnType place

/-- Two outcomes with the same literals, or refusals of one kind. The message of an element that
is no identifier names its type. -/
inductive SameOutcome : Except Err (List TenantValue) → Except Err (List TenantValue) → Prop
  | literals (ls : List TenantValue) : SameOutcome (.ok ls) (.ok ls)
  | unresolved (m m' : String) :
      SameOutcome (.error (.tenantUnresolved m)) (.error (.tenantUnresolved m'))
  | overLimit (m : String) :
      SameOutcome (.error (.tenantLimitExceeded m)) (.error (.tenantLimitExceeded m))

/-- The literals of a claim keep the identity of its tenants. -/
structure KeepsIdentity (raw : TenantClaim) (limit : Nat) (columnType : Option NormalizedType)
    (place : String) : Prop where
  /-- The literals are the tenants in the type of the column. -/
  exact : ∀ ls, scopedLiterals raw limit columnType place = .ok ls →
    (∀ v, raw.Carries v → ∃ l ∈ ls, Denotes columnType v l) ∧
      ∀ l ∈ ls, ∃ v, raw.Carries v ∧ Denotes columnType v l
  /-- A string on a numeric column is the numeral of the integer used. -/
  numeral : ∀ ls, scopedLiterals raw limit columnType place = .ok ls →
    isNumericColumn columnType = true → ∀ s n, raw.Carries (.str s) →
      matchTenant columnType place (.str s) = .ok (.int n) → s = toString n
  /-- Different tenants have different literals, but for an integer and its numeral. -/
  apart : ∀ ls, scopedLiterals raw limit columnType place = .ok ls →
    ∀ v w l, raw.Carries v → raw.Carries w → matchTenant columnType place v = .ok l →
      matchTenant columnType place w = .ok l → v = w ∨ NumeralPair v w
  /-- The order and the repetition of the elements do not matter. -/
  orderFree : ∀ raw' : TenantClaim, (∀ x, x ∈ raw'.items ↔ x ∈ raw.items) →
    SameOutcome (scopedLiterals raw' limit columnType place)
      (scopedLiterals raw limit columnType place)

/-! ## The order of tenants -/

theorem tenant_le_total (v w : TenantValue) : v.le w = true ∨ w.le v = true := by
  cases v with
  | int m =>
      cases w with
      | int n => simpa [TenantValue.le] using Int.le_total m n
      | str t => exact Or.inl rfl
  | str s =>
      cases w with
      | int n => exact Or.inr rfl
      | str t => simpa [TenantValue.le] using le_total s t

theorem tenant_le_trans {u v w : TenantValue} (huv : u.le v = true) (hvw : v.le w = true) :
    u.le w = true := by
  cases w with
  | int n =>
      cases v with
      | str t => exact absurd hvw Bool.false_ne_true
      | int m =>
          cases u with
          | str s => exact absurd huv Bool.false_ne_true
          | int k =>
              simp only [TenantValue.le, decide_eq_true_eq] at huv hvw ⊢
              omega
  | str r =>
      cases u with
      | int k => rfl
      | str s =>
          cases v with
          | int m => exact absurd huv Bool.false_ne_true
          | str t =>
              simp only [TenantValue.le, decide_eq_true_eq] at huv hvw ⊢
              exact le_trans huv hvw

theorem tenant_le_antisymm {v w : TenantValue} (hvw : v.le w = true) (hwv : w.le v = true) :
    v = w := by
  cases v <;> cases w <;> simp only [TenantValue.le, decide_eq_true_eq] at hvw hwv
  · rw [Int.le_antisymm hvw hwv]
  · contradiction
  · contradiction
  · rw [le_antisymm hvw hwv]

/-- Tenants are sorted in one way, whatever the order they are collected in. -/
theorem sorted_tenants_congr {vs ws : List TenantValue} (h : vs.Perm ws) :
    vs.insertionSort (fun a b => a.le b) = ws.insertionSort (fun a b => a.le b) := by
  have hsorted : ∀ us : List TenantValue,
      (us.insertionSort fun a b => a.le b).Pairwise fun a b => a.le b = true := by
    intro us
    have htotal : Std.Total fun a b : TenantValue => a.le b = true := ⟨tenant_le_total⟩
    have htrans : IsTrans TenantValue fun a b => a.le b = true := ⟨fun _ _ _ => tenant_le_trans⟩
    exact List.pairwise_insertionSort _ us
  have hanti : Std.Antisymm fun a b : TenantValue => a.le b = true :=
    ⟨fun _ _ => tenant_le_antisymm⟩
  have hperm : (vs.insertionSort fun a b => a.le b).Perm (ws.insertionSort fun a b => a.le b) :=
    ((List.perm_insertionSort _ vs).trans h).trans (List.perm_insertionSort _ ws).symm
  exact hperm.eq_of_pairwise' (hsorted vs) (hsorted ws)

/-! ## Collecting -/

theorem mem_values {raw : TenantClaim} {v : TenantValue} : v ∈ raw.values ↔ raw.Carries v := by
  rw [TenantClaim.values, List.mem_dedup, List.mem_filterMap]
  constructor
  · rintro ⟨x, hx, hv⟩
    refine ⟨x, hx, ?_⟩
    cases helement : tenantElement x with
    | error e => simp [helement, Except.toOption] at hv
    | ok o =>
        have ho : o = some v := by simpa [helement, Except.toOption] using hv
        rw [ho]
  · rintro ⟨x, hx, hv⟩
    exact ⟨x, hx, by simp [hv, Except.toOption]⟩

/-- Every element is an identifier, null or blank. -/
def TenantClaim.Readable (raw : TenantClaim) : Prop :=
  ∀ x ∈ raw.items, ∃ o, tenantElement x = .ok o

theorem found_values {items : List RawTenant} {found : List (Option TenantValue)}
    (h : items.mapM tenantElement = .ok found) :
    found.filterMap id = items.filterMap fun x => (tenantElement x).toOption.join := by
  have hread := mapM_eq_ok.mp h
  clear h
  induction hread with
  | nil => rfl
  | @cons x o xs os hx _ ih =>
      have hjoin : (tenantElement x).toOption.join = o := by rw [hx]; rfl
      rw [List.filterMap_cons, List.filterMap_cons, hjoin, ih]
      rfl

/-- The refusal of a claim with too many tenants. -/
def tooManyTenants (count limit : Nat) : Err :=
  .tenantLimitExceeded (s!"tenant claim carries {count} distinct values, more " ++
    s!"than the allowed {limit} (mcp.auth.max_tenants)")

theorem normalizeTenants_of_readable {raw : TenantClaim} (limit : Nat) (h : raw.Readable) :
    normalizeTenants raw limit =
      if limit < raw.values.length then .error (tooManyTenants raw.values.length limit)
      else .ok (raw.values.insertionSort fun a b => a.le b) := by
  obtain ⟨found, hfound⟩ := exists_mapM_eq_ok h
  have hvalues : (found.filterMap id).dedup = raw.values := by
    rw [found_values hfound, TenantClaim.values]
  rw [normalizeTenants, hfound, ok_bind]
  simp only [hvalues]
  rfl

/-- The refusal of an element that is no identifier. -/
theorem tenantElement_error {x : RawTenant} {e : Err} (h : tenantElement x = .error e) :
    ∃ m, e = .tenantUnresolved m := by
  unfold tenantElement at h
  split at h
  · cases h
  · exact ⟨_, (Except.error.inj h).symm⟩
  · cases h
  · split at h
    · cases h
    · exact ⟨_, (Except.error.inj h).symm⟩
  · cases h
  · exact ⟨_, (Except.error.inj h).symm⟩

theorem normalizeTenants_of_unreadable {raw : TenantClaim} (limit : Nat) (h : ¬ raw.Readable) :
    ∃ m, normalizeTenants raw limit = .error (.tenantUnresolved m) := by
  cases hfound : raw.items.mapM tenantElement with
  | error e =>
      obtain ⟨x, -, hx⟩ := exists_mem_of_mapM_error hfound
      obtain ⟨m, rfl⟩ := tenantElement_error hx
      exact ⟨m, by rw [normalizeTenants, hfound, error_bind]⟩
  | ok found =>
      refine absurd (fun x hx => ?_) h
      obtain ⟨o, -, ho⟩ := forall₂_mem_left (mapM_eq_ok.mp hfound) hx
      exact ⟨o, ho⟩

theorem normalizeTenants_eq_ok {raw : TenantClaim} {limit : Nat} {tenants : List TenantValue} :
    normalizeTenants raw limit = .ok tenants ↔
      raw.Readable ∧ raw.values.length ≤ limit ∧
        tenants = raw.values.insertionSort fun a b => a.le b := by
  by_cases hread : raw.Readable
  · rw [normalizeTenants_of_readable limit hread]
    by_cases hlimit : limit < raw.values.length
    · rw [if_pos hlimit]
      constructor
      · intro h
        cases h
      · rintro ⟨-, hle, -⟩
        omega
    · rw [if_neg hlimit]
      constructor
      · intro h
        exact ⟨hread, by omega, (Except.ok.inj h).symm⟩
      · rintro ⟨-, -, rfl⟩
        rfl
  · obtain ⟨m, hm⟩ := normalizeTenants_of_unreadable limit hread
    simp [hm, hread]

/-! ## Writing in the type of the column -/

/-- The refusal of a tenant that `int` does not read. -/
theorem matchTenant_error {columnType : Option NormalizedType} {place : String} {v : TenantValue}
    {e : Err} (h : matchTenant columnType place v = .error e) :
    ∃ m s, e = .tenantUnresolved m ∧ isNumericColumn columnType = true ∧ v = .str s ∧
      pyInt s = none := by
  unfold matchTenant at h
  split at h
  next hnumeric =>
    split at h
    · cases h
    next s =>
      split at h
      · cases h
      next hnone => exact ⟨_, s, (Except.error.inj h).symm, hnumeric, rfl, hnone⟩
  next =>
    split at h
    · split at h <;> cases h
    · cases h

theorem matchTenant_numeric_str {columnType : Option NormalizedType} (place : String) {s : String}
    {n : Int} (hnumeric : isNumericColumn columnType = true) :
    matchTenant columnType place (.str s) = .ok (.int n) ↔ pyInt s = some n := by
  rw [matchTenant, if_pos hnumeric]
  cases hs : pyInt s <;> simp

/-- On a column that is not numeric a tenant becomes what it denotes. -/
theorem matchTenant_eq_ok {columnType : Option NormalizedType} {place : String} {v l : TenantValue}
    (hcanonical : isNumericColumn columnType = true → ∀ s n, v = .str s → pyInt s = some n →
      s = toString n)
    (h : matchTenant columnType place v = .ok l) : Denotes columnType v l := by
  unfold matchTenant at h
  unfold Denotes
  by_cases hnumeric : isNumericColumn columnType = true
  · rw [if_pos hnumeric]
    rw [if_pos hnumeric] at h
    cases v with
    | int n => exact ⟨n, (Except.ok.inj h).symm, Or.inl rfl⟩
    | str s =>
        cases hs : pyInt s with
        | none => simp [hs] at h
        | some n =>
            simp only [hs, Except.ok.injEq] at h
            rw [hcanonical hnumeric s n rfl hs]
            exact ⟨n, h.symm, Or.inr rfl⟩
  · rw [if_neg hnumeric]
    rw [if_neg hnumeric] at h
    by_cases hstring : columnType = some .string
    · rw [if_pos hstring]
      rw [if_pos hstring] at h
      cases v with
      | int n => exact ⟨_, (Except.ok.inj h).symm, Or.inr ⟨n, rfl, rfl⟩⟩
      | str s => exact ⟨s, (Except.ok.inj h).symm, Or.inl rfl⟩
    · rw [if_neg hstring]
      rw [if_neg hstring] at h
      exact (Except.ok.inj h).symm

/-- Two tenants denote one literal when they are an integer and its numeral. -/
theorem Denotes.apart {columnType : Option NormalizedType} {v w l : TenantValue}
    (hv : Denotes columnType v l) (hw : Denotes columnType w l) : v = w ∨ NumeralPair v w := by
  unfold Denotes at hv hw
  split at hv
  next hnumeric =>
    rw [if_pos hnumeric] at hw
    obtain ⟨n, rfl, hv⟩ := hv
    obtain ⟨m, hm, hw⟩ := hw
    obtain rfl := TenantValue.int.inj hm
    rcases hv with rfl | rfl
    · rcases hw with rfl | rfl
      · exact Or.inl rfl
      · exact Or.inr ⟨n, Or.inl ⟨rfl, rfl⟩⟩
    · rcases hw with rfl | rfl
      · exact Or.inr ⟨n, Or.inr ⟨rfl, rfl⟩⟩
      · exact Or.inl rfl
  next hnumeric =>
    rw [if_neg hnumeric] at hw
    split at hv
    next hstring =>
      rw [if_pos hstring] at hw
      obtain ⟨s, rfl, hv⟩ := hv
      obtain ⟨t, ht, hw⟩ := hw
      obtain rfl := TenantValue.str.inj ht
      rcases hv with rfl | ⟨m, rfl, rfl⟩
      · rcases hw with rfl | ⟨n, rfl, rfl⟩
        · exact Or.inl rfl
        · exact Or.inr ⟨n, Or.inr ⟨rfl, rfl⟩⟩
      · rcases hw with rfl | ⟨n, rfl, hmn⟩
        · exact Or.inr ⟨m, Or.inl ⟨rfl, rfl⟩⟩
        · exact Or.inl (congrArg _ (Int.repr_inj.mp hmn))
    next hstring =>
      rw [if_neg hstring] at hw
      exact Or.inl (hv.symm.trans hw)

theorem tenantLiterals_eq_ok {columnType : Option NormalizedType} {place : String}
    {tenants ls : List TenantValue} (h : tenantLiterals tenants columnType place = .ok ls) :
    (∀ v ∈ tenants, ∃ l ∈ ls, matchTenant columnType place v = .ok l) ∧
      ∀ l ∈ ls, ∃ v ∈ tenants, matchTenant columnType place v = .ok l := by
  obtain ⟨written, hwritten, h⟩ := bind_eq_ok.mp h
  obtain rfl := pure_eq_ok.mp h
  have hall := mapM_eq_ok.mp hwritten
  have hmem : ∀ l, l ∈ (written.dedup.insertionSort fun a b => a.le b) ↔ l ∈ written := by
    intro l
    rw [List.mem_insertionSort, List.mem_dedup]
  constructor
  · intro v hv
    obtain ⟨l, hl, hmatch⟩ := forall₂_mem_left hall hv
    exact ⟨l, (hmem l).mpr hl, hmatch⟩
  · intro l hl
    exact forall₂_mem_right hall ((hmem l).mp hl)

/-! ## The two steps together -/

variable {raw : TenantClaim} {limit : Nat} {columnType : Option NormalizedType} {place : String}

/-- What accepted literals are: each tenant of the claim, as the column's type reads it. -/
theorem scopedLiterals_eq_ok {ls : List TenantValue}
    (h : scopedLiterals raw limit columnType place = .ok ls) :
    (∀ v, raw.Carries v → ∃ l ∈ ls, matchTenant columnType place v = .ok l) ∧
      ∀ l ∈ ls, ∃ v, raw.Carries v ∧ matchTenant columnType place v = .ok l := by
  obtain ⟨tenants, htenants, h⟩ := bind_eq_ok.mp h
  obtain ⟨-, -, rfl⟩ := normalizeTenants_eq_ok.mp htenants
  obtain ⟨htotal, honto⟩ := tenantLiterals_eq_ok h
  constructor
  · intro v hv
    exact htotal v (by rwa [List.mem_insertionSort, mem_values])
  · intro l hl
    obtain ⟨v, hv, hmatch⟩ := honto l hl
    exact ⟨v, by rwa [List.mem_insertionSort, mem_values] at hv, hmatch⟩

/-- The claim is refused: an element is no identifier, there are too many, or `int` does not read
one of its strings. -/
def Refused (raw : TenantClaim) (limit : Nat) : Prop :=
  ¬ raw.Readable ∨ limit < raw.values.length ∨ ∃ s, raw.Carries (.str s) ∧ pyInt s = none

theorem not_refused_of_ok {ls : List TenantValue} (hnumeric : isNumericColumn columnType = true)
    (h : scopedLiterals raw limit columnType place = .ok ls) : ¬ Refused raw limit := by
  obtain ⟨htotal, -⟩ := scopedLiterals_eq_ok h
  obtain ⟨tenants, htenants, -⟩ := bind_eq_ok.mp h
  obtain ⟨hread, hle, -⟩ := normalizeTenants_eq_ok.mp htenants
  rintro (hunread | hlimit | ⟨s, hs, hnone⟩)
  · exact hunread hread
  · omega
  · obtain ⟨l, -, hl⟩ := htotal _ hs
    rw [matchTenant, if_pos hnumeric] at hl
    simp [hnone] at hl

theorem ok_of_not_refused (columnType : Option NormalizedType) (place : String)
    (h : ¬ Refused raw limit) : ∃ ls, scopedLiterals raw limit columnType place = .ok ls := by
  have hread : raw.Readable := by
    by_contra hunread
    exact h (Or.inl hunread)
  have hle : ¬ limit < raw.values.length := fun hlt => h (Or.inr (Or.inl hlt))
  have hmatch : ∀ v ∈ raw.values.insertionSort (fun a b => a.le b),
      ∃ l, matchTenant columnType place v = .ok l := by
    intro v hv
    rw [List.mem_insertionSort, mem_values] at hv
    cases hl : matchTenant columnType place v with
    | ok l => exact ⟨l, rfl⟩
    | error e =>
        obtain ⟨-, s, -, -, rfl, hnone⟩ := matchTenant_error hl
        exact absurd (Or.inr (Or.inr ⟨s, hv, hnone⟩)) h
  obtain ⟨written, hwritten⟩ := exists_mapM_eq_ok hmatch
  refine ⟨written.dedup.insertionSort fun a b => a.le b, ?_⟩
  rw [scopedLiterals, normalizeTenants_of_readable limit hread, if_neg hle, ok_bind,
    tenantLiterals, hwritten, ok_bind]
  rfl

/-- The elements are collected into a set before anything depends on them. -/
theorem scopedLiterals_orderFree {raw' : TenantClaim} (h : ∀ x, x ∈ raw'.items ↔ x ∈ raw.items) :
    SameOutcome (scopedLiterals raw' limit columnType place)
      (scopedLiterals raw limit columnType place) := by
  have hread : raw'.Readable ↔ raw.Readable := by
    unfold TenantClaim.Readable
    simp only [h]
  have hvalues : ∀ v, v ∈ raw'.values ↔ v ∈ raw.values := by
    intro v
    rw [mem_values, mem_values]
    unfold TenantClaim.Carries
    simp only [h]
  by_cases hr : raw.Readable
  · -- both claims have the same identifiers, and so the same list of them
    have hperm : raw'.values.Perm raw.values :=
      (List.perm_ext_iff_of_nodup (List.nodup_dedup _) (List.nodup_dedup _)).mpr hvalues
    have hnormal : normalizeTenants raw' limit = normalizeTenants raw limit := by
      rw [normalizeTenants_of_readable limit hr,
        normalizeTenants_of_readable limit (hread.mpr hr), hperm.length_eq,
        sorted_tenants_congr hperm]
    have hsame : scopedLiterals raw' limit columnType place =
        scopedLiterals raw limit columnType place := by
      rw [scopedLiterals, hnormal]
      rfl
    rw [hsame]
    cases houtcome : scopedLiterals raw limit columnType place with
    | ok ls => exact SameOutcome.literals ls
    | error e =>
        rcases bind_eq_error.mp houtcome with he | ⟨tenants, -, he⟩
        · rw [normalizeTenants_of_readable limit hr] at he
          split at he
          · obtain rfl := Except.error.inj he
            exact SameOutcome.overLimit _
          · cases he
        · rcases bind_eq_error.mp he with he | ⟨written, -, he⟩
          · obtain ⟨v, -, hv⟩ := exists_mem_of_mapM_error he
            obtain ⟨m, -, rfl, -⟩ := matchTenant_error hv
            exact SameOutcome.unresolved m m
          · cases he
  · obtain ⟨m, hm⟩ := normalizeTenants_of_unreadable limit hr
    obtain ⟨m', hm'⟩ := normalizeTenants_of_unreadable limit (mt hread.mp hr)
    rw [scopedLiterals, scopedLiterals, hm, hm', error_bind, error_bind]
    exact SameOutcome.unresolved m' m

/-- On a numeric column every string that `int` reads is the numeral of what it reads, unless the
claim is refused anyway. -/
def NumeralsOnly (raw : TenantClaim) (limit : Nat) (columnType : Option NormalizedType) : Prop :=
  isNumericColumn columnType = true →
    Refused raw limit ∨ ∀ s n, raw.Carries (.str s) → pyInt s = some n → s = toString n

/-- **A claim keeps its identity** where its numbers are written as numerals. -/
theorem keepsIdentity_iff : KeepsIdentity raw limit columnType place ↔
    NumeralsOnly raw limit columnType := by
  constructor
  · intro h hnumeric
    by_cases href : Refused raw limit
    · exact Or.inl href
    · right
      intro s n hs hn
      obtain ⟨ls, hls⟩ := ok_of_not_refused columnType place href
      exact h.numeral ls hls hnumeric s n hs ((matchTenant_numeric_str place hnumeric).mpr hn)
  · intro h
    have hcanonical : ∀ ls, scopedLiterals raw limit columnType place = .ok ls →
        isNumericColumn columnType = true → ∀ s n, raw.Carries (.str s) → pyInt s = some n →
          s = toString n := by
      intro ls hls hnumeric
      rcases h hnumeric with href | hall
      · exact absurd href (not_refused_of_ok hnumeric hls)
      · exact hall
    have hdenotes : ∀ ls, scopedLiterals raw limit columnType place = .ok ls → ∀ v l,
        raw.Carries v → matchTenant columnType place v = .ok l → Denotes columnType v l := by
      intro ls hls v l hv hmatch
      refine matchTenant_eq_ok (fun hnumeric s n heq hn => ?_) hmatch
      exact hcanonical ls hls hnumeric s n (heq ▸ hv) hn
    constructor
    · intro ls hls
      obtain ⟨htotal, honto⟩ := scopedLiterals_eq_ok hls
      constructor
      · intro v hv
        obtain ⟨l, hl, hmatch⟩ := htotal v hv
        exact ⟨l, hl, hdenotes ls hls v l hv hmatch⟩
      · intro l hl
        obtain ⟨v, hv, hmatch⟩ := honto l hl
        exact ⟨v, hv, hdenotes ls hls v l hv hmatch⟩
    · intro ls hls hnumeric s n hs hmatch
      exact hcanonical ls hls hnumeric s n hs ((matchTenant_numeric_str place hnumeric).mp hmatch)
    · intro ls hls v w l hv hw hvl hwl
      exact (hdenotes ls hls v l hv hvl).apart (hdenotes ls hls w l hw hwl)
    · intro raw' hsame
      exact scopedLiterals_orderFree hsame

/-- A claim with `"4711"` and `"4_711"` on an integer column: two tenants, one literal. -/
theorem keepsIdentity_counterexample :
    ¬ KeepsIdentity (.list [.str "4711", .str "4_711"]) defaultMaxTenants (some .int)
      "orders.tenant_id" := by
  intro h
  have hls : scopedLiterals (.list [.str "4711", .str "4_711"]) defaultMaxTenants (some .int)
      "orders.tenant_id" = .ok [.int 4711] := by decide
  have hread : matchTenant (some .int) "orders.tenant_id" (.str "4_711") = .ok (.int 4711) := by
    decide
  have hcarries : TenantClaim.Carries (.list [.str "4711", .str "4_711"]) (.str "4_711") :=
    ⟨.str "4_711", by simp [TenantClaim.items], by decide⟩
  have hnumeral := h.numeral _ hls rfl _ _ hcarries hread
  exact absurd hnumeral (by decide)

end Canonic
