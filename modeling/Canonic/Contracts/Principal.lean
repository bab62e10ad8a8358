import Mathlib
import Canonic.Contracts.Models
import Canonic.Exc

set_option autoImplicit false

/-! # Principals and effective policies

`contracts/principal.py`: the verified identity of a caller, and its roles flattened into one
allow/deny surface. -/

namespace Canonic

/-- One tenant identifier as carried by a claim. -/
inductive TenantValue where
  | int (n : Int)
  | str (s : String)
  deriving DecidableEq, Repr

/-- `repr` of a tenant value. -/
def TenantValue.repr : TenantValue → String
  | int n => toString n
  | str s => pyRepr s

/-- `tenant_sort_key`: numbers first, then strings. -/
def TenantValue.le : TenantValue → TenantValue → Bool
  | int m, int n => m ≤ n
  | int _, str _ => true
  | str _, int _ => false
  | str s, str t => s ≤ t

/-- A caller's verified identity. -/
structure Principal where
  tenants : List TenantValue := []
  roles : List String := []
  systemExempt : Bool := false
  deriving DecidableEq, Repr

/-- A principal's roles flattened into one surface. -/
structure EffectivePolicy where
  allowMetrics : List String
  denyMetrics : List String
  allowDimensions : List String
  denyDimensions : List String
  allowTags : List String
  runSql : Bool
  tenancyExempt : Bool
  masking : List MaskingRule := []
  roles : List String := []
  deriving DecidableEq, Repr

namespace EffectivePolicy

/-- `metric_allowed`: granted by some assigned role and denied by none. -/
def metricAllowed (p : EffectivePolicy) (name : String) : Bool :=
  if name ∈ p.denyMetrics then false
  else "*" ∈ p.allowMetrics || name ∈ p.allowMetrics

/-- `dimension_allowed`: a qualified name is matched on its full form and on its last part. -/
def dimensionAllowed (p : EffectivePolicy) (name : String) : Bool :=
  let bare := lastComponent name
  if name ∈ p.denyDimensions ∨ bare ∈ p.denyDimensions then false
  else "*" ∈ p.allowDimensions || name ∈ p.allowDimensions || bare ∈ p.allowDimensions

end EffectivePolicy

/-! ## `int()` of a text -/

/-- The code points of the digit zero of every decimal digit range. -/
def decimalZeros : List Nat :=
  [48, 1632, 1776, 1984, 2406, 2534, 2662, 2790, 2918, 3046, 3174, 3302, 3430, 3558, 3664, 3792,
   3872, 4160, 4240, 6112, 6160, 6470, 6608, 6784, 6800, 6992, 7088, 7232, 7248, 42528, 43216,
   43264, 43472, 43504, 43600, 44016, 65296, 66720, 68912, 69734, 69872, 69942, 70096, 70384,
   70736, 70864, 71248, 71360, 71472, 71904, 72016, 72784, 73040, 73120, 73552, 92768, 92864,
   93008, 120782, 120792, 120802, 120812, 120822, 123200, 123632, 124144, 125264, 130032]

/-- The value of a decimal digit. -/
def decimalDigit (c : Char) : Option Nat :=
  (decimalZeros.find? fun z => z ≤ c.toNat ∧ c.toNat ≤ z + 9).map fun z => c.toNat - z

/-- The characters `str.strip` removes. -/
def isPySpace (c : Char) : Bool :=
  c.toNat ∈ [9, 10, 11, 12, 13, 28, 29, 30, 31, 32, 133, 160, 5760, 8192, 8193, 8194, 8195, 8196,
    8197, 8198, 8199, 8200, 8201, 8202, 8232, 8233, 8239, 8287, 12288]

/-- Decimal digits, with single underscores between them. -/
def pyDigits : List Char → Bool → Nat → Option Nat
  | [], afterDigit, acc => if afterDigit then some acc else none
  | c :: cs, afterDigit, acc =>
      if c = '_' then (if afterDigit then pyDigits cs false acc else none)
      else (decimalDigit c).bind fun d => pyDigits cs true (10 * acc + d)

/-- The characters `int` skips at both ends: those of `str.strip` but the four separators. -/
def isIntSpace (c : Char) : Bool := isPySpace c && !(28 ≤ c.toNat && c.toNat ≤ 31)

/-- The digits `int` reads from a text at most. -/
def maxStrDigits : Nat := 4300

/-- Python's `int(text)`; `none` is a `ValueError`. -/
def pyInt (text : String) : Option Int :=
  if maxStrDigits < text.toList.countP fun c => (decimalDigit c).isSome then none
  else
    match (((text.toList.dropWhile isIntSpace).reverse).dropWhile isIntSpace).reverse with
    | '-' :: ds => (pyDigits ds false 0).map fun n => -(n : Int)
    | '+' :: ds => (pyDigits ds false 0).map fun n => (n : Int)
    | ds => (pyDigits ds false 0).map fun n => (n : Int)

example : pyInt " 4_711 " = some 4711 ∧ pyInt "-7" = some (-7) ∧ pyInt "4__7" = none := by decide

/-! ## Tenant claims -/

/-- One element of a tenant claim: a float by its value, `none` when it is not finite; a value of
any other type by the name of its type. -/
inductive RawTenant where
  | null
  | bool (b : Bool)
  | int (n : Int)
  | float (q : Option Rat)
  | str (s : String)
  | other (typeName : String)
  deriving DecidableEq, Repr

/-- A raw tenant claim: one value, or a list or tuple of them. -/
inductive TenantClaim where
  | scalar (x : RawTenant)
  | list (xs : List RawTenant)
  deriving DecidableEq, Repr

/-- The elements of a claim. -/
def TenantClaim.items : TenantClaim → List RawTenant
  | scalar x => [x]
  | list xs => xs

/-- The refusal of a value that cannot be a tenant identifier. -/
def tenantTypeError (typeName : String) : Err :=
  .tenantUnresolved s!"tenant claim contains a {typeName} value, expected a string or integer"

/-- `_tenant_element`: the identifier of an element, `none` when it is null or blank. -/
def tenantElement : RawTenant → Except Err (Option TenantValue)
  | .null => .ok none
  | .bool _ => .error (.tenantUnresolved
      "tenant claim contains a boolean, expected a string or integer")
  | .int n => .ok (some (.int n))
  | .float q =>
      match q.filter (·.isInt) with
      | some r => .ok (some (.int r.num))
      | none => .error (tenantTypeError "float")
  | .str s => .ok (if s.toList.all isPySpace then none else some (.str s))
  | .other typeName => .error (tenantTypeError typeName)

/-- `DEFAULT_MAX_TENANTS`. -/
def defaultMaxTenants : Nat := 100

/-- `normalize_tenants`: the distinct identifiers of a claim, in order. -/
def normalizeTenants (raw : TenantClaim) (limit : Nat := defaultMaxTenants) :
    Except Err (List TenantValue) := do
  let found ← raw.items.mapM tenantElement
  let values := (found.filterMap id).dedup
  if limit < values.length then
    .error (.tenantLimitExceeded (s!"tenant claim carries {values.length} distinct values, more " ++
      s!"than the allowed {limit} (mcp.auth.max_tenants)"))
  else return values.insertionSort fun a b => a.le b

end Canonic
