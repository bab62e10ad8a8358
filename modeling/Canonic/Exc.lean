import Mathlib

set_option autoImplicit false

/-! # Errors

The error registry (`exc.py`): one constructor per code that compilation or a decomposition can
raise, each with its message and the candidates a caller can act on. A Python exception that
is no registry error (a key missing from a dictionary, a value error of a library) is
`Err.internal`. -/

namespace Canonic

/-- One route of an ambiguous join, as it is offered to the caller. -/
structure JoinPathCandidate where
  via : List String
  route : String
  joins : List (List (String × String))
  deriving DecidableEq, Repr

inductive Err where
  | unresolved (message : String)
  | ambiguous (message : String) (candidates : List String)
  | unreachable (message : String) (candidates : List String)
  | ambiguousJoinPath (message owner target : String) (candidates : List JoinPathCandidate)
  | unsupportedMeasure (message : String)
  | fanoutUnsafe (message : String)
  | guardrailBlock (message : String) (candidates : List String)
  | validationFailed (message : String)
  | tenantUnresolved (message : String)
  | tenantLimitExceeded (message : String)
  | tenantScopeMissing (message : String)
  | decompositionInconsistent (message : String)
  | unsupportedDialect (dialect : String)
  | parseError (sql : String)
  | internal (message : String)
  deriving DecidableEq, Repr

/-- The message an error carries. -/
def Err.message : Err → String
  | .unresolved m | .unsupportedMeasure m | .fanoutUnsafe m | .validationFailed m
  | .tenantUnresolved m | .tenantLimitExceeded m | .tenantScopeMissing m
  | .decompositionInconsistent m | .internal m => m
  | .ambiguous m _ | .unreachable m _ | .guardrailBlock m _ => m
  | .ambiguousJoinPath m _ _ _ => m
  | .unsupportedDialect d => d
  | .parseError s => s

end Canonic
