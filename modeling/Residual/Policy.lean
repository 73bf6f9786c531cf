/-!
# Policies

How much a request may hold and what a session checks.
-/

namespace Residual

/-- The limits and checks of a session. -/
structure Policy where
  /-- The most bytes an argument buffer may hold; `Policy.hardLimit` caps it. -/
  maxArgBytes : UInt64 := 1048576
  /-- The capacity that the first growth of an argument buffer asks for. -/
  initialCapacity : UInt64 := 1024
  /-- Whether a drafted request must describe as many arguments as its target takes. -/
  checkArity : Bool := true
  /-- Whether a lookup table must be strictly sorted to be installed. -/
  validateTable : Bool := true
  deriving DecidableEq

namespace Policy

/-- No argument buffer holds more bytes than this, whatever the policy. -/
def hardLimit : Nat := 1048576

/-- Every check, and the largest buffers. -/
def standard : Policy := {}

/-- No checks. -/
def minimal : Policy := { checkArity := false, validateTable := false }

/-- Every check, and buffers of at most 64 KiB. -/
def strict : Policy := { maxArgBytes := 65536 }

/-- The policy with argument buffers of at most `bytes`, capped. -/
def withMaxArgBytes (policy : Policy) (bytes : UInt64) : Policy :=
  { policy with maxArgBytes := if bytes.toNat ≤ hardLimit then bytes else 1048576 }

/-- The most bytes an argument buffer holds under this policy. -/
def argLimit (policy : Policy) : Nat := min policy.maxArgBytes.toNat hardLimit

end Policy

end Residual
