/-!
# Numeric equality of floating-point bit patterns

Two patterns are numerically equal when neither is a NaN and they are the same pattern or both a
zero. So a NaN equals nothing, itself included, and the two zeros are equal.
-/

namespace Residual.Ieee

/-- Numeric equality of two patterns whose sign bit is worth `sign` and whose infinity is
`infinity`. -/
def sameNumber (sign infinity : Nat) (left right : Nat) : Bool :=
  left % sign ≤ infinity && right % sign ≤ infinity &&
    (left == right || (left % sign == 0 && right % sign == 0))

/-- Numeric equality of 32-bit patterns. -/
def same32 (left right : UInt32) : Bool :=
  sameNumber 0x80000000 0x7F800000 left.toNat right.toNat

/-- Numeric equality of 64-bit patterns. -/
def same64 (left right : UInt64) : Bool :=
  sameNumber 0x8000000000000000 0x7FF0000000000000 left.toNat right.toNat

end Residual.Ieee
