import Residual.Bytes.Basic

/-!
# Identity keys

A specialization is identified by the function it belongs to and the argument bytes it was made for.
Keys are ordered by function, then by the argument bytes from the first on, and a buffer comes
before its extensions.
-/

namespace Residual

/-- What identifies a specialization. -/
structure Key where
  funcId : UInt32
  args : Bytes
  deriving DecidableEq

namespace Key

/-- The order of keys. -/
def order (left right : Key) : Ordering :=
  (compare left.funcId right.funcId).then (compare left.args right.args)

end Key

end Residual
