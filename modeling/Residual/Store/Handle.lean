/-!
# Handles

A handle names a stored request: the cell that holds it and the generation of the cell at that time.
-/

namespace Residual

/-- The owner's name for a stored request. -/
structure Handle where
  /-- The cell that holds the request. -/
  index : Nat
  /-- How often the cell had been emptied before. -/
  generation : UInt32
  deriving DecidableEq

/-- The handle as messages show it, such as `#0.3`. -/
def Handle.label (handle : Handle) : String :=
  "#" ++ toString handle.index ++ "." ++ toString handle.generation.toNat

end Residual
