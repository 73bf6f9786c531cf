import Residual.Bytes.Scalar

/-!
# Cursors

A cursor walks through a byte string from its start. A refused read leaves it where it stands.
-/

namespace Residual

/-- A position in a byte string and the bytes from there on. -/
structure Cursor where
  position : Nat
  rest : Bytes
  deriving DecidableEq

namespace Cursor

/-- The cursor at the start of `data`. -/
def start (data : Bytes) : Cursor := ⟨0, data⟩

/-- Whether any byte is left. -/
def hasMore (cursor : Cursor) : Bool := !cursor.rest.isEmpty

/-- The next `count` bytes and the cursor behind them. -/
def bytes (cursor : Cursor) (count : Nat) : Except Error (Bytes × Cursor) := do
  let (taken, rest) ← Error.ofAccess (cursor.rest.split? count)
  pure (taken, ⟨cursor.position + count, rest⟩)

/-- The next value of type `type` and the cursor behind it. -/
def scalar (cursor : Cursor) (type : ScalarType) : Except Error (Scalar × Cursor) := do
  let (field, cursor) ← cursor.bytes type.size
  pure (type.ofPattern (LittleEndian.decode field), cursor)

/-- The next 32-bit word and the cursor behind it. -/
def word32 (cursor : Cursor) : Except Error (UInt32 × Cursor) := do
  let (field, cursor) ← cursor.bytes 4
  pure (UInt32.ofNat (LittleEndian.decode field), cursor)

end Cursor

end Residual
