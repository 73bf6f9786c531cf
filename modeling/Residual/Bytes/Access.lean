import Residual.Bytes.Cursor
import Residual.InPlace

/-!
# Typed access in place

A window is a byte string with the offset of the next access, a cursor walks through a byte string.
An access checks where it ends before it touches anything, and moves the offset last. Offsets are
64-bit words: an end that no word can state is refused, so that no offset ever wraps around.
-/

namespace Residual

namespace Scalar

/-- Writing changes no length. -/
theorem length_of_writeAt {data written : Bytes} {offset stop : Nat} {value : Scalar}
    (hwrite : writeAt data offset value = .ok (written, stop)) : written.length = data.length := by
  unfold writeAt Bytes.overwrite? at hwrite
  split at hwrite
  next hinside =>
    cases hwrite
    simp only [List.length_append, List.length_take, List.length_drop]
    omega
  next => cases hwrite

end Scalar

/-- A byte string and the offset of the next access. Every place in the string has a 64-bit
number. -/
structure Window where
  data : Bytes
  offset : UInt64
  addressable : data.length < 0x10000000000000000
  deriving DecidableEq

namespace Window

/-- The offset behind a field of `size` bytes. -/
def behind (window : Window) (size : Nat) : Except Error UInt64 :=
  if window.offset.toNat + size < 0x10000000000000000 then
    .ok (.ofNat (window.offset.toNat + size))
  else .error .outOfBounds

/-- The window with a value in place of the bytes at the offset. -/
def patched (window : Window) (value : Scalar) : Except Error Window :=
  match hwrite : Scalar.writeAt window.data window.offset.toNat value with
  | .error error => .error error
  | .ok (data, _) =>
    .ok ⟨data, window.offset, (Scalar.length_of_writeAt hwrite).symm ▸ window.addressable⟩

/-- Reads the value of type `type` at the offset, and moves the offset behind it. -/
def read (type : ScalarType) : InPlace Window Scalar := do
  let window ← get
  let stop ← window.behind type.size
  let (value, _) ← Scalar.readAt type window.data window.offset.toNat
  set { window with offset := stop }
  pure value

/-- Writes a value at the offset, and moves the offset behind it. -/
def write (value : Scalar) : InPlace Window Unit := do
  let window ← get
  let stop ← window.behind value.type.size
  let filled ← window.patched value
  set filled
  set { filled with offset := stop }

end Window

/-- What can be asked of a cursor. -/
inductive CursorCommand where
  | bytes (count : UInt64)
  | scalar (type : ScalarType)
  deriving DecidableEq

/-- What a cursor answers. -/
inductive CursorReply where
  | bytes (field : Bytes)
  | scalar (value : Scalar)
  deriving DecidableEq

/-- How many bytes a command asks for. -/
def CursorCommand.size : CursorCommand → Nat
  | bytes count => count.toNat
  | scalar type => type.size

namespace Cursor

/-- The answer to a command and the cursor behind it. -/
def answer (cursor : Cursor) : CursorCommand → Except Error (CursorReply × Cursor)
  | .bytes count => do
    let (field, next) ← cursor.bytes count.toNat
    pure (.bytes field, next)
  | .scalar type => do
    let (value, next) ← cursor.scalar type
    pure (.scalar value, next)

/-- Answers a command, and moves the cursor behind what was read. -/
def step (command : CursorCommand) : InPlace Cursor CursorReply := do
  let cursor ← get
  let (reply, next) ← cursor.answer command
  set next
  pure reply

end Cursor

end Residual
