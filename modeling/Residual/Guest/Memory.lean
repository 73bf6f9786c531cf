import Residual.Bytes.Scalar

/-!
# Guest memory

A stretch of 32-bit guest memory: some bytes and the guest address of the first of them. Reads below
that address or beyond the last byte are out of bounds. Address zero is the null pointer.
-/

namespace Residual.Guest

/-- Bytes at a guest address. -/
structure Memory where
  base : UInt32
  data : Bytes
  deriving DecidableEq

/-- What stands behind the name of a memory image. -/
inductive Backing where
  | file (data : Bytes)
  | missing
  /-- It can be opened, but there is nothing to map. -/
  | directory
  deriving DecidableEq

namespace Memory

/-- The memory image behind a name, placed at `base`. -/
def load (backing : Backing) (base : UInt32) : Except Error Memory :=
  match backing with
  | .file data => .ok ⟨base, data⟩
  | .missing => .error .fileMissing
  | .directory => .error .fileNotMappable

/-- The `count` bytes at a guest address. -/
def slice (memory : Memory) (address count : Nat) : Except Error Bytes :=
  if memory.base.toNat ≤ address then
    Error.ofAccess (memory.data.slice? (address - memory.base.toNat) count)
  else .error .outOfBounds

/-- The bytes that a pointer and a length describe. A length of zero describes no bytes, wherever
the pointer points. -/
def region (memory : Memory) (address count : UInt32) : Except Error Bytes :=
  if count = 0 then .ok [] else memory.slice address.toNat count.toNat

end Memory

/-- Whether `size` bytes at `base` end within the 32-bit address space. -/
def fits (base : UInt32) (size : Nat) : Bool := base.toNat + size < 0x100000000

end Residual.Guest
