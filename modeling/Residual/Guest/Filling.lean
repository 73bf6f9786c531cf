import Residual.Function.Numbering
import Residual.Guest.Memory
import Residual.InPlace

/-!
# Filling memory images

An image starts as zeros and is filled in place. Every step checks what it relies on by itself: that
an address or a length is a 32-bit number, that a write stays inside the image, that a function has
an index. The function table keeps what it learns even if a later step fails.
-/

namespace Residual.Guest

/-- The index of a function in the table that an image is filled with. -/
def indexOf {Funcs : Type} [FuncTable Funcs] (func : FuncRef) : InPlace Funcs UInt32 :=
  ExceptT.mk fun funcs => FuncTable.assign funcs func

/-- The guest address `offset` bytes behind the base of an image. -/
def addressAt (base : UInt32) (offset : Nat) : Except Error UInt32 :=
  if fits base offset then .ok (.ofNat (base.toNat + offset))
  else .error (.malformed .addressSpace)

/-- The pointer to argument bytes at an offset; null if there are none. -/
def argPointer (base : UInt32) (args : Bytes) (offset : Nat) : Except Error UInt32 :=
  if args.isEmpty then .ok 0 else addressAt base offset

/-- The length of argument bytes as a word. -/
def argLength (args : Bytes) : Except Error UInt32 :=
  if args.length < 0x100000000 then .ok (.ofNat args.length)
  else .error (.malformed (.longArguments args.length))

/-- The image with words written one after the other from an offset on, and the offset behind
them. -/
def writeWords : (image : Bytes) → (offset : Nat) → List UInt32 → Except Error (Bytes × Nat)
  | image, offset, [] => .ok (image, offset)
  | image, offset, word :: rest =>
    match Scalar.writeAt image offset (.u32 word) with
    | .error error => .error error
    | .ok (image, offset) => writeWords image offset rest

/-- The image with bytes copied to an offset. -/
def copyAt (image : Bytes) (offset : Nat) (bytes : Bytes) : Except Error Bytes :=
  Error.ofAccess (image.overwrite? offset bytes)

end Residual.Guest
