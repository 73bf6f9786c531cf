import Residual.Function.Ref
import Residual.Lookup.Key

/-!
# Requests and slots

A request asks for a function to be specialized for the arguments of one call site. The specialized
function arrives in a slot; several requests may share one. What the slots hold is kept in one
place, apart from the requests, so that sharing needs no more than an equal slot number.
-/

namespace Residual

/-- The number of a slot. -/
structure SlotId where
  number : Nat
  deriving DecidableEq

/-- What every slot holds. -/
structure Slots where
  read : SlotId → Option FuncRef

namespace Slots

/-- Every slot is empty. -/
def empty : Slots := ⟨fun _ => none⟩

/-- The slots after a function was written to one of them. -/
def write (slots : Slots) (slot : SlotId) (func : FuncRef) : Slots :=
  ⟨fun other => if other = slot then some func else slots.read other⟩

/-- The function to call through a slot: what it holds, or else the generic function. -/
def target (slots : Slots) (slot : SlotId) (generic : FuncRef) : FuncRef :=
  (slots.read slot).getD generic

@[simp] theorem read_empty (slot : SlotId) : empty.read slot = none := rfl

@[simp] theorem read_write_self (slots : Slots) (slot : SlotId) (func : FuncRef) :
    (slots.write slot func).read slot = some func := by
  simp [write]

theorem read_write_of_ne (slots : Slots) (slot other : SlotId) (func : FuncRef) (h : other ≠ slot) :
    (slots.write slot func).read other = slots.read other := by
  simp [write, h]

end Slots

/-- A request for a specialized function. -/
structure Request where
  /-- The caller's stable name for the function. -/
  funcId : UInt32
  /-- The function that serves every argument. -/
  generic : FuncRef
  /-- The encoded arguments. -/
  args : Bytes
  /-- Where the specialized function is to be written. -/
  slot : SlotId
  deriving DecidableEq

/-- The key that a request is looked up by. -/
def Request.key (request : Request) : Key := ⟨request.funcId, request.args⟩

/-- A place in a program that calls a function through a slot. -/
structure CallSite where
  funcId : UInt32
  generic : FuncRef
  /-- The number of arguments that the function takes. -/
  arity : Nat
  slot : SlotId
  deriving DecidableEq

/-- The request of a call site for encoded arguments. -/
def CallSite.request (site : CallSite) (args : Bytes) : Request :=
  ⟨site.funcId, site.generic, args, site.slot⟩

end Residual
