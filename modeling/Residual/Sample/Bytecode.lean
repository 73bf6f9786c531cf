import Residual.Session.Basic

/-!
# A bytecode program

A sample program with a generic interpreter and one specialized function. A call site runs some
bytecode on an input; it asks for a function specialized for the bytecode and its length, and leaves
the input to the time of the call.
-/

namespace Residual.Sample.Bytecode

/-- The interpreter: folds the code into the input. -/
def interpret (code : Bytes) (input : UInt64) : UInt64 :=
  code.foldl (fun state byte => state * 3 + byte.toUInt64) input

/-- The specialized function. -/
def fast (code : Bytes) (input : UInt64) : UInt64 := input * 1000003 + .ofNat code.length

/-- The reference of the interpreter. -/
def interpretRef : FuncRef := ⟨1, fun h => Nat.succ_ne_zero 0 (congrArg UInt64.toNat h)⟩

/-- The reference of the specialized function. -/
def fastRef : FuncRef := ⟨2, fun h => Nat.succ_ne_zero 1 (congrArg UInt64.toNat h)⟩

/-- The function that the program exports under an index. -/
def exported? : Nat → Option FuncRef
  | 1 => some interpretRef
  | 2 => some fastRef
  | _ => none

/-- The name of a function of the program. -/
def name (func : FuncRef) : String := if func = fastRef then "fast" else "interpret"

/-- Calls a function of the program. -/
def call (func : FuncRef) (code : Bytes) (input : UInt64) : UInt64 :=
  if func = fastRef then fast code input else interpret code input

/-- The call site that runs code with a given function id through a given slot. -/
def site (funcId : UInt32) (slot : SlotId) : CallSite := ⟨funcId, interpretRef, 3, slot⟩

/-- The operands of a call: the code, its length and an input that is not known yet. -/
def operands (code : Bytes) : List Operand := [.memory code, .u32 (.ofNat code.length), .runtime]

end Residual.Sample.Bytecode
