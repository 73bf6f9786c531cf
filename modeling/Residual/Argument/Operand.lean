import Residual.Argument.Descriptor

/-!
# Operands

What a call site says about one argument of a call, in the types of the calling program. Lowering
fixes the descriptor of each: a 32-bit value always becomes a 32-bit record, signed values keep
their two's complement pattern, and there is one descriptor for each intent.
-/

namespace Residual

/-- What a call site says about one argument. -/
inductive Operand where
  /-- The argument is not specialized on. -/
  | runtime
  | u32 (value : UInt32)
  | i32 (value : Int32)
  | bool (value : Bool)
  | u64 (value : UInt64)
  | i64 (value : Int64)
  | f32 (pattern : UInt32)
  | f64 (pattern : UInt64)
  /-- The argument points to a memory region with these contents. -/
  | memory (data : Bytes)
  deriving DecidableEq

/-- The descriptor that records an operand. -/
def Operand.lower : Operand → Descriptor
  | runtime => .runtime
  | u32 value => .i32 value
  | i32 value => .i32 value.toUInt32
  | bool value => .i32 (if value then 1 else 0)
  | u64 value => .i64 value
  | i64 value => .i64 value.toUInt64
  | f32 bits => .f32 bits
  | f64 bits => .f64 bits
  | memory data => .buffer data

end Residual
