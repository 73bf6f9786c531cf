import Residual.Bytes.LittleEndian
import Residual.Error

/-!
# Typed scalars

The eight fixed-width values that are read from and written to memory. Floating-point values are
their bit patterns, so every NaN payload and both zeros survive a round trip.
-/

namespace Residual

/-- The type of a fixed-width value. -/
inductive ScalarType where
  | u8
  | u16
  | u32
  | u64
  | i32
  | i64
  | f32
  | f64
  deriving DecidableEq

/-- A fixed-width value with its type. -/
inductive Scalar where
  | u8 (value : UInt8)
  | u16 (value : UInt16)
  | u32 (value : UInt32)
  | u64 (value : UInt64)
  | i32 (value : Int32)
  | i64 (value : Int64)
  | f32 (pattern : UInt32)
  | f64 (pattern : UInt64)
  deriving DecidableEq

namespace ScalarType

/-- The number of bytes of a value of this type. -/
def size : ScalarType → Nat
  | u8 => 1
  | u16 => 2
  | u32 | i32 | f32 => 4
  | u64 | i64 | f64 => 8

theorem size_lt (type : ScalarType) : type.size < 0x10000000000000000 := by
  cases type <;> simp [size]

/-- The value of this type with the given bit pattern; signed values are in two's complement. -/
def ofPattern : ScalarType → Nat → Scalar
  | u8, pattern => .u8 (.ofNat pattern)
  | u16, pattern => .u16 (.ofNat pattern)
  | u32, pattern => .u32 (.ofNat pattern)
  | u64, pattern => .u64 (.ofNat pattern)
  | i32, pattern => .i32 (UInt32.ofNat pattern).toInt32
  | i64, pattern => .i64 (UInt64.ofNat pattern).toInt64
  | f32, pattern => .f32 (.ofNat pattern)
  | f64, pattern => .f64 (.ofNat pattern)

end ScalarType

namespace Scalar

/-- The type of a value. -/
def type : Scalar → ScalarType
  | u8 _ => .u8
  | u16 _ => .u16
  | u32 _ => .u32
  | u64 _ => .u64
  | i32 _ => .i32
  | i64 _ => .i64
  | f32 _ => .f32
  | f64 _ => .f64

/-- The bit pattern of a value as a natural number. -/
def pattern : Scalar → Nat
  | u8 value => value.toNat
  | u16 value => value.toNat
  | u32 value => value.toNat
  | u64 value => value.toNat
  | i32 value => value.toUInt32.toNat
  | i64 value => value.toUInt64.toNat
  | f32 bits => bits.toNat
  | f64 bits => bits.toNat

/-- The little-endian bytes of a value. -/
def encode (value : Scalar) : Bytes := LittleEndian.encode value.type.size value.pattern

/-- The value of type `type` at `offset`, with the offset just behind it. -/
def readAt (type : ScalarType) (data : Bytes) (offset : Nat) : Except Error (Scalar × Nat) := do
  let field ← Error.ofAccess (data.slice? offset type.size)
  pure (type.ofPattern (LittleEndian.decode field), offset + type.size)

/-- The data with `value` written at `offset`, and the offset just behind it. -/
def writeAt (data : Bytes) (offset : Nat) (value : Scalar) : Except Error (Bytes × Nat) := do
  let written ← Error.ofAccess (data.overwrite? offset value.encode)
  pure (written, offset + value.type.size)

theorem length_encode (value : Scalar) : value.encode.length = value.type.size :=
  LittleEndian.length_encode _ _

theorem ofPattern_pattern (value : Scalar) : value.type.ofPattern value.pattern = value := by
  cases value <;> simp [type, pattern, ScalarType.ofPattern]

end Scalar

namespace Bytes

/-- The four bytes of a 32-bit word. -/
def word32 (word : UInt32) : Bytes := LittleEndian.encode 4 word.toNat

/-- The eight bytes of a 64-bit word. -/
def word64 (word : UInt64) : Bytes := LittleEndian.encode 8 word.toNat

/-- The bytes of a sequence of 32-bit words. -/
def words (sequence : List UInt32) : Bytes := sequence.flatMap word32

/-- The 32-bit word spelled by the four bytes from `offset`; bytes beyond the end count as zero. -/
def wordAt (data : Bytes) (offset : Nat) : UInt32 :=
  UInt32.ofNat (LittleEndian.decode ((data.drop offset).take 4))

end Bytes

end Residual
