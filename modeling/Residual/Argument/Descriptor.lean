import Residual.Bytes.Ieee
import Residual.Bytes.Scalar

/-!
# Argument descriptors

A descriptor says what is known about one argument of a call. Its encoding is a sixteen-byte record,
the flag word, the tag and eight value bytes, followed for a memory region by the region's bytes and
zero padding up to a multiple of eight. The encoding is canonical: unused bytes are zero.
-/

namespace Residual

/-- What a request records about one argument. Floating-point values are bit patterns. -/
inductive Descriptor where
  /-- Nothing is known: the argument stays an argument. -/
  | runtime
  | i32 (value : UInt32)
  | i64 (value : UInt64)
  | f32 (pattern : UInt32)
  | f64 (pattern : UInt64)
  /-- The contents of a memory region. -/
  | buffer (data : Bytes)
  deriving DecidableEq

namespace Descriptor

/-- The size of a record without the bytes of a memory region. -/
def recordSize : Nat := 16

theorem recordSize_lt : recordSize < 0x10000000000000000 := by simp [recordSize]

/-- The kind of a descriptor. -/
def kind : Descriptor → ArgKind
  | runtime => .runtime
  | i32 _ => .i32
  | i64 _ => .i64
  | f32 _ => .f32
  | f64 _ => .f64
  | buffer _ => .buffer

/-- Whether the argument is specialized on. -/
def isSpecialized (descriptor : Descriptor) : Bool := descriptor.kind.isSpecialized

/-- A 32-bit length rounded up to a multiple of eight, staying within 32 bits. -/
def paddedLength (length : UInt32) : UInt32 :=
  UInt32.ofNat (min (length.toNat + 7) 0xFFFFFFFF / 8 * 8)

/-- The scalars of a value, or the two lengths of a memory region. -/
def values : Descriptor → List Scalar
  | runtime => []
  | i32 value => [.u32 value]
  | i64 value => [.u64 value]
  | f32 bits => [.f32 bits]
  | f64 bits => [.f64 bits]
  | buffer data => [.u32 (.ofNat data.length), .u32 (paddedLength (.ofNat data.length))]

/-- The scalars of a record, one behind the other. What they leave of the record is zero. -/
def fields (descriptor : Descriptor) : List Scalar :=
  .u32 (flagWord descriptor.isSpecialized) :: .u32 descriptor.kind.tag :: descriptor.values

/-- The bytes that follow the record, without their padding. -/
def inlineData : Descriptor → Bytes
  | buffer data => data
  | _ => []

/-- The size of the encoding. -/
def encodedSize : Descriptor → Nat
  | buffer data => recordSize + Bytes.roundUp data.length
  | _ => recordSize

/-- Equality of what two descriptors say, where floating-point values are compared as numbers. -/
def sameValue : Descriptor → Descriptor → Bool
  | f32 left, f32 right => Ieee.same32 left right
  | f64 left, f64 right => Ieee.same64 left right
  | left, right => left == right

end Descriptor

end Residual
