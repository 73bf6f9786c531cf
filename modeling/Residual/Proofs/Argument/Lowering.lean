import Residual.Argument.Operand
import Residual.Proofs.Argument.Growth

/-!
# What operands are lowered to

The record of an operand is stated here in terms of the calling program: which tag a value of each
type gets, and which bits. Values of 32 bits share a tag and so do values of 64 bits, whether they
are signed or not; a truth value is the word one or zero.
-/

namespace Residual

namespace Operand

/-- The record of a value that is specialized on: flag, tag and the bits of the value. -/
def valueRecord (tag bits : Nat) : Bytes :=
  Bytes.digits 4 1 ++ Bytes.digits 4 tag ++ Bytes.digits 8 bits

/-- What an operand contributes to the arguments of a request. -/
def record : Operand → Bytes
  | runtime => Bytes.digits 4 0 ++ Bytes.digits 4 255 ++ Bytes.digits 8 0
  | u32 value => valueRecord 0 value.toNat
  | i32 value => valueRecord 0 (value.toInt % 0x100000000).toNat
  | bool value => valueRecord 0 (if value then 1 else 0)
  | u64 value => valueRecord 1 value.toNat
  | i64 value => valueRecord 1 (value.toInt % 0x10000000000000000).toNat
  | f32 bits => valueRecord 2 bits.toNat
  | f64 bits => valueRecord 3 bits.toNat
  | memory data =>
    Bytes.digits 4 1 ++ Bytes.digits 4 4 ++
      (Bytes.digits 4 data.length ++ Bytes.digits 4 ((data.length + 7) / 8 * 8)) ++
      (data ++ List.replicate ((data.length + 7) / 8 * 8 - data.length) 0)

/-- The size of what an operand contributes: a record, and a memory region with its padding. -/
def size : Operand → Nat
  | memory data => 16 + (data.length + 7) / 8 * 8
  | _ => 16

/-- The size of what a list of operands contributes. -/
def totalSize (operands : List Operand) : Nat :=
  operands.foldr (fun operand total => operand.size + total) 0

/-- Lowering decides the kind, the width and the bits of every operand: the canonical form of what
it is lowered to is its record. -/
theorem canonical_lower (operand : Operand) : operand.lower.canonical = operand.record := by
  have hvalue : ∀ descriptor : Descriptor, descriptor ≠ .runtime →
      descriptor.canonicalInline = [] → descriptor.canonical =
        Bytes.digits 4 1 ++ Bytes.digits 4 descriptor.canonicalTag ++
          descriptor.canonicalValue := by
    intro descriptor hspecialized hinline
    rw [Descriptor.canonical, if_neg hspecialized, hinline, List.append_nil]
  cases operand with
  | runtime => rfl
  | u32 value => exact hvalue _ Descriptor.noConfusion rfl
  | i32 value =>
      rw [record, ← Scalar.toNat_toUInt32]
      exact hvalue _ Descriptor.noConfusion rfl
  | bool value =>
      cases value with
      | false => rfl
      | true => rfl
  | u64 value => exact hvalue _ Descriptor.noConfusion rfl
  | i64 value =>
      rw [record, ← Scalar.toNat_toUInt64]
      exact hvalue _ Descriptor.noConfusion rfl
  | f32 bits => exact hvalue _ Descriptor.noConfusion rfl
  | f64 bits => exact hvalue _ Descriptor.noConfusion rfl
  | memory data =>
      rw [lower, Descriptor.canonical, if_neg Descriptor.noConfusion]
      rfl

theorem canonicalAll_lower (operands : List Operand) :
    Descriptor.canonicalAll (operands.map lower) = operands.flatMap record := by
  rw [Descriptor.canonicalAll, List.flatMap_map]
  exact congrArg (List.flatMap · operands) (funext canonical_lower)

theorem totalSize_lower (operands : List Operand) :
    Descriptor.totalSize (operands.map lower) = totalSize operands := by
  have hsize : ∀ operand : Operand, operand.lower.canonicalSize = operand.size := by
    intro operand
    cases operand <;> rfl
  induction operands with
  | nil => rfl
  | cons operand rest ih =>
      change operand.lower.canonicalSize + Descriptor.totalSize (rest.map lower) =
        operand.size + totalSize rest
      rw [hsize, ih]

end Operand

end Residual
