import Residual.Argument.Buffer

/-!
# Memory regions

The length of a memory region is known without a look at what it holds. A region is described in
this order: its length is checked, room is found for it, and only then is it read. No byte of a
region that is refused is touched.
-/

namespace Residual

/-- A memory region that is still to be read. -/
structure Region where
  length : Nat
  read : Unit → Bytes
  length_read : (read ()).length = length

namespace Region

/-- The region that holds some bytes. -/
def ofBytes (data : Bytes) : Region := ⟨data.length, fun _ => data, rfl⟩

/-- The region in which every byte follows from its place. -/
def generate (length : Nat) (byte : Nat → UInt8) : Region :=
  ⟨length, fun _ => (List.range length).map byte, by rw [List.length_map, List.length_range]⟩

/-- One region with another behind it. -/
def append (first second : Region) : Region :=
  ⟨first.length + second.length, fun _ => first.read () ++ second.read (), by
    rw [List.length_append, first.length_read, second.length_read]⟩

/-- What a request records about the region. -/
def descriptor (region : Region) : Descriptor := .buffer (region.read ())

end Region

namespace ArgBuffer

open InPlace

/-- Adds the record of a memory region and its bytes. -/
def describeRegion (region : Region) : InPlace ArgBuffer Unit := do
  let buffer ← get
  if region.length < 0x100000000 then
    let _ ← buffer.reserve (Descriptor.recordSize + Bytes.roundUp region.length)
    describe region.descriptor
  else throw (.capacityExceeded region.length buffer.limit)

/-- What is reported when a memory region is about to be added. -/
def describeRegionEvents (buffer : ArgBuffer) (region : Region) : List Event :=
  if region.length < 0x100000000 then [.encoding .buffer buffer.size] else []

/-- Reading a region last adds what reading it first adds. -/
theorem outcome_describeRegion (buffer : ArgBuffer) (region : Region) :
    (describeRegion region).outcome buffer = (describe region.descriptor).outcome buffer := by
  rw [describeRegion, outcome_get_bind]
  by_cases hshort : region.length < 0x100000000
  · have hnone : overlong? region.descriptor = none :=
      if_pos (by rw [region.length_read]; exact hshort)
    have hsize : region.descriptor.encodedSize =
        Descriptor.recordSize + Bytes.roundUp region.length := by
      rw [← region.length_read]
      rfl
    rw [if_pos hshort, ← hsize]
    cases hreserve : buffer.reserve region.descriptor.encodedSize with
    | error error => rw [outcome_error_bind, outcome_describe_of_error hnone hreserve]
    | ok capacity => rw [outcome_ok_bind]
  · have hlong : overlong? region.descriptor = some region.length := by
      have hlength : ¬ (region.read ()).length < 0x100000000 := by
        rw [region.length_read]
        exact hshort
      exact (if_neg hlength).trans (congrArg some region.length_read)
    rw [if_neg hshort, outcome_throw, outcome_describe_of_overlong hlong]

theorem describeRegionEvents_eq (buffer : ArgBuffer) (region : Region) :
    buffer.describeRegionEvents region = buffer.describeEvents region.descriptor := by
  unfold describeRegionEvents describeEvents overlong?
  simp only [Region.descriptor, region.length_read]
  split
  next => rfl
  next => rfl

end ArgBuffer

end Residual
