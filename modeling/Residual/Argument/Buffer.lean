import Residual.Argument.Descriptor
import Residual.Bytes.Access
import Residual.Event
import Residual.Policy

/-!
# Argument buffers

An argument buffer collects encoded descriptors. It only ever grows at its end, never beyond the
limit of its policy. Memory is reserved geometrically: the first growth takes the capacity that the
policy asks for, later ones double what is there.

Bytes are added in place: first the buffer is made longer by zeros, then these are filled in. A step
that failed in between would leave a buffer that is longer and filled in part; room for all of an
addition is found first, so that none does.
-/

namespace Residual

/-- An argument buffer under construction. -/
structure ArgBuffer where
  policy : Policy
  contents : Bytes
  capacity : Nat
  deriving DecidableEq

namespace ArgBuffer

/-- An empty buffer with nothing reserved. -/
def empty (policy : Policy) : ArgBuffer := ⟨policy, [], 0⟩

/-- The number of bytes written so far. -/
def size (buffer : ArgBuffer) : Nat := buffer.contents.length

/-- The most bytes the buffer may hold. -/
def limit (buffer : ArgBuffer) : Nat := buffer.policy.argLimit

/-- The largest size that a 64-bit word can state. -/
def maxSize : Nat := 0xFFFFFFFFFFFFFFFF

/-- The largest capacity that memory can be asked for. -/
def maxCapacity : Nat := 0x7FFFFFFFFFFFFFFF

/-- Twice a capacity, as far as a 64-bit word can state it. -/
def doubled (capacity : Nat) : Nat := min (2 * capacity) maxSize

/-- The capacity doubled until it reaches `needed`, at most `steps` times. -/
def grown : (steps : Nat) → (capacity needed : Nat) → Nat
  | 0, capacity, _ => capacity
  | steps + 1, capacity, needed =>
    if capacity < needed then grown steps (doubled capacity) needed else capacity

/-- The capacity that the next growth starts from. -/
def growthStart (buffer : ArgBuffer) : Nat :=
  if buffer.capacity = 0 then max buffer.policy.initialCapacity.toNat 1 else buffer.capacity

/-- The capacity of the buffer once it has room for `count` more bytes. Sixty-four doublings take
any capacity beyond every size that a 64-bit word can state. -/
def reserve (buffer : ArgBuffer) (count : Nat) : Except Error Nat :=
  let needed := buffer.size + count
  if buffer.limit < needed then .error (.capacityExceeded (min needed maxSize) buffer.limit)
  else if needed ≤ buffer.capacity then .ok buffer.capacity
  else
    let capacity := grown 64 buffer.growthStart needed
    if capacity ≤ maxCapacity then .ok capacity else .error .allocationFailed

/-- Makes the buffer `count` zero bytes longer. -/
def allocate (count : Nat) : InPlace ArgBuffer Unit := do
  let buffer ← get
  let capacity ← buffer.reserve count
  set { buffer with contents := buffer.contents ++ Bytes.zeros count, capacity := capacity }

/-- The `count` bytes from `start` on, with the offset at the first of them. -/
def window (buffer : ArgBuffer) (start count : Nat) (hcount : count < 0x10000000000000000) :
    Window :=
  ⟨(buffer.contents.drop start).take count, 0,
    Nat.lt_of_le_of_lt (List.length_take_le _ _) hcount⟩

/-- Takes a step on the `count` bytes from `start` on. What the step has changed stays changed if it
fails. -/
def within (start count : Nat) (hcount : count < 0x10000000000000000)
    (step : InPlace Window Unit) : InPlace ArgBuffer Unit :=
  ExceptT.mk fun buffer =>
    let (answer, window) := step.outcome (buffer.window start count hcount)
    (answer, { buffer with
      contents := buffer.contents.take start ++ window.data ++
        buffer.contents.drop (start + count) })

/-- Copies bytes over those from `start` on. -/
def copy (start : Nat) (bytes : Bytes) : InPlace ArgBuffer Unit := do
  let buffer ← get
  let contents ← Error.ofAccess (buffer.contents.overwrite? start bytes)
  set { buffer with contents := contents }

/-- Adds the little-endian bytes of a value. -/
def write (value : Scalar) : InPlace ArgBuffer Unit := do
  let buffer ← get
  allocate value.type.size
  within buffer.size value.type.size value.type.size_lt (Window.write value)

/-- The length of a memory region that a 32-bit length cannot state. -/
def overlong? : Descriptor → Option Nat
  | .buffer data => if data.length < 0x100000000 then none else some data.length
  | _ => none

/-- Adds the encoding of a descriptor. Room is found for the record and the bytes that follow it
together, so there is never a record without them. -/
def describe (descriptor : Descriptor) : InPlace ArgBuffer Unit := do
  let buffer ← get
  match overlong? descriptor with
  | some length => throw (.capacityExceeded length buffer.limit)
  | none =>
    allocate descriptor.encodedSize
    within buffer.size Descriptor.recordSize Descriptor.recordSize_lt
      (descriptor.fields.forM Window.write)
    copy (buffer.size + Descriptor.recordSize) descriptor.inlineData

/-- What is reported when a descriptor is about to be added. -/
def describeEvents (buffer : ArgBuffer) (descriptor : Descriptor) : List Event :=
  match overlong? descriptor with
  | some _ => []
  | none => [.encoding descriptor.kind buffer.size]

/-- The buffer with the encodings of a sequence of descriptors added, or the first failure. -/
def describeAll : ArgBuffer → List Descriptor → Except Error ArgBuffer
  | buffer, [] => .ok buffer
  | buffer, descriptor :: rest =>
    match (describe descriptor).outcome buffer with
    | (.error error, _) => .error error
    | (.ok (), next) => next.describeAll rest

/-- What is reported while a sequence of descriptors is added, up to the first failure. -/
def describeAllEvents : ArgBuffer → List Descriptor → List Event
  | _, [] => []
  | buffer, descriptor :: rest =>
    buffer.describeEvents descriptor ++
      match (describe descriptor).outcome buffer with
      | (.error _, _) => []
      | (.ok (), next) => next.describeAllEvents rest

/-- The contents, and the buffer that is left: empty, with nothing reserved. -/
def take (buffer : ArgBuffer) : Bytes × ArgBuffer := (buffer.contents, empty buffer.policy)

open InPlace

theorem outcome_allocate_of_error {buffer : ArgBuffer} {count : Nat} {error : Error}
    (hreserve : buffer.reserve count = .error error) :
    (allocate count).outcome buffer = (.error error, buffer) := by
  rw [allocate, outcome_get_bind, hreserve, outcome_error_bind]

theorem outcome_allocate_of_ok {buffer : ArgBuffer} {count capacity : Nat}
    (hreserve : buffer.reserve count = .ok capacity) :
    (allocate count).outcome buffer = (.ok (),
      { buffer with contents := buffer.contents ++ Bytes.zeros count, capacity := capacity }) := by
  rw [allocate, outcome_get_bind, hreserve, outcome_ok_bind, outcome_set]

theorem outcome_describe_of_overlong {buffer : ArgBuffer} {descriptor : Descriptor} {length : Nat}
    (hlong : overlong? descriptor = some length) :
    (describe descriptor).outcome buffer =
      (.error (.capacityExceeded length buffer.limit), buffer) := by
  rw [describe, outcome_get_bind, hlong, outcome_throw]

/-- Without room for all of it, nothing of a descriptor is written. -/
theorem outcome_describe_of_error {buffer : ArgBuffer} {descriptor : Descriptor} {error : Error}
    (hshort : overlong? descriptor = none)
    (hreserve : buffer.reserve descriptor.encodedSize = .error error) :
    (describe descriptor).outcome buffer = (.error error, buffer) := by
  rw [describe, outcome_get_bind, hshort]
  dsimp only
  rw [outcome_bind, outcome_allocate_of_error hreserve]

end ArgBuffer

end Residual
