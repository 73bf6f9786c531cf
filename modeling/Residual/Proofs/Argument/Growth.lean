import Residual.Argument.Run
import Residual.Proofs.Argument.Writing

/-!
# Room in an argument buffer

What decides whether a buffer takes more bytes, and what it holds if it does. The limit is far below
what memory can be asked for, so doubling a capacity cannot go wrong: only the first capacity, which
is the policy's, can be too large.
-/

namespace Residual

/-- What an addition puts at the end of a buffer, byte by byte: what the caller filled in or zero,
the digits of a value in base 256 from the lowest on, or the canonical form of a descriptor. -/
def Addition.bytes : Addition → Bytes
  | allocate count fill => (List.range count).map fun place => fill.getD place 0
  | write value => value.digits
  | describe descriptor => descriptor.canonical

/-- The number of bytes that an addition asks for. -/
def Addition.size : Addition → Nat
  | allocate count _ => count
  | write value => value.width
  | describe descriptor => descriptor.canonicalSize

namespace Descriptor

theorem encodedSize_eq (descriptor : Descriptor) :
    descriptor.encodedSize = descriptor.canonicalSize := by
  cases descriptor <;> rfl

theorem length_canonical_eq_canonicalSize (descriptor : Descriptor) :
    descriptor.canonical.length = descriptor.canonicalSize := by
  rw [length_canonical]
  cases descriptor with
  | buffer data => exact congrArg (16 + ·) (Bytes.length_padded data)
  | _ => rfl

theorem canonicalSize_pos (descriptor : Descriptor) : 0 < descriptor.canonicalSize := by
  rw [← descriptor.length_canonical_eq_canonicalSize]
  exact List.length_pos_iff.mpr descriptor.canonical_ne_nil

/-- The size of the canonical forms of a sequence of descriptors. -/
def totalSize (descriptors : List Descriptor) : Nat :=
  descriptors.foldr (fun descriptor total => descriptor.canonicalSize + total) 0

theorem length_canonicalAll (descriptors : List Descriptor) :
    (canonicalAll descriptors).length = totalSize descriptors := by
  induction descriptors with
  | nil => rfl
  | cons descriptor rest ih =>
      rw [canonicalAll_cons, List.length_append, ih, length_canonical_eq_canonicalSize]
      rfl

end Descriptor

theorem Addition.length_bytes (addition : Addition) : addition.bytes.length = addition.size := by
  cases addition with
  | allocate count fill => rw [bytes, List.length_map, List.length_range, size]
  | write value => exact value.length_digits
  | describe descriptor => exact descriptor.length_canonical_eq_canonicalSize

theorem Bytes.filled_eq_map_range (count : Nat) (fill : Bytes) :
    fill.take count ++ zeros (count - fill.length) =
      (List.range count).map fun place => fill.getD place 0 := by
  apply List.ext_getElem
  · simp only [List.length_append, List.length_take, length_zeros, List.length_map,
      List.length_range]
    omega
  · intro place hplace hcount
    rw [List.length_map, List.length_range] at hcount
    rw [List.getElem_map, List.getElem_range, List.getElem_append]
    split
    next hfront =>
      rw [List.length_take] at hfront
      have hfill : place < fill.length := by omega
      rw [List.getElem_take, List.getD_eq_getElem?_getD, List.getElem?_eq_getElem hfill,
        Option.getD_some]
    next hback =>
      rw [List.length_take] at hback
      have hfill : fill.length ≤ place := by omega
      rw [List.getD_eq_getElem?_getD, List.getElem?_eq_none hfill, Option.getD_none]
      exact List.getElem_replicate _

namespace ArgBuffer

open InPlace

/-- The buffer holds no more than it may and no more than there is memory for. -/
structure Bounded (buffer : ArgBuffer) : Prop where
  limit : buffer.size ≤ buffer.limit
  capacity : buffer.size ≤ buffer.capacity

/-- There is room for some more bytes: the limit leaves it, and if no memory is reserved yet and
some is needed, the policy asks for a first capacity that can exist. -/
def Admits (buffer : ArgBuffer) (count : Nat) : Prop :=
  buffer.size + count ≤ buffer.limit ∧
    (buffer.capacity ≠ 0 ∨ count = 0 ∨ buffer.policy.initialCapacity.toNat ≤ maxCapacity)

theorem bounded_empty (policy : Policy) : (empty policy).Bounded :=
  ⟨Nat.zero_le _, Nat.zero_le _⟩

theorem le_grown {steps capacity needed : Nat} (hneeded : needed ≤ maxSize)
    (hsteps : needed ≤ 2 ^ steps * capacity) : needed ≤ grown steps capacity needed := by
  induction steps generalizing capacity with
  | zero => simpa [grown] using hsteps
  | succ steps ih =>
      rw [grown]
      split
      next =>
        apply ih
        rcases Nat.le_total (2 * capacity) maxSize with hsmall | hlarge
        · rwa [doubled, Nat.min_eq_left hsmall, ← Nat.mul_assoc, ← Nat.pow_succ]
        · rw [doubled, Nat.min_eq_right hlarge]
          exact Nat.le_trans hneeded (Nat.le_mul_of_pos_left _ (Nat.two_pow_pos steps))
      next hfits => exact Nat.not_lt.mp hfits

/-- Doubling stops at the first capacity that is enough. -/
theorem grown_le (steps capacity needed : Nat) :
    grown steps capacity needed ≤ max capacity (2 * needed) := by
  induction steps generalizing capacity with
  | zero => exact Nat.le_max_left _ _
  | succ steps ih =>
      rw [grown]
      split
      next hlt =>
        have hdoubled : doubled capacity ≤ 2 * capacity := Nat.min_le_left _ _
        have hgrown := ih (doubled capacity)
        omega
      next => exact Nat.le_max_left _ _

theorem grown_eq_self (steps : Nat) {capacity needed : Nat} (henough : needed ≤ capacity) :
    grown steps capacity needed = capacity := by
  cases steps with
  | zero => rfl
  | succ steps => rw [grown, if_neg (Nat.not_lt.mpr henough)]

theorem exists_reserve_eq_ok {buffer : ArgBuffer} {count : Nat} (hbounded : buffer.Bounded)
    (hadmits : buffer.Admits count) :
    ∃ capacity, buffer.reserve count = .ok capacity ∧ buffer.size + count ≤ capacity := by
  obtain ⟨hfits, hmemory⟩ := hadmits
  have hlimit := buffer.limit_le_hardLimit
  unfold Policy.hardLimit at hlimit
  rw [reserve]
  dsimp only
  rw [if_neg (Nat.not_lt.mpr hfits)]
  by_cases henough : buffer.size + count ≤ buffer.capacity
  · exact ⟨buffer.capacity, if_pos henough, henough⟩
  · have hstart : 1 ≤ buffer.growthStart ∧ buffer.growthStart ≤ maxCapacity := by
      have hcapacity := hbounded.capacity
      unfold growthStart
      unfold maxCapacity at hmemory ⊢
      split
      next hzero => omega
      next hnonzero => omega
    have hgrown := grown_le 64 buffer.growthStart (buffer.size + count)
    have hmax : grown 64 buffer.growthStart (buffer.size + count) ≤ maxCapacity := by
      unfold maxCapacity at hstart ⊢
      omega
    refine ⟨_, by rw [if_neg henough, if_pos hmax], le_grown ?_ ?_⟩
    · unfold maxSize
      omega
    · omega

theorem exists_reserve_eq_error {buffer : ArgBuffer} {count : Nat} (hnot : ¬ buffer.Admits count) :
    ∃ error, buffer.reserve count = .error error := by
  rw [reserve]
  dsimp only
  by_cases hfits : buffer.size + count ≤ buffer.limit
  · -- The first capacity is more than enough, so it is asked for as it is.
    have hlimit := buffer.limit_le_hardLimit
    unfold Policy.hardLimit at hlimit
    unfold Admits at hnot
    have hstart : maxCapacity < buffer.growthStart := by
      rw [growthStart, if_pos (by omega)]
      omega
    have henough : buffer.size + count ≤ buffer.growthStart := by
      unfold maxCapacity at hstart
      omega
    rw [if_neg (Nat.not_lt.mpr hfits), if_neg (by omega), grown_eq_self 64 henough,
      if_neg (Nat.not_le.mpr hstart)]
    exact ⟨_, rfl⟩
  · rw [if_pos (Nat.not_le.mp hfits)]
    exact ⟨_, rfl⟩

/-- Once there is room, zeros are added and filled in from the front. -/
theorem outcome_allocate_of_fill {buffer : ArgBuffer} {count capacity : Nat} {fill : Bytes}
    (hreserve : buffer.reserve count = .ok capacity) :
    (add (.allocate count fill)).outcome buffer = (.ok (),
      { buffer with
        contents := buffer.contents ++ (List.range count).map fun place => fill.getD place 0
        capacity := capacity }) := by
  have hcount : count = (fill.take count).length + (count - fill.length) := by
    rw [List.length_take]
    omega
  have hcopy : (copy buffer.size (fill.take count)).outcome
        { buffer with contents := buffer.contents ++ Bytes.zeros count, capacity := capacity } =
      (.ok (), { buffer with
        contents := buffer.contents ++ (fill.take count ++ Bytes.zeros (count - fill.length))
        capacity := capacity }) := by
    refine outcome_copy ?_ (Bytes.length_zeros _)
    rw [← Bytes.zeros_add, ← hcount]
  rw [add, outcome_get_bind, outcome_bind, outcome_allocate_of_ok hreserve]
  dsimp only
  rw [hcopy, Bytes.filled_eq_map_range]

/-- Once the room is there, an addition puts its bytes at the end and changes nothing else. -/
theorem outcome_add_of_ok {buffer : ArgBuffer} {addition : Addition} {capacity : Nat}
    (hreserve : buffer.reserve addition.size = .ok capacity) :
    (add addition).outcome buffer = (.ok (),
      { buffer with
        contents := buffer.contents ++ addition.bytes
        capacity := capacity }) := by
  cases addition with
  | allocate count fill => exact outcome_allocate_of_fill hreserve
  | write value => exact outcome_write_of_ok hreserve
  | describe descriptor =>
      rw [Addition.size, ← descriptor.encodedSize_eq] at hreserve
      exact (outcome_describe_of_ok hreserve).2

/-- Why an addition fails for which there is no room. A memory region with a length that is no
32-bit number is refused for its length, before room for it is looked for. -/
def refusal (buffer : ArgBuffer) (error : Error) : Addition → Error
  | .describe descriptor =>
    match overlong? descriptor with
    | some length => .capacityExceeded length buffer.limit
    | none => error
  | _ => error

/-- Without room, an addition fails and the buffer is what it was. -/
theorem outcome_add_of_error {buffer : ArgBuffer} {addition : Addition} {error : Error}
    (hreserve : buffer.reserve addition.size = .error error) :
    (add addition).outcome buffer = (.error (buffer.refusal error addition), buffer) := by
  cases addition with
  | allocate count fill =>
      rw [Addition.size] at hreserve
      rw [add, outcome_get_bind, outcome_bind, outcome_allocate_of_error hreserve]
      rfl
  | write value => exact outcome_write_of_error hreserve
  | describe descriptor =>
      rw [Addition.size, ← descriptor.encodedSize_eq] at hreserve
      rw [add, refusal.eq_def]
      cases hlong : overlong? descriptor with
      | some length => simp only [outcome_describe_of_overlong hlong, hlong]
      | none => simp only [outcome_describe_of_error hlong hreserve, hlong]

theorem outcome_add_of_admits {buffer : ArgBuffer} {addition : Addition}
    (hbounded : buffer.Bounded) (hadmits : buffer.Admits addition.size) :
    ∃ capacity, buffer.size + addition.size ≤ capacity ∧
      (add addition).outcome buffer = (.ok (),
        { buffer with
          contents := buffer.contents ++ addition.bytes
          capacity := capacity }) := by
  obtain ⟨capacity, hreserve, henough⟩ := exists_reserve_eq_ok hbounded hadmits
  exact ⟨capacity, henough, outcome_add_of_ok hreserve⟩

theorem outcome_add_of_not_admits {buffer : ArgBuffer} {addition : Addition}
    (hnot : ¬ buffer.Admits addition.size) :
    ∃ error, (add addition).outcome buffer = (.error error, buffer) := by
  obtain ⟨error, hreserve⟩ := exists_reserve_eq_error hnot
  exact ⟨_, outcome_add_of_error hreserve⟩

/-- Everything that an addition can do: add all its bytes, or fail and change nothing. -/
theorem outcome_add_cases {buffer : ArgBuffer} (hbounded : buffer.Bounded) (addition : Addition) :
    (∃ next, (add addition).outcome buffer = (.ok (), next) ∧ buffer.Admits addition.size ∧
      next.Bounded ∧ next.policy = buffer.policy ∧
      next.contents = buffer.contents ++ addition.bytes) ∨
    ∃ error, (add addition).outcome buffer = (.error error, buffer) ∧
      ¬ buffer.Admits addition.size := by
  by_cases hadmits : buffer.Admits addition.size
  · obtain ⟨capacity, henough, hok⟩ := outcome_add_of_admits hbounded hadmits
    refine .inl ⟨_, hok, hadmits, ⟨?_, ?_⟩, rfl, rfl⟩
    · rw [size, List.length_append, addition.length_bytes]
      exact hadmits.1
    · rw [size, List.length_append, addition.length_bytes]
      exact henough
  · obtain ⟨error, herror⟩ := outcome_add_of_not_admits hadmits
    exact .inr ⟨error, herror, hadmits⟩

/-- A record is written where there is room for it. It takes memory, so there is some from then
on. -/
theorem outcome_describe_of_admits {buffer : ArgBuffer} {descriptor : Descriptor}
    (hbounded : buffer.Bounded) (hadmits : buffer.Admits descriptor.canonicalSize) :
    ∃ next, (describe descriptor).outcome buffer = (.ok (), next) ∧ next.Bounded ∧
      next.policy = buffer.policy ∧ next.size = buffer.size + descriptor.canonicalSize ∧
      next.capacity ≠ 0 := by
  rcases outcome_add_cases hbounded (.describe descriptor) with
    ⟨next, hadd, -, hnext, hpolicy, hcontents⟩ | ⟨error, -, hnot⟩
  · have hpos := descriptor.canonicalSize_pos
    have hsize : next.size = buffer.size + descriptor.canonicalSize := by
      rw [size, hcontents, List.length_append, Addition.length_bytes]
      rfl
    have hcapacity := hnext.capacity
    exact ⟨next, hadd, hnext, hpolicy, hsize, by omega⟩
  · exact absurd hadmits hnot

/-- A sequence of descriptors is written if and only if all of them together stay within the limit,
and the first capacity can exist in case it is needed. -/
theorem exists_describeAll_eq_ok_iff {buffer : ArgBuffer} (hbounded : buffer.Bounded)
    (descriptors : List Descriptor) :
    (∃ after, buffer.describeAll descriptors = .ok after) ↔
      buffer.size + Descriptor.totalSize descriptors ≤ buffer.limit ∧
        (buffer.capacity ≠ 0 ∨ descriptors = [] ∨
          buffer.policy.initialCapacity.toNat ≤ maxCapacity) := by
  induction descriptors generalizing buffer with
  | nil =>
      have hsize := hbounded.limit
      simp [describeAll, Descriptor.totalSize, hsize]
  | cons descriptor rest ih =>
      have htotal : Descriptor.totalSize (descriptor :: rest) =
          descriptor.canonicalSize + Descriptor.totalSize rest := rfl
      rw [describeAll, htotal]
      have hpos := Nat.ne_of_gt descriptor.canonicalSize_pos
      by_cases hadmits : buffer.Admits descriptor.canonicalSize
      · obtain ⟨next, hdescribe, hnext, hpolicy, hsize, hcapacity⟩ :=
          outcome_describe_of_admits hbounded hadmits
        have hlimit : next.limit = buffer.limit := congrArg Policy.argLimit hpolicy
        rw [hdescribe]
        dsimp only
        rw [ih hnext, hsize, hlimit]
        constructor
        · rintro ⟨hfits, -⟩
          exact ⟨by omega, hadmits.2.imp_right fun hother => Or.inr (hother.resolve_left hpos)⟩
        · rintro ⟨hfits, -⟩
          exact ⟨by omega, Or.inl hcapacity⟩
      · obtain ⟨error, herror⟩ := outcome_add_of_not_admits
          (show ¬ buffer.Admits (Addition.describe descriptor).size from hadmits)
        rw [add] at herror
        rw [herror]
        constructor
        · rintro ⟨after, hafter⟩
          cases hafter
        · rintro ⟨hfits, hmemory⟩
          refine absurd ⟨by omega, hmemory.imp_right fun hother => Or.inr ?_⟩ hadmits
          exact hother.resolve_left (List.cons_ne_nil _ _)

end ArgBuffer

end Residual
