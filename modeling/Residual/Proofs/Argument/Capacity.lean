import Residual.Proofs.Argument.Growth

/-!
# What a refusal for lack of room states

A buffer that has no room for an addition states its limit, and the size that it would have had.
There is one exception: a memory region with a length that is no 32-bit number is refused before
anything else is counted, so only that length is stated.
-/

namespace Residual

/-- The addition describes a memory region with a length that is no 32-bit number. -/
def Addition.Overlong (addition : Addition) : Prop :=
  ∃ data, addition = .describe (.buffer data) ∧ 2 ^ 32 ≤ data.length

namespace ArgBuffer

/-- The size of the buffer once an addition is made, as far as a 64-bit word can state it. -/
def sizeAfter (buffer : ArgBuffer) (addition : Addition) : Nat :=
  min (2 ^ 64 - 1) (buffer.size + addition.bytes.length)

/-- There are two reasons to refuse room: the limit, and what memory can be asked for within it. -/
theorem reserve_eq_error {buffer : ArgBuffer} {count : Nat} {error : Error}
    (hreserve : buffer.reserve count = .error error) :
    buffer.limit < buffer.size + count ∧
        error = .capacityExceeded (min (buffer.size + count) maxSize) buffer.limit ∨
      buffer.size + count ≤ buffer.limit ∧ error = .allocationFailed := by
  unfold reserve at hreserve
  dsimp only at hreserve
  split at hreserve
  next hfull =>
    cases hreserve
    exact Or.inl ⟨hfull, rfl⟩
  next hfits =>
    split at hreserve
    next => cases hreserve
    next =>
      split at hreserve
      next => cases hreserve
      next =>
        cases hreserve
        exact Or.inr ⟨Nat.not_lt.mp hfits, rfl⟩

theorem overlong?_buffer {data : Bytes} (hlong : 2 ^ 32 ≤ data.length) :
    overlong? (.buffer data) = some data.length :=
  if_neg (Nat.not_lt.mpr hlong)

theorem overlong?_eq_some {descriptor : Descriptor} {length : Nat}
    (hlong : overlong? descriptor = some length) :
    ∃ data, descriptor = .buffer data ∧ 2 ^ 32 ≤ data.length ∧ length = data.length := by
  cases descriptor with
  | buffer data =>
      simp only [overlong?] at hlong
      split at hlong
      next => cases hlong
      next hnot =>
        cases hlong
        exact ⟨data, rfl, Nat.not_lt.mp hnot, rfl⟩
  | _ => cases hlong

theorem refusal_of_not_overlong {buffer : ArgBuffer} {addition : Addition} (error : Error)
    (hshort : ¬ addition.Overlong) : buffer.refusal error addition = error := by
  cases addition with
  | describe descriptor =>
      rw [refusal]
      cases hlong : overlong? descriptor with
      | none => rfl
      | some length =>
          obtain ⟨data, rfl, hdata, -⟩ := overlong?_eq_some hlong
          exact absurd ⟨data, rfl, hdata⟩ hshort
  | _ => rfl

theorem refusal_of_overlong (buffer : ArgBuffer) (error : Error) {data : Bytes}
    (hlong : 2 ^ 32 ≤ data.length) :
    buffer.refusal error (.describe (.buffer data)) =
      .capacityExceeded data.length buffer.limit := by
  rw [refusal, overlong?_buffer hlong]

theorem length_lt_bytes_describe (data : Bytes) :
    data.length < (Addition.describe (.buffer data)).bytes.length := by
  rw [Addition.length_bytes]
  simp only [Addition.size, Descriptor.canonicalSize]
  omega

/-- An addition within the limit describes no overlong region. -/
theorem not_overlong_of_fits {buffer : ArgBuffer} {addition : Addition}
    (hfits : buffer.size + addition.size ≤ buffer.limit) : ¬ addition.Overlong := by
  rintro ⟨data, rfl, hlong⟩
  have hlimit := buffer.limit_le_hardLimit
  have hlength := length_lt_bytes_describe data
  rw [Addition.length_bytes] at hlength
  unfold Policy.hardLimit at hlimit
  omega

/-- Lack of room is stated only if the buffer would become larger than its limit. -/
theorem capacityExceeded_of_add {buffer : ArgBuffer} {addition : Addition} {requested limit : Nat}
    (hrefused : ((add addition).outcome buffer).1 =
      .error (.capacityExceeded requested limit)) :
    buffer.limit < buffer.size + addition.size ∧
      buffer.refusal (.capacityExceeded (buffer.sizeAfter addition) buffer.limit) addition =
        .capacityExceeded requested limit := by
  cases hreserve : buffer.reserve addition.size with
  | ok capacity =>
      rw [outcome_add_of_ok hreserve] at hrefused
      cases hrefused
  | error error =>
      rw [outcome_add_of_error hreserve, Except.error.injEq] at hrefused
      obtain ⟨hfull, rfl⟩ | ⟨hfits, rfl⟩ := reserve_eq_error hreserve
      · refine ⟨hfull, ?_⟩
        rw [sizeAfter, addition.length_bytes, Nat.min_comm]
        exact hrefused
      · rw [refusal_of_not_overlong _ (not_overlong_of_fits hfits)] at hrefused
        cases hrefused

/-- A refusal for lack of room states the limit and a size above it. The size is the one that the
buffer would have had, unless the addition describes an overlong memory region: then it is the
length of the region, less than what the addition alone takes. -/
theorem refusals_state_size_unless_overlong (buffer : ArgBuffer) (addition : Addition)
    (requested limit : Nat)
    (hrefused : ((add addition).outcome buffer).1 =
      .error (.capacityExceeded requested limit)) :
    limit = buffer.limit ∧ limit < requested ∧
      (¬ addition.Overlong → requested = buffer.sizeAfter addition) ∧
      ∀ data, addition = .describe (.buffer data) → 2 ^ 32 ≤ data.length →
        requested = data.length ∧ requested < addition.bytes.length := by
  have hlimit := buffer.limit_le_hardLimit
  unfold Policy.hardLimit at hlimit
  obtain ⟨hfull, hstated⟩ := capacityExceeded_of_add hrefused
  by_cases hoverlong : addition.Overlong
  · obtain ⟨data, rfl, hlong⟩ := hoverlong
    rw [refusal_of_overlong _ _ hlong] at hstated
    cases hstated
    refine ⟨rfl, by omega, fun hshort => absurd ⟨data, rfl, hlong⟩ hshort, ?_⟩
    rintro region ⟨⟩ -
    exact ⟨rfl, length_lt_bytes_describe data⟩
  · rw [refusal_of_not_overlong _ hoverlong] at hstated
    cases hstated
    refine ⟨rfl, ?_, fun _ => rfl, fun data hdata hlong => absurd ⟨data, hdata, hlong⟩ hoverlong⟩
    rw [sizeAfter, addition.length_bytes]
    omega

/-- A request for as many bytes as a word can count, on a buffer that holds some already: the stated
size stays within a word. -/
theorem refusals_state_size_unless_overlong_saturated :
    ((add (.allocate (2 ^ 64 - 1) [])).outcome ⟨.standard, [1, 2, 3], 1024⟩).1 =
      .error (.capacityExceeded (2 ^ 64 - 1) (2 ^ 20)) ∧
    2 ^ 64 - 1 =
      (⟨.standard, [1, 2, 3], 1024⟩ : ArgBuffer).sizeAfter (.allocate (2 ^ 64 - 1) []) := by
  have hrefused : ((add (.allocate (2 ^ 64 - 1) [])).outcome ⟨.standard, [1, 2, 3], 1024⟩).1 =
      .error (.capacityExceeded (2 ^ 64 - 1) (2 ^ 20)) := rfl
  obtain ⟨-, -, hsize, -⟩ := refusals_state_size_unless_overlong _ _ _ _ hrefused
  refine ⟨hrefused, hsize ?_⟩
  rintro ⟨data, ⟨⟩, -⟩

/-- The record of a region of `2 ^ 32` bytes takes 16 bytes more than the size that is stated. -/
theorem overlong_region_states_own_length :
    ((add (.describe (.buffer (Bytes.zeros (2 ^ 32))))).outcome (empty .standard)).1 =
      .error (.capacityExceeded (2 ^ 32) (2 ^ 20)) ∧
    (empty .standard).sizeAfter (.describe (.buffer (Bytes.zeros (2 ^ 32)))) = 2 ^ 32 + 16 := by
  have hlength : (Bytes.zeros (2 ^ 32)).length = 2 ^ 32 := Bytes.length_zeros _
  refine ⟨?_, ?_⟩
  · rw [add, outcome_describe_of_overlong (overlong?_buffer (Nat.le_of_eq hlength.symm)), hlength]
    rfl
  · rw [sizeAfter, Addition.length_bytes, Addition.size, Descriptor.canonicalSize, hlength]
    decide

end ArgBuffer

end Residual
