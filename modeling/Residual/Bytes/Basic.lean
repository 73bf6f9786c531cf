/-!
# Byte strings

Splitting, slicing and overwriting byte strings. Every access states the whole range it touches, and
an access that leaves the string is refused as a whole: nothing is read or written in part.
-/

namespace Residual

/-- A finite byte string. -/
abbrev Bytes := List UInt8

namespace Bytes

/-- `count` zero bytes. -/
def zeros (count : Nat) : Bytes := List.replicate count 0

/-- The least multiple of eight that is at least `size`. -/
def roundUp (size : Nat) : Nat := (size + 7) / 8 * 8

/-- The string followed by the zero bytes that bring its length to a multiple of eight. -/
def padded (data : Bytes) : Bytes := data ++ zeros (roundUp data.length - data.length)

/-- The first `count` bytes and the rest, if there are that many. Only the first part is measured,
so the cost does not depend on the length of the rest. -/
def split? (count : Nat) (data : Bytes) : Option (Bytes × Bytes) :=
  if (data.take count).length = count then some (data.take count, data.drop count) else none

/-- The `count` bytes from `offset`, if the whole range lies inside the string. -/
def slice? (data : Bytes) (offset count : Nat) : Option Bytes :=
  match split? offset data with
  | none => none
  | some (_, rest) => (split? count rest).map Prod.fst

/-- The string with `patch` in place of the bytes from `offset`, if the whole range lies inside the
string. -/
def overwrite? (data : Bytes) (offset : Nat) (patch : Bytes) : Option Bytes :=
  if offset + patch.length ≤ data.length then
    some (data.take offset ++ patch ++ data.drop (offset + patch.length))
  else none

theorem length_zeros (count : Nat) : (zeros count).length = count :=
  List.length_replicate

theorem le_roundUp (size : Nat) : size ≤ roundUp size := by
  unfold roundUp
  omega

theorem length_padded (data : Bytes) : (padded data).length = roundUp data.length := by
  have h := le_roundUp data.length
  simp only [padded, List.length_append, length_zeros]
  omega

/-- Splitting succeeds exactly for a first part of the asked length. -/
theorem split?_eq_some_iff (count : Nat) (data first rest : Bytes) :
    split? count data = some (first, rest) ↔ data = first ++ rest ∧ first.length = count := by
  unfold split?
  constructor
  · intro h
    split at h
    next hlen =>
      cases h
      exact ⟨(List.take_append_drop count data).symm, hlen⟩
    next => cases h
  · rintro ⟨rfl, rfl⟩
    simp

/-- Splitting is refused exactly when the string is too short. -/
theorem split?_eq_none_iff (count : Nat) (data : Bytes) :
    split? count data = none ↔ data.length < count := by
  unfold split?
  rw [List.length_take]
  split <;> simp <;> omega

/-- A slice is granted exactly when its range ends inside the string. -/
theorem slice?_eq (data : Bytes) (offset count : Nat) :
    slice? data offset count =
      if offset + count ≤ data.length then some ((data.drop offset).take count) else none := by
  unfold slice? split?
  simp only [List.length_take]
  by_cases hoffset : min offset data.length = offset
  · rw [if_pos hoffset]
    by_cases hcount : offset + count ≤ data.length
    · simp [hcount, List.length_drop, show min count (data.length - offset) = count by omega]
    · simp [hcount, List.length_drop, show ¬ min count (data.length - offset) = count by omega]
  · rw [if_neg hoffset, if_neg (by omega)]

end Bytes

end Residual
