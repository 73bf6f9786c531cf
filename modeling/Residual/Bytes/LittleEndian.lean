import Residual.Bytes.Basic

/-!
# Little-endian words

One encoder for every fixed-width word: a natural number becomes exactly `width` bytes, least
significant first, and a byte string becomes the natural number it spells.
-/

namespace Residual.LittleEndian

/-- The `width` little-endian bytes of `value`; what does not fit is dropped. -/
def encode : (width value : Nat) → Bytes
  | 0, _ => []
  | width + 1, value => UInt8.ofNat (value % 256) :: encode width (value / 256)

/-- The natural number with the given little-endian bytes. -/
def decode : Bytes → Nat
  | [] => 0
  | byte :: rest => byte.toNat + 256 * decode rest

theorem length_encode (width value : Nat) : (encode width value).length = width := by
  induction width generalizing value with
  | zero => rfl
  | succ width ih => simp only [encode, List.length_cons, ih]

/-- Writing back a read word gives its bytes, so no two byte strings of one length spell the same
number. -/
theorem encode_decode (data : Bytes) : encode data.length (decode data) = data := by
  induction data with
  | nil => rfl
  | cons byte rest ih =>
    have hbyte : byte.toNat < 256 := byte.toNat_lt
    rw [List.length_cons, encode, decode, Nat.add_mul_mod_self_left, Nat.mod_eq_of_lt hbyte,
      Nat.add_mul_div_left _ _ (by decide), Nat.div_eq_of_lt hbyte, Nat.zero_add, ih,
      UInt8.ofNat_toNat]

end Residual.LittleEndian
