import Mathlib.Algebra.Group.Nat.Defs
import Residual.Bytes.Cursor

/-!
# Words and cursors

A word or scalar and its bytes determine each other; the bytes are spelled here as digits in base
256, apart from the code that writes and reads them. A cursor hands out a word or a field exactly
when its bytes come next, and then stands right behind them.
-/

namespace Residual

theorem Error.bind_eq_ok_iff {α β : Type} (first : Except Error α) (rest : α → Except Error β)
    (result : β) :
    (first >>= rest) = .ok result ↔ ∃ value, first = .ok value ∧ rest value = .ok result := by
  cases first with
  | error error =>
      constructor
      · intro h
        cases h
      · rintro ⟨_, h, _⟩
        cases h
  | ok value =>
      constructor
      · intro h
        exact ⟨value, rfl, h⟩
      · rintro ⟨_, h, hrest⟩
        cases h
        exact hrest

theorem Error.exists_eq_ok {α : Type} {result : Except Error α}
    (hresult : result.toOption.isSome = true) : ∃ value, result = .ok value := by
  cases result with
  | error error => cases hresult
  | ok value => exact ⟨value, rfl⟩

namespace Bytes

/-- The `count` lowest digits of a number in base 256, from the lowest on. -/
def digits (count number : Nat) : Bytes :=
  (List.range count).map fun place => .ofNat (number / 256 ^ place)

theorem length_digits (count number : Nat) : (digits count number).length = count := by
  rw [digits, List.length_map, List.length_range]

theorem zeros_zero : zeros 0 = [] := rfl

theorem zeros_add (first second : Nat) : zeros (first + second) = zeros first ++ zeros second :=
  List.replicate_append_replicate.symm

theorem overwrite?_append {before old after patch : Bytes} (hlength : old.length = patch.length) :
    (before ++ (old ++ after)).overwrite? before.length patch =
      some (before ++ (patch ++ after)) := by
  rw [overwrite?, if_pos (by simp only [List.length_append]; omega), List.take_left,
    ← List.drop_drop, List.drop_left, List.drop_left' hlength, List.append_assoc]

end Bytes

namespace LittleEndian

/-- Reading back a written word gives the word, up to what was dropped. -/
theorem decode_encode (width value : Nat) : decode (encode width value) = value % 256 ^ width := by
  induction width generalizing value with
  | zero => simp only [encode, decode, Nat.pow_zero, Nat.mod_one]
  | succ width ih =>
    have hbyte : (UInt8.ofNat (value % 256)).toNat = value % 256 := by simp
    rw [encode, decode, ih, hbyte, Nat.pow_succ', Nat.mod_mul]

theorem decode_encode_of_lt (width value : Nat) (h : value < 256 ^ width) :
    decode (encode width value) = value := by
  rw [decode_encode, Nat.mod_eq_of_lt h]

theorem decode_lt (data : Bytes) : decode data < 256 ^ data.length := by
  induction data with
  | nil => simp [decode]
  | cons byte rest ih =>
    have hbyte : byte.toNat < 256 := byte.toNat_lt
    rw [decode, List.length_cons, Nat.pow_succ]
    omega

/-- A wide word is its low part followed by its high part. -/
theorem encode_add (low high value : Nat) :
    encode (low + high) value = encode low value ++ encode high (value / 256 ^ low) := by
  induction low generalizing value with
  | zero => simp [encode]
  | succ low ih =>
      rw [Nat.succ_add, encode, encode, ih, List.cons_append, Nat.div_div_eq_div_mul,
        Nat.pow_succ']

theorem encode_mod (width value : Nat) :
    encode width (value % 256 ^ width) = encode width value := by
  have hbytes := encode_decode (encode width value)
  rwa [length_encode, decode_encode] at hbytes

/-- The bytes of a word are its digits in base 256, from the lowest on. -/
theorem encode_eq_digits (width value : Nat) : encode width value = Bytes.digits width value := by
  unfold Bytes.digits
  induction width generalizing value with
  | zero => rfl
  | succ width ih =>
      rw [encode, ih, List.range_succ_eq_map, List.map_cons, List.map_map]
      congr 1
      · rw [Nat.pow_zero, Nat.div_one]
        exact UInt8.ofNat_mod_size
      · apply List.map_congr_left
        intro place _
        rw [Function.comp_apply, Nat.div_div_eq_div_mul, Nat.pow_succ']

end LittleEndian

namespace Scalar

/-- The number of bytes of a value. -/
def width : Scalar → Nat
  | u8 _ => 1
  | u16 _ => 2
  | u32 _ | i32 _ | f32 _ => 4
  | u64 _ | i64 _ | f64 _ => 8

/-- The bits of a value as a number; those of a signed one in two's complement. -/
def bits : Scalar → Nat
  | u8 value => value.toNat
  | u16 value => value.toNat
  | u32 value => value.toNat
  | u64 value => value.toNat
  | i32 value => (value.toInt % 0x100000000).toNat
  | i64 value => (value.toInt % 0x10000000000000000).toNat
  | f32 pattern => pattern.toNat
  | f64 pattern => pattern.toNat

/-- The bits of a value in base 256, from the lowest digit on. -/
def digits (value : Scalar) : Bytes := Bytes.digits value.width value.bits

theorem toNat_toUInt32 (value : Int32) :
    value.toUInt32.toNat = (value.toInt % 0x100000000).toNat := by
  have hmod : value.toInt % (2 ^ 32 : Nat) = value.toUInt32.toNat % (2 ^ 32 : Nat) := by
    rw [show value.toInt = value.toBitVec.toInt from rfl, BitVec.toInt_eq_toNat_bmod,
      Int.bmod_emod]
    rfl
  have hlt := value.toUInt32.toNat_lt
  omega

theorem toNat_toUInt64 (value : Int64) :
    value.toUInt64.toNat = (value.toInt % 0x10000000000000000).toNat := by
  have hmod : value.toInt % (2 ^ 64 : Nat) = value.toUInt64.toNat % (2 ^ 64 : Nat) := by
    rw [show value.toInt = value.toBitVec.toInt from rfl, BitVec.toInt_eq_toNat_bmod,
      Int.bmod_emod]
    rfl
  have hlt := value.toUInt64.toNat_lt
  omega

theorem size_type (value : Scalar) : value.type.size = value.width := by
  cases value <;> rfl

theorem pattern_eq_bits (value : Scalar) : value.pattern = value.bits := by
  cases value with
  | i32 value => exact toNat_toUInt32 value
  | i64 value => exact toNat_toUInt64 value
  | _ => rfl

theorem encode_eq_digits (value : Scalar) : value.encode = value.digits := by
  rw [encode, LittleEndian.encode_eq_digits, size_type, pattern_eq_bits, digits]

theorem length_digits (value : Scalar) : value.digits.length = value.width :=
  Bytes.length_digits _ _

theorem pattern_lt (value : Scalar) : value.pattern < 256 ^ value.type.size := by
  cases value with
  | u8 value => exact value.toNat_lt
  | u16 value => exact value.toNat_lt
  | u32 value => exact value.toNat_lt
  | u64 value => exact value.toNat_lt
  | i32 value => exact value.toUInt32.toNat_lt
  | i64 value => exact value.toUInt64.toNat_lt
  | f32 bits => exact bits.toNat_lt
  | f64 bits => exact bits.toNat_lt

/-- Reading the bytes of a value back at its type gives the value. -/
theorem ofPattern_decode_encode (value : Scalar) :
    value.type.ofPattern (LittleEndian.decode value.encode) = value := by
  rw [encode, LittleEndian.decode_encode_of_lt _ _ value.pattern_lt, ofPattern_pattern]

end Scalar

/-- A number that fits into a word is not taken for "nothing" unless it is zero. -/
theorem ofNat_ne_zero {value : Nat} (hpos : 0 < value) (hlt : value < 2 ^ 32) :
    UInt32.ofNat value ≠ 0 := by
  intro hzero
  have hnat : (UInt32.ofNat value).toNat = value := UInt32.toNat_ofNat_of_lt' hlt
  rw [hzero] at hnat
  exact Nat.ne_of_lt hpos hnat

namespace Bytes

theorem length_word32 (word : UInt32) : (word32 word).length = 4 :=
  LittleEndian.length_encode _ _

theorem ofNat_decode_word32 (word : UInt32) :
    UInt32.ofNat (LittleEndian.decode (word32 word)) = word := by
  rw [word32, LittleEndian.decode_encode_of_lt 4 _ word.toNat_lt, UInt32.ofNat_toNat]

theorem word32_ofNat_decode (field : Bytes) (hfield : field.length = 4) :
    word32 (UInt32.ofNat (LittleEndian.decode field)) = field := by
  have hlt := LittleEndian.decode_lt field
  rw [hfield] at hlt
  have hnat : (UInt32.ofNat (LittleEndian.decode field)).toNat = LittleEndian.decode field :=
    UInt32.toNat_ofNat_of_lt' hlt
  have hbytes := LittleEndian.encode_decode field
  rw [word32, hnat, ← hfield, hbytes]

theorem word32_injective (left right : UInt32) (h : word32 left = word32 right) : left = right := by
  rw [← ofNat_decode_word32 left, h, ofNat_decode_word32]

/-- The word with given low and high halves has the bytes of both, in that order. -/
theorem word64_halves (low high : UInt32) :
    word64 (UInt64.ofNat (low.toNat + 2 ^ 32 * high.toNat)) = word32 low ++ word32 high := by
  have hlow : low.toNat < 2 ^ 32 := low.toNat_lt
  have hhigh : high.toNat < 2 ^ 32 := high.toNat_lt
  have hnat : (UInt64.ofNat (low.toNat + 2 ^ 32 * high.toNat)).toNat =
      low.toNat + 2 ^ 32 * high.toNat := UInt64.toNat_ofNat_of_lt' (by simp [UInt64.size]; omega)
  rw [word64, hnat, LittleEndian.encode_add 4 4, ← LittleEndian.encode_mod 4]
  have hmod : (low.toNat + 2 ^ 32 * high.toNat) % 256 ^ 4 = low.toNat := by omega
  have hdiv : (low.toNat + 2 ^ 32 * high.toNat) / 256 ^ 4 = high.toNat := by omega
  rw [hmod, hdiv]
  rfl

/-- Every 64-bit word is the word of its two halves. -/
theorem exists_halves (word : UInt64) :
    ∃ low high : UInt32, word = UInt64.ofNat (low.toNat + 2 ^ 32 * high.toNat) := by
  have hword : word.toNat < 2 ^ 64 := word.toNat_lt
  refine ⟨UInt32.ofNat (word.toNat % 2 ^ 32), UInt32.ofNat (word.toNat / 2 ^ 32), ?_⟩
  rw [UInt32.toNat_ofNat_of_lt' (by simp [UInt32.size]; omega),
    UInt32.toNat_ofNat_of_lt' (by simp [UInt32.size]; omega), Nat.mod_add_div, UInt64.ofNat_toNat]

end Bytes

namespace Cursor

/-- The next field is handed out exactly when it is there. -/
theorem bytes_eq_ok_iff (cursor next : Cursor) (count : Nat) (field : Bytes) :
    cursor.bytes count = .ok (field, next) ↔
      cursor.rest = field ++ next.rest ∧ field.length = count ∧
        next.position = cursor.position + count := by
  have hsplit := Bytes.split?_eq_some_iff count cursor.rest field next.rest
  unfold bytes
  cases hrest : cursor.rest.split? count with
  | none =>
      rw [hrest] at hsplit
      constructor
      · intro h
        cases h
      · rintro ⟨heq, hlength, -⟩
        cases hsplit.mpr ⟨heq, hlength⟩
  | some pair =>
      obtain ⟨taken, rest⟩ := pair
      rw [hrest] at hsplit
      rw [← and_assoc, ← hsplit]
      constructor
      · intro h
        cases h
        exact ⟨rfl, rfl⟩
      · rintro ⟨heq, hposition⟩
        cases heq
        cases next
        cases hposition
        rfl

theorem bytes_of_short {cursor : Cursor} {count : Nat} (hshort : cursor.rest.length < count) :
    cursor.bytes count = .error .outOfBounds := by
  rw [bytes, (Bytes.split?_eq_none_iff count cursor.rest).mpr hshort]
  rfl

/-- The next word is handed out exactly when its four bytes are there. -/
theorem word32_eq_ok_iff (cursor next : Cursor) (word : UInt32) :
    cursor.word32 = .ok (word, next) ↔
      cursor.rest = Bytes.word32 word ++ next.rest ∧ next.position = cursor.position + 4 := by
  unfold word32
  constructor
  · intro h
    cases hbytes : cursor.bytes 4 with
    | error error =>
        rw [hbytes] at h
        cases h
    | ok pair =>
        obtain ⟨field, behind⟩ := pair
        rw [hbytes] at h
        cases h
        obtain ⟨hrest, hlength, hposition⟩ := (bytes_eq_ok_iff cursor next 4 field).mp hbytes
        rw [Bytes.word32_ofNat_decode field hlength]
        exact ⟨hrest, hposition⟩
  · rintro ⟨hrest, hposition⟩
    have hbytes := (bytes_eq_ok_iff cursor next 4 (Bytes.word32 word)).mpr
      ⟨hrest, Bytes.length_word32 word, hposition⟩
    rw [hbytes]
    change Except.ok (UInt32.ofNat (LittleEndian.decode (Bytes.word32 word)), next) = _
    rw [Bytes.ofNat_decode_word32]

end Cursor

end Residual
