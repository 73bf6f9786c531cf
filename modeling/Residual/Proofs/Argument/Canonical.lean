import Residual.Argument.Decoder
import Residual.Proofs.Bytes.Words

/-!
# The canonical argument format

The format of an encoded argument is stated here field by field, apart from
the code that writes and reads it. Reading one descriptor accepts exactly its
canonical form: nothing else is read as that descriptor, and whatever follows
the form stays unread.
-/

namespace Residual

namespace Descriptor

/-- A memory region has a canonical form when its padded length is a 32-bit
number. All other descriptors have one. -/
def Representable : Descriptor → Prop
  | buffer data => data.length ≤ 2 ^ 32 - 8
  | _ => True

instance (descriptor : Descriptor) : Decidable descriptor.Representable :=
  match descriptor with
  | buffer data => inferInstanceAs (Decidable (data.length ≤ 2 ^ 32 - 8))
  | runtime | i32 _ | i64 _ | f32 _ | f64 _ => inferInstanceAs (Decidable True)

/-- The tag of the record. -/
def canonicalTag : Descriptor → Nat
  | i32 _ => 0
  | i64 _ => 1
  | f32 _ => 2
  | f64 _ => 3
  | buffer _ => 4
  | runtime => 255

/-- The eight value bytes: a value in the low bytes with zeros above, or the
exact and the padded length of a memory region. -/
def canonicalValue : Descriptor → Bytes
  | runtime => Bytes.digits 8 0
  | i32 value => Bytes.digits 8 value.toNat
  | i64 value => Bytes.digits 8 value.toNat
  | f32 bits => Bytes.digits 8 bits.toNat
  | f64 bits => Bytes.digits 8 bits.toNat
  | buffer data => Bytes.digits 4 data.length ++ Bytes.digits 4 ((data.length + 7) / 8 * 8)

/-- The bytes behind the record: a memory region and zeros up to its padded
length. -/
def canonicalInline : Descriptor → Bytes
  | buffer data => data ++ List.replicate ((data.length + 7) / 8 * 8 - data.length) 0
  | _ => []

/-- The canonical form: flags, tag, value bytes, inline bytes. -/
def canonical (descriptor : Descriptor) : Bytes :=
  Bytes.digits 4 (if descriptor = runtime then 0 else 1) ++
    Bytes.digits 4 descriptor.canonicalTag ++
      descriptor.canonicalValue ++ descriptor.canonicalInline

/-- The size of the canonical form. -/
def canonicalSize : Descriptor → Nat
  | buffer data => 16 + (data.length + 7) / 8 * 8
  | _ => 16

/-- The canonical forms of a sequence, one after the other. -/
def canonicalAll (descriptors : List Descriptor) : Bytes := descriptors.flatMap canonical

theorem canonicalAll_cons (descriptor : Descriptor) (rest : List Descriptor) :
    canonicalAll (descriptor :: rest) = descriptor.canonical ++ canonicalAll rest :=
  List.flatMap_cons

theorem paddedLength_ofNat (length : Nat) (hlength : length ≤ 2 ^ 32 - 8) :
    (paddedLength (UInt32.ofNat length)).toNat = Bytes.roundUp length := by
  have hnat : (UInt32.ofNat length).toNat = length :=
    UInt32.toNat_ofNat_of_lt' (by simp [UInt32.size]; omega)
  rw [paddedLength, hnat, UInt32.toNat_ofNat_of_lt' (by simp [UInt32.size]; omega)]
  unfold Bytes.roundUp
  omega

theorem ofNat_le_paddedLength {length : Nat} (hlength : length ≤ 2 ^ 32 - 8) :
    UInt32.ofNat length ≤ paddedLength (UInt32.ofNat length) := by
  have hnat : (UInt32.ofNat length).toNat = length :=
    UInt32.toNat_ofNat_of_lt' (by simp [UInt32.size]; omega)
  rw [UInt32.le_iff_toNat_le, paddedLength_ofNat length hlength, hnat]
  exact Bytes.le_roundUp length

/-- Beyond the last multiple of eight, rounding up within 32 bits falls short. -/
theorem le_of_le_paddedLength (length : UInt32) (hpadded : length ≤ paddedLength length) :
    length.toNat ≤ 2 ^ 32 - 8 := by
  have hlength : length.toNat < 2 ^ 32 := length.toNat_lt
  have hle : length.toNat ≤ (paddedLength length).toNat := UInt32.le_iff_toNat_le.mp hpadded
  rw [paddedLength, UInt32.toNat_ofNat_of_lt' (by simp [UInt32.size]; omega)] at hle
  omega

theorem word32_eq_digits (word : UInt32) : Bytes.word32 word = Bytes.digits 4 word.toNat :=
  LittleEndian.encode_eq_digits 4 word.toNat

theorem word64_eq_digits (word : UInt64) : Bytes.word64 word = Bytes.digits 8 word.toNat :=
  LittleEndian.encode_eq_digits 8 word.toNat

theorem word32_flagWord (descriptor : Descriptor) :
    Bytes.word32 (flagWord descriptor.isSpecialized) =
      Bytes.digits 4 (if descriptor = runtime then 0 else 1) := by
  rw [word32_eq_digits]
  cases descriptor <;> rfl

theorem word32_tag (descriptor : Descriptor) :
    Bytes.word32 descriptor.kind.tag = Bytes.digits 4 descriptor.canonicalTag := by
  rw [word32_eq_digits]
  cases descriptor <;> rfl

theorem digits_word_zero (word : UInt32) :
    Bytes.digits 8 word.toNat = Bytes.word32 word ++ Bytes.word32 0 := by
  have hword : word.toNat < 2 ^ 32 := word.toNat_lt
  rw [← LittleEndian.encode_eq_digits, LittleEndian.encode_add 4 4, Nat.div_eq_of_lt (by omega)]
  rfl

theorem canonicalValue_buffer {data : Bytes} (hlength : data.length ≤ 2 ^ 32 - 8) :
    (buffer data).canonicalValue = Bytes.word32 (.ofNat data.length) ++
      Bytes.word32 (paddedLength (.ofNat data.length)) := by
  have hnat : (UInt32.ofNat data.length).toNat = data.length :=
    UInt32.toNat_ofNat_of_lt' (by simp [UInt32.size]; omega)
  rw [word32_eq_digits, word32_eq_digits, hnat, paddedLength_ofNat data.length hlength]
  rfl

theorem flagWord_known (specialized : Bool) :
    ¬ (flagWord specialized ≠ flagWord false ∧ flagWord specialized ≠ flagWord true) := by
  cases specialized <;> simp

theorem readKind_eq_ok_iff (offset : Nat) (flags tag : UInt32) (kind : ArgKind) :
    readKind offset flags tag = .ok kind ↔
      flags = flagWord kind.isSpecialized ∧ tag = kind.tag := by
  unfold readKind
  constructor
  · intro h
    cases htag : ArgKind.ofTag? tag with
    | none =>
        rw [htag] at h
        cases h
    | some found =>
        simp only [htag] at h
        split at h
        · cases h
        · split at h
          · cases h
          next hflags =>
            cases h
            exact ⟨Decidable.not_not.mp hflags, (ArgKind.ofTag?_eq_some_iff tag kind).mp htag⟩
  · rintro ⟨rfl, rfl⟩
    simp only [ArgKind.ofTag?_tag]
    rw [if_neg (flagWord_known _), if_neg (Decidable.not_not.mpr rfl)]

theorem all_zero_iff (data : Bytes) :
    data.all (· == 0) = true ↔ data = Bytes.zeros data.length := by
  simp only [List.all_eq_true, beq_iff_eq, Bytes.zeros, List.eq_replicate_iff, true_and]

/-- A region is cut out of its padding without loss when the padding is zero. -/
theorem padded_take {region : Bytes} {count : Nat} (hregion : region.length = Bytes.roundUp count)
    (hzero : (region.drop count).all (· == 0) = true) :
    (region.take count).length = count ∧ Bytes.padded (region.take count) = region := by
  have hcount : (region.take count).length = count := by
    rw [List.length_take, hregion]
    exact Nat.min_eq_left (Bytes.le_roundUp count)
  refine ⟨hcount, ?_⟩
  rw [Bytes.padded, hcount, ← hregion, ← List.length_drop, ← (all_zero_iff _).mp hzero,
    List.take_append_drop]

theorem readBuffer_sound {offset : Nat} {length padded : UInt32} {cursor next : Cursor}
    {descriptor : Descriptor}
    (hread : readBuffer offset length padded cursor = .ok (descriptor, next)) :
    ∃ data, descriptor = buffer data ∧ data.length ≤ 2 ^ 32 - 8 ∧
      length = UInt32.ofNat data.length ∧ padded = paddedLength length ∧
      cursor.rest = Bytes.padded data ++ next.rest ∧
      next.position = cursor.position + (Bytes.padded data).length := by
  unfold readBuffer at hread
  split at hread
  next => cases hread
  next hlengths =>
    obtain ⟨hpadded, hle⟩ := not_or.mp hlengths
    have hpadded := Decidable.not_not.mp hpadded
    have hle : length ≤ padded := UInt32.not_lt.mp hle
    -- A length that rounds up beyond 32 bits wraps to a smaller one, which the order rules out.
    have hbound := le_of_le_paddedLength length (hpadded ▸ hle)
    have hround : padded.toNat = Bytes.roundUp length.toNat := by
      rw [← paddedLength_ofNat length.toNat hbound, UInt32.ofNat_toNat, hpadded]
    cases hbytes : cursor.bytes padded.toNat with
    | error error => simp [hbytes] at hread
    | ok pair =>
        obtain ⟨region, behind⟩ := pair
        simp only [hbytes] at hread
        split at hread
        next hzero =>
          cases hread
          obtain ⟨hrest, hregion, hposition⟩ := (Cursor.bytes_eq_ok_iff _ _ _ _).mp hbytes
          obtain ⟨hdata, hsplit⟩ := padded_take (hregion.trans hround) hzero
          refine ⟨region.take length.toNat, rfl, Nat.le_trans (Nat.le_of_eq hdata) hbound, ?_,
            hpadded, ?_, ?_⟩
          · rw [hdata, UInt32.ofNat_toNat]
          · rw [hsplit, hrest]
          · rw [hsplit, hregion, hposition]
        next => cases hread

theorem readBuffer_padded {offset : Nat} {cursor next : Cursor} {data : Bytes}
    (hbound : data.length ≤ 2 ^ 32 - 8) (hrest : cursor.rest = Bytes.padded data ++ next.rest)
    (hposition : next.position = cursor.position + (Bytes.padded data).length) :
    readBuffer offset (.ofNat data.length) (paddedLength (.ofNat data.length)) cursor =
      .ok (buffer data, next) := by
  have hnat : (UInt32.ofNat data.length).toNat = data.length :=
    UInt32.toNat_ofNat_of_lt' (by simp [UInt32.size]; omega)
  have hround := paddedLength_ofNat data.length hbound
  have hle : ¬ paddedLength (UInt32.ofNat data.length) < UInt32.ofNat data.length :=
    UInt32.not_lt.mpr (ofNat_le_paddedLength hbound)
  have hbytes : cursor.bytes (paddedLength (UInt32.ofNat data.length)).toNat =
      .ok (Bytes.padded data, next) := by
    rw [Bytes.length_padded, ← hround] at hposition
    exact (Cursor.bytes_eq_ok_iff _ _ _ _).mpr
      ⟨hrest, by rw [Bytes.length_padded, hround], hposition⟩
  have hzero : ((Bytes.padded data).drop data.length).all (· == 0) = true := by
    rw [Bytes.padded, List.drop_left, all_zero_iff, Bytes.length_zeros]
  unfold readBuffer
  rw [if_neg (not_or.mpr ⟨Decidable.not_not.mpr rfl, hle⟩)]
  simp only [hbytes, hnat]
  rw [if_pos hzero, Bytes.padded, List.take_left]

/-- A region is read exactly when its two lengths agree and its padding is
zero. Lengths that round up beyond 32 bits never agree. -/
theorem readBuffer_eq_ok_iff (offset : Nat) (length padded : UInt32) (cursor next : Cursor)
    (descriptor : Descriptor) :
    readBuffer offset length padded cursor = .ok (descriptor, next) ↔
      ∃ data, descriptor = buffer data ∧ data.length ≤ 2 ^ 32 - 8 ∧
        length = UInt32.ofNat data.length ∧ padded = paddedLength length ∧
        cursor.rest = Bytes.padded data ++ next.rest ∧
        next.position = cursor.position + (Bytes.padded data).length := by
  constructor
  · exact readBuffer_sound
  · rintro ⟨data, rfl, hbound, rfl, rfl, hrest, hposition⟩
    exact readBuffer_padded hbound hrest hposition

theorem words_eq_iff (low high low' high' : UInt32) :
    Bytes.word32 low ++ Bytes.word32 high = Bytes.word32 low' ++ Bytes.word32 high' ↔
      low = low' ∧ high = high' := by
  constructor
  · intro h
    obtain ⟨hlow, hhigh⟩ := List.append_inj h (by rw [Bytes.length_word32, Bytes.length_word32])
    exact ⟨Bytes.word32_injective _ _ hlow, Bytes.word32_injective _ _ hhigh⟩
  · rintro ⟨rfl, rfl⟩
    rfl

theorem words_eq_digits_iff (low high : UInt32) (word : UInt64) :
    Bytes.word32 low ++ Bytes.word32 high = Bytes.digits 8 word.toNat ↔
      word = UInt64.ofNat (low.toNat + 2 ^ 32 * high.toNat) := by
  rw [← word64_eq_digits]
  obtain ⟨low', high', rfl⟩ := Bytes.exists_halves word
  rw [Bytes.word64_halves, words_eq_iff]
  constructor
  · rintro ⟨rfl, rfl⟩
    rfl
  · intro h
    have hbytes := congrArg Bytes.word64 h
    rw [Bytes.word64_halves, Bytes.word64_halves, words_eq_iff] at hbytes
    exact ⟨hbytes.1.symm, hbytes.2.symm⟩

/-- The words of a value field and the bytes behind them are read as a
descriptor exactly when they are its canonical ones. -/
theorem readValue_eq_ok_iff (offset : Nat) (kind : ArgKind) (low high : UInt32)
    (cursor next : Cursor) (descriptor : Descriptor) :
    readValue offset kind low high cursor = .ok (descriptor, next) ↔
      descriptor.kind = kind ∧ descriptor.Representable ∧
        Bytes.word32 low ++ Bytes.word32 high = descriptor.canonicalValue ∧
        cursor.rest = descriptor.canonicalInline ++ next.rest ∧
        next.position = cursor.position + descriptor.canonicalInline.length := by
  constructor
  · intro h
    cases kind with
    | i32 | f32 =>
        simp only [readValue] at h
        split at h
        next hhigh =>
          cases h
          exact ⟨rfl, trivial, hhigh ▸ (digits_word_zero low).symm, rfl, rfl⟩
        next => cases h
    | runtime =>
        simp only [readValue] at h
        split at h
        next hzero =>
          obtain ⟨rfl, rfl⟩ := hzero
          cases h
          exact ⟨rfl, trivial, rfl, rfl, rfl⟩
        next => cases h
    | i64 | f64 =>
        cases h
        exact ⟨rfl, trivial, (words_eq_digits_iff low high _).mpr rfl, rfl, rfl⟩
    | buffer =>
        obtain ⟨data, rfl, hbound, hlow, hhigh, hrest, hposition⟩ :=
          (readBuffer_eq_ok_iff offset low high cursor next descriptor).mp h
        refine ⟨rfl, hbound, ?_, hrest, hposition⟩
        rw [canonicalValue_buffer hbound, ← hlow, ← hhigh]
  · rintro ⟨rfl, hrepresentable, hvalue, hrest, hposition⟩
    have hstay : descriptor.canonicalInline = [] → next = cursor := by
      intro hinline
      cases cursor
      cases next
      simp_all
    cases descriptor with
    | runtime =>
        obtain ⟨rfl, rfl⟩ := (words_eq_iff low high 0 0).mp hvalue
        rw [hstay rfl]
        rfl
    | i32 word | f32 word =>
        rw [canonicalValue, digits_word_zero, words_eq_iff] at hvalue
        obtain ⟨rfl, rfl⟩ := hvalue
        rw [hstay rfl]
        rfl
    | i64 word | f64 word =>
        rw [hstay rfl, (words_eq_digits_iff low high word).mp hvalue]
        rfl
    | buffer data =>
        rw [canonicalValue_buffer hrepresentable, words_eq_iff] at hvalue
        obtain ⟨rfl, rfl⟩ := hvalue
        exact (readBuffer_eq_ok_iff offset _ _ cursor next (buffer data)).mpr
          ⟨data, rfl, hrepresentable, rfl, rfl, hrest, hposition⟩

theorem length_canonicalValue (descriptor : Descriptor) : descriptor.canonicalValue.length = 8 := by
  cases descriptor <;> simp [canonicalValue, Bytes.length_digits]

theorem length_canonical (descriptor : Descriptor) :
    descriptor.canonical.length = 16 + descriptor.canonicalInline.length := by
  simp only [canonical, List.length_append, Bytes.length_digits, length_canonicalValue]

theorem canonical_ne_nil (descriptor : Descriptor) : descriptor.canonical ≠ [] := by
  have hlength := descriptor.length_canonical
  exact List.ne_nil_of_length_pos (by omega)

theorem exists_words_eq_canonicalValue (descriptor : Descriptor) :
    ∃ low high, Bytes.word32 low ++ Bytes.word32 high = descriptor.canonicalValue := by
  have hlength := descriptor.length_canonicalValue
  refine ⟨UInt32.ofNat (LittleEndian.decode (descriptor.canonicalValue.take 4)),
    UInt32.ofNat (LittleEndian.decode (descriptor.canonicalValue.drop 4)), ?_⟩
  rw [Bytes.word32_ofNat_decode (descriptor.canonicalValue.take 4) (by simp [hlength]),
    Bytes.word32_ofNat_decode (descriptor.canonicalValue.drop 4) (by simp [hlength]),
    List.take_append_drop]

/-- A descriptor is read exactly when its canonical form comes next. -/
theorem read_eq_ok_iff (cursor next : Cursor) (descriptor : Descriptor) :
    read cursor = .ok (descriptor, next) ↔
      descriptor.Representable ∧ cursor.rest = descriptor.canonical ++ next.rest ∧
        next.position = cursor.position + descriptor.canonical.length := by
  have hlength := descriptor.length_canonical
  simp only [read, Error.bind_eq_ok_iff, Prod.exists, Cursor.word32_eq_ok_iff, readKind_eq_ok_iff,
    readValue_eq_ok_iff]
  constructor
  · rintro ⟨flags, afterFlags, ⟨hflags, hafterFlags⟩, tag, afterTag, ⟨htag, hafterTag⟩, kind,
      ⟨rfl, rfl⟩, low, afterLow, ⟨hlow, hafterLow⟩, high, afterHigh, ⟨hhigh, hafterHigh⟩, rfl,
      hrepresentable, hvalue, hinline, hposition⟩
    refine ⟨hrepresentable, ?_, by omega⟩
    rw [hflags, htag, hlow, hhigh, hinline, canonical, ← hvalue, ← word32_flagWord, ← word32_tag]
    simp only [List.append_assoc]
    rfl
  · rintro ⟨hrepresentable, hrest, hposition⟩
    obtain ⟨low, high, hvalue⟩ := descriptor.exists_words_eq_canonicalValue
    rw [canonical, ← hvalue, ← word32_flagWord, ← word32_tag] at hrest
    simp only [List.append_assoc] at hrest
    exact ⟨_, ⟨cursor.position + 4, _⟩, ⟨hrest, rfl⟩, _, ⟨cursor.position + 8, _⟩, ⟨rfl, rfl⟩,
      descriptor.kind, ⟨rfl, rfl⟩, low, ⟨cursor.position + 12, _⟩, ⟨rfl, rfl⟩, high,
      ⟨cursor.position + 16, _⟩, ⟨rfl, rfl⟩, rfl, hrepresentable, hvalue, rfl,
      by rw [hposition, hlength, Nat.add_assoc]⟩

end Descriptor

end Residual
