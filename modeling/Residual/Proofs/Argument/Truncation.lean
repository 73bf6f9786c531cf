import Residual.Proofs.Argument.Writing

/-!
# Truncated argument buffers

A buffer that was cut short is read up to the cut. Every check that a record passes before its
missing bytes are needed is passed by its beginning too, so the cut shows as a lack of bytes and as
nothing else. In particular no beginning of a record is read as a shorter one.
-/

namespace Residual

namespace Cursor

/-- A word is read from the beginning of what it starts, unless the cut falls into the word
itself. -/
theorem word32_take (position : Nat) (word : UInt32) (rest : Bytes) (length : Nat) :
    word32 ⟨position, (Bytes.word32 word ++ rest).take length⟩ =
      if length < 4 then .error .outOfBounds
      else .ok (word, ⟨position + 4, rest.take (length - 4)⟩) := by
  have hword := Bytes.length_word32 word
  split
  next hcut =>
    rw [word32, bytes_of_short]
    · rfl
    · rw [List.length_take]
      omega
  next hwhole =>
    rw [word32_eq_ok_iff]
    refine ⟨?_, rfl⟩
    rw [List.take_append, List.take_of_length_le (by omega), hword]

end Cursor

namespace Descriptor

/-- The two lengths of a memory region agree, so only the lack of its bytes can stop the reader. -/
theorem readBuffer_of_short {offset : Nat} {cursor : Cursor} {data : Bytes}
    (hbound : data.length ≤ 2 ^ 32 - 8) (hshort : cursor.rest.length < (Bytes.padded data).length) :
    readBuffer offset (.ofNat data.length) (paddedLength (.ofNat data.length)) cursor =
      .error .outOfBounds := by
  have hle : ¬ paddedLength (UInt32.ofNat data.length) < UInt32.ofNat data.length :=
    UInt32.not_lt.mpr (ofNat_le_paddedLength hbound)
  rw [Bytes.length_padded, ← paddedLength_ofNat data.length hbound] at hshort
  rw [readBuffer, if_neg (not_or.mpr ⟨Decidable.not_not.mpr rfl, hle⟩),
    Cursor.bytes_of_short hshort]

theorem readValue_of_short {offset : Nat} {low high : UInt32} {cursor : Cursor}
    {descriptor : Descriptor} (hrepresentable : descriptor.Representable)
    (hvalue : Bytes.word32 low ++ Bytes.word32 high = descriptor.canonicalValue)
    (hshort : cursor.rest.length < descriptor.canonicalInline.length) :
    readValue offset descriptor.kind low high cursor = .error .outOfBounds := by
  cases descriptor with
  | buffer data =>
      rw [canonicalValue_buffer hrepresentable, words_eq_iff] at hvalue
      obtain ⟨rfl, rfl⟩ := hvalue
      exact readBuffer_of_short hrepresentable hshort
  | _ => cases hshort

/-- The beginning of a record is not read as anything: wherever the cut falls, bytes are missing. -/
theorem read_take_canonical {descriptor : Descriptor} (hrepresentable : descriptor.Representable)
    (position : Nat) {length : Nat} (hlength : length < descriptor.canonical.length) :
    read ⟨position, descriptor.canonical.take length⟩ = .error .outOfBounds := by
  obtain ⟨low, high, hvalue⟩ := descriptor.exists_words_eq_canonicalValue
  have hkind : readKind position (flagWord descriptor.isSpecialized) descriptor.kind.tag =
      .ok descriptor.kind := (readKind_eq_ok_iff _ _ _ _).mpr ⟨rfl, rfl⟩
  have hwords : descriptor.canonical =
      Bytes.word32 (flagWord descriptor.isSpecialized) ++ (Bytes.word32 descriptor.kind.tag ++
        (Bytes.word32 low ++ (Bytes.word32 high ++ descriptor.canonicalInline))) := by
    rw [canonical, ← hvalue, ← word32_flagWord, ← word32_tag]
    simp only [List.append_assoc]
  rw [length_canonical] at hlength
  rw [read, hwords, Cursor.word32_take]
  by_cases hflags : length < 4
  · rw [if_pos hflags]
    rfl
  rw [if_neg hflags]
  change (Cursor.word32 ⟨position + 4, _⟩ >>= _) = _
  rw [Cursor.word32_take]
  by_cases htag : length - 4 < 4
  · rw [if_pos htag]
    rfl
  rw [if_neg htag]
  change (readKind position _ _ >>= _) = _
  rw [hkind]
  change (Cursor.word32 ⟨position + 4 + 4, _⟩ >>= _) = _
  rw [Cursor.word32_take]
  by_cases hlow : length - 4 - 4 < 4
  · rw [if_pos hlow]
    rfl
  rw [if_neg hlow]
  change (Cursor.word32 ⟨position + 4 + 4 + 4, _⟩ >>= _) = _
  rw [Cursor.word32_take]
  by_cases hhigh : length - 4 - 4 - 4 < 4
  · rw [if_pos hhigh]
    rfl
  rw [if_neg hhigh]
  apply readValue_of_short hrepresentable hvalue
  rw [List.length_take]
  omega

/-- Where the record of a descriptor ends in the encoding of a sequence. -/
def recordEnd (descriptors : List Descriptor) (index : Nat) : Nat :=
  (canonicalAll (descriptors.take (index + 1))).length

/-- No record is cut in two at this length. -/
def IsBoundary (descriptors : List Descriptor) (length : Nat) : Prop :=
  length = 0 ∨ ∃ index < descriptors.length, recordEnd descriptors index = length

theorem recordEnd_zero (descriptor : Descriptor) (rest : List Descriptor) :
    recordEnd (descriptor :: rest) 0 = descriptor.canonical.length := by
  simp [recordEnd, canonicalAll]

theorem recordEnd_succ (descriptor : Descriptor) (rest : List Descriptor) (index : Nat) :
    recordEnd (descriptor :: rest) (index + 1) =
      descriptor.canonical.length + recordEnd rest index := by
  rw [recordEnd, List.take_succ_cons, canonicalAll_cons, List.length_append, recordEnd]

/-- Behind its first record, a sequence is cut where the rest of it is cut. -/
theorem isBoundary_cons_iff {descriptor : Descriptor} {rest : List Descriptor} {length : Nat} :
    IsBoundary (descriptor :: rest) (descriptor.canonical.length + length) ↔
      IsBoundary rest length := by
  have hpos := List.length_pos_iff.mpr descriptor.canonical_ne_nil
  constructor
  · rintro (hzero | ⟨index, hindex, hend⟩)
    · omega
    · cases index with
      | zero =>
          rw [recordEnd_zero] at hend
          exact Or.inl (by omega)
      | succ index =>
          rw [recordEnd_succ] at hend
          exact Or.inr ⟨index, Nat.lt_of_succ_lt_succ hindex, by omega⟩
  · rintro (rfl | ⟨index, hindex, rfl⟩)
    · exact Or.inr ⟨0, Nat.zero_lt_succ _, recordEnd_zero descriptor rest⟩
    · exact Or.inr ⟨index + 1, Nat.succ_lt_succ hindex, recordEnd_succ descriptor rest index⟩

theorem le_recordEnd (descriptor : Descriptor) (rest : List Descriptor) (index : Nat) :
    descriptor.canonical.length ≤ recordEnd (descriptor :: rest) index := by
  cases index with
  | zero => exact Nat.le_of_eq (recordEnd_zero descriptor rest).symm
  | succ index =>
      rw [recordEnd_succ]
      exact Nat.le_add_right _ _

theorem not_isBoundary_of_lt {descriptor : Descriptor} {rest : List Descriptor} {length : Nat}
    (hpos : 0 < length) (hcut : length < descriptor.canonical.length) :
    ¬ IsBoundary (descriptor :: rest) length := by
  rintro (hzero | ⟨index, -, hend⟩)
  · omega
  · have hle := le_recordEnd descriptor rest index
    omega

/-- The first `count` descriptors of a sequence are those whose records end within a length. -/
structure Within (descriptors : List Descriptor) (length count : Nat) : Prop where
  count_le : count ≤ descriptors.length
  end_le_iff : ∀ index < descriptors.length, recordEnd descriptors index ≤ length ↔ index < count

theorem within_of_lt {descriptor : Descriptor} {rest : List Descriptor} {length : Nat}
    (hcut : length < descriptor.canonical.length) : Within (descriptor :: rest) length 0 := by
  refine ⟨Nat.zero_le _, ?_⟩
  intro index _
  have hle := le_recordEnd descriptor rest index
  omega

theorem Within.cons {rest : List Descriptor} {length count : Nat}
    (hwithin : Within rest length count) (descriptor : Descriptor) :
    Within (descriptor :: rest) (descriptor.canonical.length + length) (count + 1) := by
  refine ⟨Nat.succ_le_succ hwithin.count_le, ?_⟩
  intro index hindex
  cases index with
  | zero =>
      rw [recordEnd_zero]
      omega
  | succ index =>
      have hrest := hwithin.end_le_iff index (Nat.lt_of_succ_lt_succ hindex)
      rw [recordEnd_succ]
      omega

end Descriptor

open Descriptor

namespace Decoder

/-- What a decoder of the beginning of an encoding hands out. -/
structure HandsOutWithin (decoder : Decoder) (descriptors : List Descriptor) (length count : Nat) :
    Prop where
  /-- At a boundary it stops without a failure. -/
  boundary : IsBoundary descriptors length → decoder.HandsOut (handed (descriptors.take count) none)
  /-- Elsewhere it fails once, for a lack of bytes. -/
  cut : ¬ IsBoundary descriptors length →
    decoder.HandsOut (handed (descriptors.take count) (some .outOfBounds))

theorem handsOutWithin_of_lt {descriptor : Descriptor} {rest : List Descriptor} {length : Nat}
    (hrepresentable : descriptor.Representable) (hcut : length < descriptor.canonical.length)
    (position : Nat) :
    (⟨⟨position, descriptor.canonical.take length⟩, false⟩ : Decoder).HandsOutWithin
      (descriptor :: rest) length 0 := by
  rcases Nat.eq_zero_or_pos length with rfl | hpos
  · exact ⟨fun _ => HandsOut.nil _ (next_of_done _ _ (Or.inr rfl)),
      fun hnot => absurd (Or.inl rfl) hnot⟩
  · refine ⟨fun hboundary => absurd hboundary (not_isBoundary_of_lt hpos hcut), fun _ => ?_⟩
    have hmore : descriptor.canonical.take length ≠ [] := by
      apply List.ne_nil_of_length_pos
      rw [List.length_take]
      omega
    have hstop := HandsOut.nil _ (next_of_done
      ⟨position, descriptor.canonical.take length⟩ true (Or.inl rfl))
    exact HandsOut.cons _ _ _ _
      (next_of_read_error _ _ hmore (read_take_canonical hrepresentable position hcut)) hstop

theorem HandsOutWithin.cons {descriptor : Descriptor} {rest : List Descriptor} {length count : Nat}
    {bytes : Bytes} {position : Nat} (hrepresentable : descriptor.Representable)
    (hrest : (⟨⟨position + descriptor.canonical.length, bytes⟩, false⟩ : Decoder).HandsOutWithin
      rest length count) :
    (⟨⟨position, descriptor.canonical ++ bytes⟩, false⟩ : Decoder).HandsOutWithin
      (descriptor :: rest) (descriptor.canonical.length + length) (count + 1) := by
  have hread : read ⟨position, descriptor.canonical ++ bytes⟩ =
      .ok (descriptor, ⟨position + descriptor.canonical.length, bytes⟩) :=
    (read_eq_ok_iff _ _ _).mpr ⟨hrepresentable, rfl, rfl⟩
  have hmore : descriptor.canonical ++ bytes ≠ [] :=
    List.append_ne_nil_of_left_ne_nil descriptor.canonical_ne_nil bytes
  have hnext := next_of_read_ok _ _ _ hmore hread
  refine ⟨?_, ?_⟩
  · intro hboundary
    exact HandsOut.cons _ _ _ _ hnext (hrest.boundary (isBoundary_cons_iff.mp hboundary))
  · intro hcut
    exact HandsOut.cons _ _ _ _ hnext
      (hrest.cut fun hboundary => hcut (isBoundary_cons_iff.mpr hboundary))

/-- The cut is in the first record, or else behind it, and then the rest is cut. -/
theorem exists_handsOutWithin {descriptors : List Descriptor}
    (hrepresentable : ∀ descriptor ∈ descriptors, descriptor.Representable) (position : Nat)
    {length : Nat} (hlength : length ≤ (canonicalAll descriptors).length) :
    ∃ count, Within descriptors length count ∧
      (⟨⟨position, (canonicalAll descriptors).take length⟩, false⟩ : Decoder).HandsOutWithin
        descriptors length count := by
  induction descriptors generalizing position length with
  | nil =>
      have hzero : length = 0 := Nat.le_zero.mp hlength
      refine ⟨0, ⟨Nat.le_refl 0, fun _ hindex => absurd hindex (Nat.not_lt_zero _)⟩, ?_, ?_⟩
      · exact fun _ => HandsOut.nil _ (next_of_done _ _ (Or.inr (List.take_nil)))
      · exact fun hnot => absurd (Or.inl hzero) hnot
  | cons descriptor rest ih =>
      obtain ⟨hfirst, hothers⟩ := List.forall_mem_cons.mp hrepresentable
      rw [canonicalAll_cons, List.length_append] at hlength
      rw [canonicalAll_cons, List.take_append]
      rcases Nat.lt_or_ge length descriptor.canonical.length with hcut | hwhole
      · refine ⟨0, within_of_lt hcut, ?_⟩
        rw [Nat.sub_eq_zero_of_le (Nat.le_of_lt hcut), List.take_zero, List.append_nil]
        exact handsOutWithin_of_lt hfirst hcut position
      · obtain ⟨behind, rfl⟩ := Nat.exists_eq_add_of_le hwhole
        have hbehind : behind ≤ (canonicalAll rest).length := by omega
        obtain ⟨count, hwithin, hhanded⟩ :=
          ih hothers (position + descriptor.canonical.length) hbehind
        refine ⟨count + 1, hwithin.cons descriptor, ?_⟩
        rw [List.take_of_length_le hwhole, Nat.add_sub_cancel_left]
        exact hhanded.cons hfirst

end Decoder

open Decoder

/-- A written buffer that is cut short never decodes to something else. From the first `length`
bytes the decoder hands out exactly the descriptors whose records end there or before, in order. If
the cut is at the end of a record or at the start, nothing follows; otherwise exactly one failure
does, a lack of bytes, and then nothing for ever. -/
theorem truncation_is_never_misread (policy : Policy) (descriptors : List Descriptor)
    (buffer : ArgBuffer)
    (hwritten : (ArgBuffer.empty policy).describeAll descriptors = .ok buffer) (length : Nat)
    (hlength : length ≤ buffer.take.1.length) :
    ∃ count, Within descriptors length count ∧
      (start (buffer.take.1.take length)).HandsOutWithin descriptors length count := by
  obtain ⟨hcontents, -, hrepresentable⟩ :=
    ArgBuffer.describeAll_eq_ok (ArgBuffer.empty policy) buffer descriptors hwritten
  have htaken : buffer.take.1 = canonicalAll descriptors := hcontents
  rw [htaken] at hlength ⊢
  exact exists_handsOutWithin hrepresentable 0 hlength

/-- The cut falls into the padding of the second record. -/
theorem truncation_is_never_misread_padding :
    ∃ buffer,
      (ArgBuffer.empty .strict).describeAll [.i32 7, .buffer [1, 2, 3], .runtime] = .ok buffer ∧
        (start (buffer.take.1.take 37)).HandsOut [.ok (.i32 7), .error .outOfBounds] := by
  obtain ⟨buffer, hwritten⟩ : ∃ buffer,
      (ArgBuffer.empty .strict).describeAll [.i32 7, .buffer [1, 2, 3], .runtime] = .ok buffer :=
    Error.exists_eq_ok (by decide +kernel)
  have hlength : 37 ≤ buffer.take.1.length := by
    change 37 ≤ buffer.contents.length
    rw [(ArgBuffer.describeAll_eq_ok _ buffer _ hwritten).1]
    decide
  obtain ⟨count, hwithin, hhanded⟩ :=
    truncation_is_never_misread .strict _ buffer hwritten 37 hlength
  have hends : recordEnd [.i32 7, .buffer [1, 2, 3], .runtime] 0 = 16 ∧
      recordEnd [.i32 7, .buffer [1, 2, 3], .runtime] 1 = 40 ∧
      recordEnd [.i32 7, .buffer [1, 2, 3], .runtime] 2 = 56 := ⟨rfl, rfl, rfl⟩
  have hcount : count = 1 := by
    have hfirst := hwithin.end_le_iff 0 (by decide)
    have hsecond := hwithin.end_le_iff 1 (by decide)
    omega
  have hcut : ¬ IsBoundary [.i32 7, .buffer [1, 2, 3], .runtime] 37 := by
    rintro (hzero | ⟨index, hindex, hend⟩)
    · cases hzero
    · have hindices : index = 0 ∨ index = 1 ∨ index = 2 := by
        simp only [List.length_cons, List.length_nil] at hindex
        omega
      rcases hindices with rfl | rfl | rfl <;> omega
  subst count
  exact ⟨buffer, hwritten, hhanded.cut hcut⟩

end Residual
