import Residual.Argument.Buffer
import Residual.Proofs.Argument.Decoding
import Residual.Proofs.Bytes.RoundTrip

/-!
# Writing and reading back

A buffer is made longer by zeros, and these are filled in place. A buffer that accepts a descriptor
gains exactly its canonical form that way. The buffer's limit keeps every accepted memory region far
below the longest one that the format can state, so whatever was written is read back.
-/

namespace Residual

open Descriptor InPlace

namespace Window

/-- A value is written over zeros behind what is there. -/
theorem write_zeros {window : Window} {front : Bytes} {room : Nat} {value : Scalar}
    (hdata : window.data = front ++ Bytes.zeros room)
    (hoffset : window.offset.toNat = front.length) (hroom : value.width ≤ room) :
    ∃ next, (write value).outcome window = (.ok (), next) ∧
      next.data = front ++ value.digits ++ Bytes.zeros (room - value.width) ∧
      next.offset.toNat = (front ++ value.digits).length := by
  rcases write_cases window value with ⟨next, houtcome, hwrote⟩ | ⟨-, houtside⟩
  · refine ⟨next, houtcome, ?_, ?_⟩
    · rw [hwrote.data_eq, hoffset, hdata, value.size_type, value.encode_eq_digits, List.take_left,
        ← List.drop_drop, List.drop_left, Bytes.zeros, List.drop_replicate]
      rfl
    · rw [hwrote.offset_eq, hoffset, value.size_type, List.length_append, value.length_digits]
  · rw [hdata, hoffset, value.size_type, List.length_append, Bytes.length_zeros] at houtside
    omega

/-- Values are written over zeros one behind the other, and leave the rest of the zeros. -/
theorem writes_zeros {window : Window} {front : Bytes} {room : Nat} {values : List Scalar}
    (hdata : window.data = front ++ Bytes.zeros room)
    (hoffset : window.offset.toNat = front.length)
    (hroom : (values.flatMap Scalar.digits).length ≤ room) :
    ∃ next, (values.forM write).outcome window = (.ok (), next) ∧
      next.data = front ++ values.flatMap Scalar.digits ++
        Bytes.zeros (room - (values.flatMap Scalar.digits).length) := by
  induction values generalizing window front room with
  | nil =>
      refine ⟨window, rfl, ?_⟩
      rw [hdata, List.flatMap_nil, List.append_nil, List.length_nil, Nat.sub_zero]
  | cons value rest ih =>
      rw [List.flatMap_cons, List.length_append, value.length_digits] at hroom
      obtain ⟨middle, hwrite, hmiddle, hbehind⟩ :=
        write_zeros hdata hoffset (Nat.le_of_add_right_le hroom)
      obtain ⟨next, hrest, hnext⟩ := ih hmiddle hbehind (by omega)
      refine ⟨next, ?_, ?_⟩
      · change outcome (write value >>= fun _ => rest.forM write) window = _
        rw [outcome_bind, hwrite]
        exact hrest
      · rw [hnext, List.flatMap_cons, List.length_append, value.length_digits, Nat.sub_sub,
          List.append_assoc front]

end Window

namespace ArgBuffer

/-- A step on a part of the contents does to that part what it does to a window of its own. -/
theorem outcome_within {buffer : ArgBuffer} {kept part behind : Bytes} {count : Nat}
    (hcontents : buffer.contents = kept ++ (part ++ behind)) (hpart : part.length = count)
    (hcount : count < 0x10000000000000000) {step : InPlace Window Unit} {next : Window}
    (hstep : step.outcome ⟨part, 0, hpart.symm ▸ hcount⟩ = (.ok (), next)) :
    (within kept.length count hcount step).outcome buffer =
      (.ok (), { buffer with contents := kept ++ (next.data ++ behind) }) := by
  have hwindow : buffer.window kept.length count hcount = ⟨part, 0, hpart.symm ▸ hcount⟩ := by
    simp only [window, hcontents, List.drop_left, ← hpart, List.take_left]
  have hkept : buffer.contents.take kept.length = kept := by rw [hcontents, List.take_left]
  have hbehind : buffer.contents.drop (kept.length + count) = behind := by
    rw [hcontents, ← List.drop_drop, List.drop_left, ← hpart, List.drop_left]
  change ((step.outcome (buffer.window kept.length count hcount)).1, { buffer with
    contents := buffer.contents.take kept.length ++
      (step.outcome (buffer.window kept.length count hcount)).2.data ++
      buffer.contents.drop (kept.length + count) }) = _
  rw [hwindow, hstep, hkept, hbehind, List.append_assoc]

theorem outcome_copy {buffer : ArgBuffer} {kept old behind bytes : Bytes}
    (hcontents : buffer.contents = kept ++ (old ++ behind)) (hold : old.length = bytes.length) :
    (copy kept.length bytes).outcome buffer =
      (.ok (), { buffer with contents := kept ++ (bytes ++ behind) }) := by
  rw [copy, outcome_get_bind, hcontents, Bytes.overwrite?_append hold]
  exact outcome_ok_bind _ _ _

theorem le_limit_of_reserve (buffer : ArgBuffer) (count capacity : Nat)
    (hreserve : buffer.reserve count = .ok capacity) : buffer.size + count ≤ buffer.limit := by
  unfold reserve at hreserve
  dsimp only at hreserve
  split at hreserve
  · cases hreserve
  next hfits => exact Nat.not_lt.mp hfits

theorem limit_le_hardLimit (buffer : ArgBuffer) : buffer.limit ≤ Policy.hardLimit :=
  Nat.min_le_right _ _

/-- Once there is room for it, a value adds its digits. -/
theorem outcome_write_of_ok {buffer : ArgBuffer} {value : Scalar} {capacity : Nat}
    (hreserve : buffer.reserve value.width = .ok capacity) :
    (write value).outcome buffer = (.ok (),
      { buffer with contents := buffer.contents ++ value.digits, capacity := capacity }) := by
  rw [← value.size_type] at hreserve
  obtain ⟨next, hwrite, hnext, -⟩ := @Window.write_zeros
    ⟨Bytes.zeros value.type.size, 0, (Bytes.length_zeros _).symm ▸ value.type.size_lt⟩ []
    value.type.size value rfl rfl (Nat.le_of_eq value.size_type.symm)
  have hwithin : (within buffer.size value.type.size value.type.size_lt
      (Window.write value)).outcome
        { buffer with
          contents := buffer.contents ++ Bytes.zeros value.type.size
          capacity := capacity } = (.ok (),
        { buffer with contents := buffer.contents ++ (next.data ++ []), capacity := capacity }) :=
    outcome_within (by rw [List.append_nil]) (Bytes.length_zeros _) value.type.size_lt hwrite
  rw [write, outcome_get_bind, outcome_bind, outcome_allocate_of_ok hreserve]
  dsimp only
  rw [hwithin, hnext, value.size_type, Nat.sub_self, Bytes.zeros_zero, List.append_nil,
    List.append_nil, List.nil_append]

theorem outcome_write_of_error {buffer : ArgBuffer} {value : Scalar} {error : Error}
    (hreserve : buffer.reserve value.width = .error error) :
    (write value).outcome buffer = (.error error, buffer) := by
  rw [← value.size_type] at hreserve
  rw [write, outcome_get_bind, outcome_bind, outcome_allocate_of_error hreserve]

/-- A descriptor that fits into a buffer is one that the format can state. -/
theorem representable_of_fits (descriptor : Descriptor)
    (hfits : descriptor.encodedSize ≤ Policy.hardLimit) : descriptor.Representable := by
  cases descriptor with
  | buffer data =>
      have hdata := Bytes.le_roundUp data.length
      simp only [encodedSize, recordSize, Policy.hardLimit] at hfits
      change data.length ≤ 2 ^ 32 - 8
      omega
  | _ => trivial

theorem overlong?_of_representable {descriptor : Descriptor}
    (hrepresentable : descriptor.Representable) : overlong? descriptor = none := by
  cases descriptor with
  | buffer data =>
      have hlength : data.length ≤ 2 ^ 32 - 8 := hrepresentable
      exact if_pos (by omega)
  | _ => rfl

end ArgBuffer

namespace Descriptor

theorem digits_u32 (word : UInt32) : (Scalar.u32 word).digits = Bytes.word32 word :=
  (word32_eq_digits word).symm

/-- The scalars of a value and zeros behind them are its eight canonical bytes. -/
theorem digits_values {descriptor : Descriptor} (hrepresentable : descriptor.Representable) :
    ∃ room, descriptor.values.flatMap Scalar.digits ++ Bytes.zeros room =
      descriptor.canonicalValue := by
  cases descriptor with
  | runtime => exact ⟨8, rfl⟩
  | i32 word | f32 word =>
      refine ⟨4, ?_⟩
      rw [canonicalValue, digits_word_zero, word32_eq_digits word]
      rfl
  | i64 word | f64 word => exact ⟨0, List.append_nil _⟩
  | buffer data =>
      refine ⟨0, ?_⟩
      rw [canonicalValue_buffer hrepresentable, word32_eq_digits, word32_eq_digits]
      exact List.append_nil _

theorem exists_canonicalInline (descriptor : Descriptor) :
    ∃ padding, descriptor.canonicalInline = descriptor.inlineData ++ Bytes.zeros padding ∧
      descriptor.encodedSize =
        recordSize + (descriptor.inlineData.length + padding) := by
  cases descriptor with
  | buffer data =>
      refine ⟨_, rfl, ?_⟩
      have hround := Bytes.le_roundUp data.length
      change recordSize + Bytes.roundUp data.length =
        recordSize + (data.length + (Bytes.roundUp data.length - data.length))
      omega
  | _ => exact ⟨0, rfl, rfl⟩

/-- The scalars of a record and zeros behind them are the first 16 bytes of the canonical form. -/
theorem digits_fields {descriptor : Descriptor} (hrepresentable : descriptor.Representable) :
    ∃ room, (descriptor.fields.flatMap Scalar.digits).length + room = recordSize ∧
      descriptor.fields.flatMap Scalar.digits ++ Bytes.zeros room ++ descriptor.canonicalInline =
        descriptor.canonical := by
  obtain ⟨room, hvalue⟩ := digits_values hrepresentable
  have hlength := congrArg List.length hvalue
  rw [List.length_append, Bytes.length_zeros, length_canonicalValue] at hlength
  refine ⟨room, ?_, ?_⟩
  · simp only [fields, List.flatMap_cons, List.length_append, Scalar.length_digits, Scalar.width,
      recordSize]
    omega
  · rw [canonical, ← hvalue, ← word32_flagWord, ← word32_tag, fields, List.flatMap_cons,
      List.flatMap_cons, digits_u32, digits_u32]
    simp only [List.append_assoc]

end Descriptor

namespace ArgBuffer

/-- Once there is room for it, a descriptor adds its canonical form. -/
theorem outcome_describe_of_ok {buffer : ArgBuffer} {descriptor : Descriptor} {capacity : Nat}
    (hreserve : buffer.reserve descriptor.encodedSize = .ok capacity) :
    descriptor.Representable ∧ (describe descriptor).outcome buffer = (.ok (),
      { buffer with
        contents := buffer.contents ++ descriptor.canonical
        capacity := capacity }) := by
  have hfits := buffer.le_limit_of_reserve _ capacity hreserve
  have hlimit := buffer.limit_le_hardLimit
  have hrepresentable := representable_of_fits descriptor (by omega)
  have hnone := overlong?_of_representable hrepresentable
  obtain ⟨room, hlength, hcanonical⟩ := digits_fields hrepresentable
  obtain ⟨padding, hinline, hsize⟩ := descriptor.exists_canonicalInline
  obtain ⟨next, hwrite, hnext⟩ := @Window.writes_zeros
    ⟨Bytes.zeros recordSize, 0, (Bytes.length_zeros _).symm ▸ recordSize_lt⟩ [] recordSize
    descriptor.fields rfl rfl (by omega)
  refine ⟨hrepresentable, ?_⟩
  rw [describe, outcome_get_bind, hnone]
  dsimp only
  rw [outcome_bind, outcome_allocate_of_ok hreserve]
  dsimp only
  -- The zeros at the end are those of the record, of the bytes that follow it, and of their
  -- padding.
  have hwithin : (within buffer.size recordSize recordSize_lt
      (descriptor.fields.forM Window.write)).outcome
        { buffer with
          contents := buffer.contents ++ Bytes.zeros descriptor.encodedSize
          capacity := capacity } = (.ok (),
        { buffer with
          contents := buffer.contents ++ (next.data ++
            (Bytes.zeros descriptor.inlineData.length ++ Bytes.zeros padding))
          capacity := capacity }) := by
    refine outcome_within ?_ (Bytes.length_zeros _) recordSize_lt hwrite
    rw [hsize, Bytes.zeros_add, Bytes.zeros_add]
  have hfront : (buffer.contents ++ next.data).length = buffer.size + recordSize := by
    rw [hnext]
    simp only [List.length_append, Bytes.length_zeros, List.nil_append, size]
    omega
  have hcopy : (copy (buffer.size + recordSize) descriptor.inlineData).outcome
        { buffer with
          contents := buffer.contents ++ (next.data ++
            (Bytes.zeros descriptor.inlineData.length ++ Bytes.zeros padding))
          capacity := capacity } = (.ok (),
        { buffer with
          contents := buffer.contents ++ next.data ++
            (descriptor.inlineData ++ Bytes.zeros padding)
          capacity := capacity }) := by
    rw [← hfront]
    exact outcome_copy (List.append_assoc _ _ _).symm (Bytes.length_zeros _)
  rw [outcome_bind, hwithin]
  dsimp only
  rw [hcopy, hnext, ← hinline, List.append_assoc, ← hcanonical, List.nil_append, ← hlength,
    Nat.add_sub_cancel_left]

theorem describe_eq_ok {buffer after : ArgBuffer} {descriptor : Descriptor}
    (hdescribe : (describe descriptor).outcome buffer = (.ok (), after)) :
    after.contents = buffer.contents ++ descriptor.canonical ∧ after.policy = buffer.policy ∧
      descriptor.Representable := by
  cases hlong : overlong? descriptor with
  | some length =>
      rw [outcome_describe_of_overlong hlong] at hdescribe
      cases hdescribe
  | none =>
      cases hreserve : buffer.reserve descriptor.encodedSize with
      | error error =>
          rw [outcome_describe_of_error hlong hreserve] at hdescribe
          cases hdescribe
      | ok capacity =>
          obtain ⟨hrepresentable, houtcome⟩ := outcome_describe_of_ok hreserve
          rw [houtcome] at hdescribe
          cases hdescribe
          exact ⟨rfl, rfl, hrepresentable⟩

/-- A sequence of accepted descriptors adds their canonical forms in order. -/
theorem describeAll_eq_ok (buffer after : ArgBuffer) (descriptors : List Descriptor)
    (hdescribe : buffer.describeAll descriptors = .ok after) :
    after.contents = buffer.contents ++ canonicalAll descriptors ∧ after.policy = buffer.policy ∧
      ∀ descriptor ∈ descriptors, descriptor.Representable := by
  induction descriptors generalizing buffer with
  | nil =>
      cases hdescribe
      simp [canonicalAll]
  | cons descriptor rest ih =>
      unfold describeAll at hdescribe
      rcases hfirst : (describe descriptor).outcome buffer with ⟨error | ⟨⟩, middle⟩
      · rw [hfirst] at hdescribe
        cases hdescribe
      · rw [hfirst] at hdescribe
        obtain ⟨hcontents, hpolicy, hrepresentable⟩ := describe_eq_ok hfirst
        obtain ⟨hrest, hpolicies, hall⟩ := ih middle hdescribe
        refine ⟨?_, hpolicies.trans hpolicy, List.forall_mem_cons.mpr ⟨hrepresentable, hall⟩⟩
        rw [hrest, hcontents, canonicalAll_cons, List.append_assoc]

end ArgBuffer

/-- What was written into an empty buffer is read back, whatever the policy:
every value bit by bit, every memory region with its exact contents. -/
theorem decodeAll_take_describeAll (policy : Policy) (descriptors : List Descriptor)
    (buffer : ArgBuffer)
    (hwritten : (ArgBuffer.empty policy).describeAll descriptors = .ok buffer) :
    decodeAll buffer.take.1 = .ok descriptors := by
  obtain ⟨hcontents, -, hrepresentable⟩ :=
    ArgBuffer.describeAll_eq_ok (ArgBuffer.empty policy) buffer descriptors hwritten
  have htaken : buffer.take.1 = canonicalAll descriptors := hcontents
  rw [htaken]
  exact decodeAll_canonicalAll descriptors hrepresentable

theorem decodeAll_take_describeAll_mixed :
    ∃ buffer,
      (ArgBuffer.empty { maxArgBytes := 80, initialCapacity := 0 }).describeAll
          [.f32 0x7FC00001, .buffer [1, 2, 3], .runtime, .f64 0x8000000000000000] = .ok buffer ∧
        decodeAll buffer.take.1 =
          .ok [.f32 0x7FC00001, .buffer [1, 2, 3], .runtime, .f64 0x8000000000000000] := by
  obtain ⟨buffer, hbuffer⟩ : ∃ buffer,
      (ArgBuffer.empty { maxArgBytes := 80, initialCapacity := 0 }).describeAll
        [.f32 0x7FC00001, .buffer [1, 2, 3], .runtime, .f64 0x8000000000000000] = .ok buffer :=
    Error.exists_eq_ok (by decide +kernel)
  exact ⟨buffer, hbuffer, decodeAll_take_describeAll _ _ buffer hbuffer⟩

end Residual
