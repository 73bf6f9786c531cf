import Residual.Guest.Memory
import Residual.Guest.Record
import Residual.Proofs.Bytes.Words

/-!
# Layouts in memory

What a reader gets from a memory that holds some bytes at an address, whatever surrounds them, and
the records that their own layouts spell.
-/

namespace Residual

namespace Bytes

theorem length_words (sequence : List UInt32) : (words sequence).length = 4 * sequence.length := by
  induction sequence with
  | nil => rfl
  | cons word rest ih =>
      rw [words, List.flatMap_cons, List.length_append, length_word32, List.length_cons]
      change 4 + (words rest).length = _
      omega

theorem wordAt_words (sequence : List UInt32) (index : Nat) :
    (words sequence).wordAt (4 * index) = sequence.getD index 0 := by
  induction sequence generalizing index with
  | nil => simp [words, wordAt, LittleEndian.decode]
  | cons word rest ih =>
      have hcons : words (word :: rest) = word32 word ++ words rest := List.flatMap_cons
      have hword : (word32 word).length = 4 := length_word32 word
      cases index with
      | zero =>
          rw [hcons, wordAt, Nat.mul_zero, List.drop_zero, List.take_left' hword,
            ofNat_decode_word32]
          rfl
      | succ index =>
          rw [List.getD_cons_succ, ← ih index, hcons, wordAt, wordAt, Nat.mul_succ, Nat.add_comm,
            ← List.drop_drop, List.drop_left' hword]

/-- A shorter sequence is read as if zeros followed. -/
theorem decode_take_four (bytes : Bytes) :
    LittleEndian.decode (bytes.take 4) =
      (bytes.getD 0 0).toNat + 256 * (bytes.getD 1 0).toNat + 65536 * (bytes.getD 2 0).toNat +
        16777216 * (bytes.getD 3 0).toNat := by
  rcases bytes with _ | ⟨first, _ | ⟨second, _ | ⟨third, _ | ⟨fourth, rest⟩⟩⟩⟩ <;>
    simp only [List.take_nil, List.take_zero, List.take_succ_cons, LittleEndian.decode,
      List.getD_nil, List.getD_cons_zero, List.getD_cons_succ, UInt8.toNat_zero] <;> omega

end Bytes

namespace Guest

theorem RequestRecord.length_encode (record : RequestRecord) : record.encode.length = size :=
  Bytes.length_words _

theorem RequestRecord.decode_encode (record : RequestRecord) : decode record.encode = record := by
  have hword := Bytes.wordAt_words [record.next, record.prev, record.funcId, record.func,
    record.argBuffer, record.argLength, record.slot]
  unfold decode encode
  rw [hword 0, hword 1, hword 2, hword 3, hword 4, hword 5, hword 6]
  rfl

theorem LookupHeader.length_encode (header : LookupHeader) : header.encode.length = size :=
  Bytes.length_words _

theorem LookupHeader.decode_encode (header : LookupHeader) : decode header.encode = header := by
  have hword := Bytes.wordAt_words [header.entries, header.count]
  unfold decode encode
  rw [hword 0, hword 1]
  rfl

theorem LookupRecord.length_encode (record : LookupRecord) : record.encode.length = size :=
  Bytes.length_words _

theorem LookupRecord.decode_encode (record : LookupRecord) : decode record.encode = record := by
  have hword := Bytes.wordAt_words [record.funcId, record.argBuffer, record.argLength,
    record.specialized]
  unfold decode encode
  rw [hword 0, hword 1, hword 2, hword 3]
  rfl

namespace Memory

/-- Some bytes stand at an address, with anything before and behind them. -/
def HasAt (memory : Memory) (address : Nat) (bytes : Bytes) : Prop :=
  ∃ before after : Bytes, memory.data = before ++ bytes ++ after ∧
    memory.base.toNat + before.length = address

theorem hasAt_base (base : UInt32) (data : Bytes) : HasAt ⟨base, data⟩ base.toNat data :=
  ⟨[], [], by simp, rfl⟩

theorem hasAt_surrounded {start : UInt32} {before data after : Bytes} {address : Nat}
    (hstart : start.toNat + before.length = address) :
    HasAt ⟨start, before ++ data ++ after⟩ address data :=
  ⟨before, after, rfl, hstart⟩

theorem HasAt.left {memory : Memory} {address : Nat} {first second : Bytes}
    (hbytes : memory.HasAt address (first ++ second)) : memory.HasAt address first := by
  obtain ⟨before, after, hdata, haddress⟩ := hbytes
  exact ⟨before, second ++ after, by simp [hdata], haddress⟩

theorem HasAt.right {memory : Memory} {address : Nat} {first second : Bytes}
    (hbytes : memory.HasAt address (first ++ second)) :
    memory.HasAt (address + first.length) second := by
  obtain ⟨before, after, hdata, haddress⟩ := hbytes
  refine ⟨before ++ first, after, by simp [hdata], ?_⟩
  rw [List.length_append]
  omega

theorem HasAt.length_le {memory : Memory} {address : Nat} {bytes : Bytes}
    (hbytes : memory.HasAt address bytes) : bytes.length ≤ memory.data.length := by
  obtain ⟨before, after, hdata, -⟩ := hbytes
  rw [hdata, List.length_append, List.length_append]
  omega

theorem HasAt.slice_eq {memory : Memory} {address count : Nat} {bytes : Bytes}
    (hbytes : memory.HasAt address bytes) (hcount : bytes.length = count) :
    memory.slice address count = .ok bytes := by
  obtain ⟨before, after, hdata, haddress⟩ := hbytes
  have hoffset : address - memory.base.toNat = before.length := by omega
  unfold slice
  rw [if_pos (by omega), hoffset, Bytes.slice?_eq, hdata,
    if_pos (by simp only [List.length_append]; omega), List.append_assoc, List.drop_left,
    List.take_left' hcount]
  rfl

/-- A buffer is described by its address and length, except that an empty one needs no address. -/
theorem HasAt.region_eq {memory : Memory} {address : Nat} {bytes : Bytes}
    (hbytes : memory.HasAt address bytes) (hspace : address + bytes.length < 2 ^ 32) :
    memory.region (if bytes.isEmpty then 0 else .ofNat address) (.ofNat bytes.length) =
      .ok bytes := by
  have haddress : (UInt32.ofNat address).toNat = address :=
    UInt32.toNat_ofNat_of_lt' (by simp [UInt32.size]; omega)
  have hlength : (UInt32.ofNat bytes.length).toNat = bytes.length :=
    UInt32.toNat_ofNat_of_lt' (by simp [UInt32.size]; omega)
  unfold region
  cases bytes with
  | nil => rfl
  | cons byte rest =>
      have hne : UInt32.ofNat (byte :: rest).length ≠ 0 :=
        ofNat_ne_zero (Nat.zero_lt_succ _) (by omega)
      rw [if_neg hne, List.isEmpty_cons, if_neg Bool.false_ne_true, haddress, hlength]
      exact hbytes.slice_eq rfl

/-- The whole range lies inside the memory. -/
def Covers (memory : Memory) (address count : Nat) : Prop :=
  memory.base.toNat ≤ address ∧ address + count ≤ memory.base.toNat + memory.data.length

instance (memory : Memory) (address count : Nat) : Decidable (memory.Covers address count) :=
  inferInstanceAs (Decidable (_ ∧ _))

/-- The bytes of a range, as far as they are inside the memory. -/
def bytesAt (memory : Memory) (address count : Nat) : Bytes :=
  (memory.data.drop (address - memory.base.toNat)).take count

theorem slice_eq (memory : Memory) (address count : Nat) :
    memory.slice address count =
      if memory.Covers address count then .ok (memory.bytesAt address count)
      else .error .outOfBounds := by
  unfold slice
  by_cases hbase : memory.base.toNat ≤ address
  · rw [if_pos hbase, Bytes.slice?_eq]
    by_cases hcovers : memory.Covers address count
    · have hend := hcovers.2
      rw [if_pos hcovers, if_pos (by omega)]
      rfl
    · have hend : ¬ address - memory.base.toNat + count ≤ memory.data.length := by
        intro hle
        exact hcovers ⟨hbase, by omega⟩
      rw [if_neg hcovers, if_neg hend]
      rfl
  · rw [if_neg hbase, if_neg fun hcovers => hbase hcovers.1]

/-- Only a length other than zero asks for a range inside the memory. -/
theorem region_eq (memory : Memory) (address count : UInt32) :
    memory.region address count =
      if count ≠ 0 → memory.Covers address.toNat count.toNat then
        .ok (memory.bytesAt address.toNat count.toNat)
      else .error .outOfBounds := by
  unfold region
  by_cases hzero : count = 0
  · subst count
    simp [bytesAt]
  · simp [hzero, slice_eq]

/-- The word some bytes behind an address: four bytes, the least significant first. Bytes outside
the memory count as zero. -/
def field (memory : Memory) (address offset : Nat) : UInt32 :=
  let byte (place : Nat) : Nat := (memory.data.getD (address - memory.base.toNat + place) 0).toNat
  .ofNat (byte offset + 256 * byte (offset + 1) + 65536 * byte (offset + 2) +
    16777216 * byte (offset + 3))

theorem wordAt_bytesAt {count offset : Nat} (memory : Memory) (address : Nat)
    (hoffset : offset + 4 ≤ count) :
    (memory.bytesAt address count).wordAt offset = memory.field address offset := by
  rw [Bytes.wordAt, bytesAt, List.drop_take, List.take_take, Nat.min_eq_left (by omega),
    List.drop_drop, Bytes.decode_take_four, field]
  simp only [List.getD_eq_getElem?_getD, List.getElem?_drop, Nat.add_assoc, Nat.add_zero]

end Memory

end Guest

end Residual
