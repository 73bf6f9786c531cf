import Residual.Guest.LookupArray
import Residual.Proofs.Function.Numbering
import Residual.Proofs.Guest.Layout
import Residual.Proofs.Lookup.Sorting

/-!
# Tables in any memory

What a reader makes of a lookup table in memory that nobody vouches for. The count, the pointers and
the lengths are whatever the bytes say, and argument bytes may overlap each other or the table
itself. The reader accepts exactly the tables that are complete and strictly sorted, and the order
is looked at only once everything else is in place.
-/

namespace Residual.Guest

/-- The bytes of the array that a header announces. -/
def LookupHeader.arraySize (header : LookupHeader) : Nat := 16 * header.count.toNat

namespace Memory

/-- The table header at an address: two words. -/
def headerAt (memory : Memory) (address : UInt32) : LookupHeader where
  entries := memory.field address.toNat 0
  count := memory.field address.toNat 4

theorem decode_headerAt (memory : Memory) (address : UInt32) :
    LookupHeader.decode (memory.bytesAt address.toNat 8) = memory.headerAt address := by
  simp (disch := decide) only [LookupHeader.decode, wordAt_bytesAt, headerAt]

/-- The array that the header at an address points to. -/
def arrayAt (memory : Memory) (address : UInt32) : Bytes :=
  memory.bytesAt (memory.headerAt address).entries.toNat (memory.headerAt address).arraySize

/-- A record of the array that the header at an address points to: four words, and the next record
right behind them. -/
def lookupAt (memory : Memory) (address : UInt32) (index : Nat) : LookupRecord :=
  let start := (memory.headerAt address).entries.toNat + 16 * index
  { funcId := memory.field start 0
    argBuffer := memory.field start 4
    argLength := memory.field start 8
    specialized := memory.field start 12 }

theorem decode_lookupAt (memory : Memory) (address : UInt32) (index : Nat) :
    LookupRecord.decode (memory.bytesAt ((memory.headerAt address).entries.toNat + 16 * index) 16) =
      memory.lookupAt address index := by
  simp (disch := decide) only [LookupRecord.decode, wordAt_bytesAt, lookupAt]

/-- The record names a function, and its arguments are inside the memory if it has any. -/
structure Complete (memory : Memory) (record : LookupRecord) : Prop where
  specialized : record.specialized ≠ 0
  args : record.argLength ≠ 0 → memory.Covers record.argBuffer.toNat record.argLength.toNat

/-- There is a table at an address, in order or not. The header is inside the memory. If it
announces any entries, its array has a 32-bit length and is inside the memory, and every record in
it is complete. -/
structure HoldsTable (memory : Memory) (address : UInt32) : Prop where
  header : memory.Covers address.toNat 8
  array : (memory.headerAt address).count ≠ 0 →
    (memory.headerAt address).arraySize < 2 ^ 32 ∧
      memory.Covers (memory.headerAt address).entries.toNat (memory.headerAt address).arraySize
  records : ∀ index < (memory.headerAt address).count.toNat,
    memory.Complete (memory.lookupAt address index)

/-- The entry is what a record describes: the function it is for, the argument bytes, and the index
of the specialized function. -/
structure Spells (memory : Memory) (record : LookupRecord) (entry : Entry) : Prop where
  funcId : entry.funcId = record.funcId
  args : entry.args = memory.bytesAt record.argBuffer.toNat record.argLength.toNat
  specialized : entry.specialized.raw = record.specialized.toUInt64

/-- As many entries as the header at an address announces, each spelled by the record in its
place. -/
structure HasEntries (memory : Memory) (address : UInt32) (entries : List Entry) : Prop where
  length : entries.length = (memory.headerAt address).count.toNat
  spells : ∀ index entry, entries[index]? = some entry →
    memory.Spells (memory.lookupAt address index) entry

theorem Spells.unique {memory : Memory} {record : LookupRecord} {left right : Entry}
    (hleft : memory.Spells record left) (hright : memory.Spells record right) : left = right := by
  obtain ⟨leftId, leftArgs, leftFunc, _⟩ := left
  obtain ⟨rightId, rightArgs, rightFunc, _⟩ := right
  obtain ⟨rfl, rfl, rfl⟩ := hleft
  obtain ⟨rfl, rfl, rfl⟩ := hright
  rfl

theorem HasEntries.unique {memory : Memory} {address : UInt32} {left right : List Entry}
    (hleft : memory.HasEntries address left) (hright : memory.HasEntries address right) :
    left = right := by
  apply List.ext_getElem (hleft.length.trans hright.length.symm)
  intro index hindex hother
  exact (hleft.spells index _ (List.getElem?_eq_getElem hindex)).unique
    (hright.spells index _ (List.getElem?_eq_getElem hother))

/-- A part of a range is the range of its own. -/
theorem bytesAt_part {memory : Memory} {address offset size count : Nat}
    (hbase : memory.base.toNat ≤ address) (hsize : offset + size ≤ count) :
    ((memory.bytesAt address count).drop offset).take size =
      memory.bytesAt (address + offset) size := by
  have hoffset : address + offset - memory.base.toNat = address - memory.base.toNat + offset := by
    omega
  rw [bytesAt, bytesAt, List.drop_take, List.take_take, List.drop_drop, hoffset,
    Nat.min_eq_left (by omega)]

end Memory

/-- A record of an array. -/
def recordIn (array : Bytes) (index : Nat) : LookupRecord :=
  .decode ((array.drop (LookupRecord.size * index)).take LookupRecord.size)

theorem recordIn_drop (array : Bytes) (index : Nat) :
    recordIn (array.drop LookupRecord.size) index = recordIn array (index + 1) := by
  rw [recordIn, recordIn, List.drop_drop, Nat.mul_succ, Nat.add_comm]

/-- A complete record gives its entry, and the rest of the array decides the rest. -/
theorem readEntries_of_complete {memory : Memory} {array : Bytes}
    (hcomplete : memory.Complete (recordIn array 0)) :
    ∃ entry, memory.Spells (recordIn array 0) entry ∧ ∀ count index,
      readEntries memory (count + 1) index array =
        (readEntries memory count (index + 1) (array.drop LookupRecord.size)).map (entry :: ·) := by
  have hrecord : LookupRecord.decode (array.take LookupRecord.size) = recordIn array 0 := rfl
  obtain ⟨func, hfunc⟩ := FuncRef.exists_ofRaw?_toUInt64 hcomplete.specialized
  have hraw := (FuncRef.ofRaw?_eq_some_iff _ _).mp hfunc
  refine ⟨⟨(recordIn array 0).funcId, memory.bytesAt (recordIn array 0).argBuffer.toNat
    (recordIn array 0).argLength.toNat, func⟩, ⟨rfl, rfl, hraw.symm⟩, ?_⟩
  intro count index
  rw [readEntries]
  simp only [hrecord, hfunc, Memory.region_eq, if_pos hcomplete.args]
  cases readEntries memory count (index + 1) (array.drop LookupRecord.size) with
  | error error => rfl
  | ok rest => rfl

/-- Any other record stops the reader, and is not mistaken for one in the wrong place. -/
theorem readEntries_of_not_complete {memory : Memory} {array : Bytes}
    (hnot : ¬ memory.Complete (recordIn array 0)) (count index : Nat) :
    ∃ error, readEntries memory (count + 1) index array = .error error ∧
      ∀ place, error ≠ .unsortedTable place := by
  have hrecord : LookupRecord.decode (array.take LookupRecord.size) = recordIn array 0 := rfl
  rw [readEntries]
  simp only [hrecord]
  split
  next => exact ⟨_, rfl, by simp⟩
  next specialized hspecialized =>
    have hnonzero : (recordIn array 0).specialized ≠ 0 := by
      intro hzero
      rw [hzero] at hspecialized
      cases hspecialized
    rw [Memory.region_eq, if_neg fun hargs => hnot ⟨hnonzero, hargs⟩]
    exact ⟨_, rfl, by simp⟩

/-- A reader either gets past all records of an array or meets one that is not complete. -/
theorem readEntries_cases (memory : Memory) (count index : Nat) (array : Bytes) :
    (∃ entries, readEntries memory count index array = .ok entries ∧
      (∀ place < count, memory.Complete (recordIn array place)) ∧ entries.length = count ∧
      ∀ place entry, entries[place]? = some entry → memory.Spells (recordIn array place) entry) ∨
    ∃ error, readEntries memory count index array = .error error ∧
      (∃ place < count, ¬ memory.Complete (recordIn array place)) ∧
      ∀ place, error ≠ .unsortedTable place := by
  induction count generalizing index array with
  | zero => exact Or.inl ⟨[], rfl, by simp, rfl, by simp⟩
  | succ count ih =>
      by_cases hcomplete : memory.Complete (recordIn array 0)
      · obtain ⟨entry, hspells, hstep⟩ := readEntries_of_complete hcomplete
        rw [hstep]
        rcases ih (index + 1) (array.drop LookupRecord.size) with
          ⟨entries, hread, hothers, hlength, hrest⟩ | ⟨error, hread, ⟨place, hplace, hnot⟩, hother⟩
        · refine Or.inl ⟨entry :: entries, by rw [hread]; rfl, ?_, congrArg (· + 1) hlength, ?_⟩
          · intro place hplace
            cases place with
            | zero => exact hcomplete
            | succ place =>
                rw [← recordIn_drop]
                exact hothers place (Nat.lt_of_succ_lt_succ hplace)
          · intro place other hplace
            cases place with
            | zero =>
                cases hplace
                exact hspells
            | succ place =>
                rw [← recordIn_drop]
                exact hrest place other hplace
        · rw [recordIn_drop] at hnot
          exact Or.inr
            ⟨error, by rw [hread]; rfl, ⟨place + 1, Nat.succ_lt_succ hplace, hnot⟩, hother⟩
      · obtain ⟨error, hread, hother⟩ := readEntries_of_not_complete hcomplete count index
        exact Or.inr ⟨error, hread, ⟨0, Nat.succ_pos count, hcomplete⟩, hother⟩

theorem recordIn_arrayAt {memory : Memory} {address : UInt32} {index : Nat}
    (harray : memory.Covers (memory.headerAt address).entries.toNat
      (memory.headerAt address).arraySize)
    (hindex : index < (memory.headerAt address).count.toNat) :
    recordIn (memory.arrayAt address) index = memory.lookupAt address index := by
  have hsize : 16 * index + 16 ≤ (memory.headerAt address).arraySize :=
    Nat.mul_le_mul_left 16 hindex
  have hrecord : LookupRecord.size = 16 := rfl
  rw [recordIn, Memory.arrayAt, hrecord, Memory.bytesAt_part harray.1 hsize,
    Memory.decode_lookupAt]

/-- The header is looked at first, and the array as a whole before any of its records. -/
theorem readTable_eq (memory : Memory) (address : UInt32) :
    readTable memory address =
      if memory.Covers address.toNat 8 then
        if (memory.headerAt address).count = 0 then .ok .empty
        else if (memory.headerAt address).arraySize < 2 ^ 32 ∧
            memory.Covers (memory.headerAt address).entries.toNat
              (memory.headerAt address).arraySize then
          readEntries memory (memory.headerAt address).count.toNat 0 (memory.arrayAt address) >>=
            Table.ofSorted
        else .error .outOfBounds
      else .error .outOfBounds := by
  have hheaderSize : LookupHeader.size = 8 := rfl
  have hsize : LookupRecord.size * (memory.headerAt address).count.toNat =
      (memory.headerAt address).arraySize := rfl
  rw [readTable, Memory.slice_eq, hheaderSize]
  by_cases hheader : memory.Covers address.toNat 8
  · simp only [if_pos hheader, Memory.decode_headerAt, hsize]
    congr 1
    by_cases hlarge : 0x100000000 ≤ (memory.headerAt address).arraySize
    · rw [if_pos hlarge, if_neg fun hboth => Nat.not_le.mpr hboth.1 hlarge]
    · have hsmall : (memory.headerAt address).arraySize < 2 ^ 32 := Nat.not_le.mp hlarge
      rw [if_neg hlarge, Memory.slice_eq]
      by_cases harray : memory.Covers (memory.headerAt address).entries.toNat
          (memory.headerAt address).arraySize
      · simp only [if_pos harray, if_pos (And.intro hsmall harray), Memory.arrayAt]
        cases readEntries memory (memory.headerAt address).count.toNat 0
            (memory.bytesAt (memory.headerAt address).entries.toNat
              (memory.headerAt address).arraySize) with
        | error error => rfl
        | ok entries => rfl
      · rw [if_neg harray, if_neg fun hboth => harray hboth.2]
  · rw [if_neg hheader, if_neg hheader]

/-- A table that is in place is read and then checked like any other; without one the order is never
looked at. -/
theorem readTable_cases (memory : Memory) (address : UInt32) :
    (memory.HoldsTable address ∧ ∃ entries, memory.HasEntries address entries ∧
      readTable memory address = Table.ofSorted entries) ∨
    (¬ memory.HoldsTable address ∧ ∃ error, readTable memory address = .error error ∧
      ∀ place, error ≠ .unsortedTable place) := by
  rw [readTable_eq]
  split
  next hheader =>
    split
    next hcount =>
      have hzero : (memory.headerAt address).count.toNat = 0 := by rw [hcount]; rfl
      have hnone : ∀ index < (memory.headerAt address).count.toNat,
          memory.Complete (memory.lookupAt address index) := by
        intro index hindex
        omega
      exact Or.inl ⟨⟨hheader, fun hne => absurd hcount hne, hnone⟩, [], ⟨hzero.symm, by simp⟩, rfl⟩
    next hcount =>
      split
      next harray =>
        rcases readEntries_cases memory (memory.headerAt address).count.toNat 0
          (memory.arrayAt address) with
          ⟨entries, hread, hcomplete, hlength, hspells⟩ |
          ⟨error, hread, ⟨place, hplace, hnot⟩, hother⟩
        · refine Or.inl ⟨⟨hheader, fun _ => harray, ?_⟩, entries, ⟨hlength, ?_⟩, by rw [hread]; rfl⟩
          · intro index hindex
            rw [← recordIn_arrayAt harray.2 hindex]
            exact hcomplete index hindex
          · intro index entry hentry
            obtain ⟨hindex, -⟩ := List.getElem?_eq_some_iff.mp hentry
            rw [← recordIn_arrayAt harray.2 (hlength ▸ hindex)]
            exact hspells index entry hentry
        · refine Or.inr ⟨?_, error, by rw [hread]; rfl, hother⟩
          intro hholds
          rw [recordIn_arrayAt harray.2 hplace] at hnot
          exact hnot (hholds.records place hplace)
      next harray => exact Or.inr ⟨fun hholds => harray (hholds.array hcount), _, rfl, by simp⟩
  next hheader => exact Or.inr ⟨fun hholds => hheader hholds.header, _, rfl, by simp⟩

theorem readTable_of_hasEntries {memory : Memory} {address : UInt32} {entries : List Entry}
    (hholds : memory.HoldsTable address) (hentries : memory.HasEntries address entries) :
    readTable memory address = Table.ofSorted entries := by
  rcases readTable_cases memory address with ⟨-, found, hfound, hread⟩ | ⟨hnot, -⟩
  · rw [hread, hfound.unique hentries]
  · exact absurd hholds hnot

theorem readTable_eq_ok_iff (memory : Memory) (address : UInt32) (table : Table) :
    readTable memory address = .ok table ↔
      memory.HoldsTable address ∧ memory.HasEntries address table.entries.toList ∧
        Table.StrictlySorted table.entries.toList := by
  constructor
  · intro hread
    rcases readTable_cases memory address with
      ⟨hholds, entries, hentries, hresult⟩ | ⟨-, error, herror, -⟩
    · rw [hread] at hresult
      obtain ⟨hsorted, rfl⟩ := (Table.ofSorted_eq_ok_iff entries table).mp hresult.symm
      exact ⟨hholds, hentries, hsorted⟩
    · rw [hread] at herror
      cases herror
  · rintro ⟨hholds, hentries, hsorted⟩
    rw [readTable_of_hasEntries hholds hentries, Table.ofSorted_eq_ok hsorted]
    rfl

theorem readTable_eq_unsorted_iff (memory : Memory) (address : UInt32) (index : Nat) :
    readTable memory address = .error (.unsortedTable index) ↔
      memory.HoldsTable address ∧ ∃ entries, memory.HasEntries address entries ∧
        IsLeast {place | Table.OutOfOrder entries place} index := by
  constructor
  · intro hread
    rcases readTable_cases memory address with
      ⟨hholds, entries, hentries, hresult⟩ | ⟨-, error, herror, hother⟩
    · rw [hread] at hresult
      obtain ⟨place, hplace, hleast⟩ := (Table.ofSorted_eq_error_iff entries _).mp hresult.symm
      cases hplace
      exact ⟨hholds, entries, hentries, hleast⟩
    · rw [hread] at herror
      cases herror
      exact absurd rfl (hother index)
  · rintro ⟨hholds, entries, hentries, hleast⟩
    rw [readTable_of_hasEntries hholds hentries]
    exact (Table.ofSorted_eq_error_iff entries _).mpr ⟨index, rfl, hleast⟩

/-- Reading accepts exactly the well-formed tables. It returns a table if and only if there is one
at the address and its keys are strictly increasing; the table has the entries that the records
spell, and there is one such list. It reports an unsorted table if and only if everything but the
order is in place, and then the first entry that is not strictly above the one before it. So every
table that is read passes the check, and a search in it returns the entry of a key if there is one
and nothing otherwise. -/
theorem readTable_accepts_exactly_tables (memory : Memory) (address : UInt32) :
    (∀ table, readTable memory address = .ok table ↔
      memory.HoldsTable address ∧ memory.HasEntries address table.entries.toList ∧
        Table.StrictlySorted table.entries.toList) ∧
      (∀ index, readTable memory address = .error (.unsortedTable index) ↔
        memory.HoldsTable address ∧ ∃ entries, memory.HasEntries address entries ∧
          IsLeast {place | Table.OutOfOrder entries place} index) ∧
      (memory.HoldsTable address → ∃! entries, memory.HasEntries address entries) ∧
      ∀ table, readTable memory address = .ok table →
        table.check = .ok () ∧
          ∀ key, (∀ entry, table.find key = some entry ↔
            entry ∈ table.entries.toList ∧ entry.key = key) ∧
            (table.find key = none ↔ ∀ entry ∈ table.entries.toList, entry.key ≠ key) := by
  refine ⟨readTable_eq_ok_iff memory address, readTable_eq_unsorted_iff memory address, ?_, ?_⟩
  · intro hholds
    rcases readTable_cases memory address with ⟨-, entries, hentries, -⟩ | ⟨hnot, -⟩
    · exact ⟨entries, hentries, fun other hother => hother.unique hentries⟩
    · exact absurd hholds hnot
  · intro table hread
    obtain ⟨-, -, hsorted⟩ := (readTable_eq_ok_iff memory address table).mp hread
    refine ⟨Table.check_eq_ok hsorted, ?_⟩
    intro key
    exact ⟨Table.find_eq_some_iff hsorted key, Table.find_eq_none_iff hsorted key⟩

end Residual.Guest
