import Mathlib.Data.List.Basic
import Residual.Proofs.Guest.LookupLayout
import Residual.Proofs.Lookup.Order

/-!
# Reading a laid-out table

A table that was laid out is read back entry by entry, with the index of every function in the
function's place. An index of zero is refused, so only a function table that gives out no such index
has its tables read back. The indices of the two numberings lead back to the functions.
-/

namespace Residual

/-- What a reader of guest memory finds for an entry whose function has an index. -/
def Entry.stored (entry : Entry) (number : UInt32) : Entry :=
  { entry with specialized := (FuncRef.ofRaw? number.toUInt64).getD entry.specialized }

@[simp] theorem Entry.key_stored (entry : Entry) (number : UInt32) :
    (entry.stored number).key = entry.key := rfl

theorem Entry.raw_stored {number : UInt32} (hnumber : number ≠ 0) (entry : Entry) :
    (entry.stored number).specialized.raw = number.toUInt64 := by
  obtain ⟨func, hfunc⟩ := FuncRef.exists_ofRaw?_toUInt64 hnumber
  rw [Entry.stored, hfunc, Option.getD_some, (FuncRef.ofRaw?_eq_some_iff _ _).mp hfunc]

/-- A reference with a 32-bit value is found as it is. -/
theorem Entry.stored_direct {entry : Entry} (hfits : entry.specialized.raw.toNat < 0x100000000) :
    entry.stored entry.specialized.raw.toUInt32 = entry := by
  rw [Entry.stored, FuncRef.ofRaw?_toUInt32 hfits, Option.getD_some]

/-- The entries that a reader finds have the keys of those that were laid out. -/
theorem Entry.map_key_stored {entries : List Entry} {numbers : List UInt32}
    (hnumbers : numbers.length = entries.length) :
    (List.zipWith Entry.stored entries numbers).map Entry.key = entries.map Entry.key := by
  induction entries generalizing numbers with
  | nil => rfl
  | cons entry rest ih =>
      obtain ⟨number, others, rfl⟩ := List.exists_cons_of_length_eq_add_one hnumbers
      rw [List.zipWith_cons_cons, List.map_cons, List.map_cons, ih (Nat.succ.inj hnumbers),
        Entry.key_stored]

theorem Table.strictlySorted_congr {entries others : List Entry}
    (hkeys : entries.map Entry.key = others.map Entry.key) :
    StrictlySorted entries ↔ StrictlySorted others := by
  rw [← firstUnsorted?_eq_none_iff, firstUnsorted?_congr hkeys, firstUnsorted?_eq_none_iff]

namespace Table

/-- A reader found as many entries as a table has, in the same order, with the same keys, and in the
place of every function the index that it was given. -/
structure ReadBack (table : Table) (numbers : List UInt32) (read : Table) : Prop where
  size_eq : read.entries.size = table.entries.size
  entry : ∀ (place : Nat) (entry : Entry) (number : UInt32),
    table.entries[place]? = some entry → numbers[place]? = some number →
    ∃ found, read.entries[place]? = some found ∧ found.funcId = entry.funcId ∧
      found.args = entry.args ∧ found.specialized.raw = number.toUInt64

/-- What reading gives for a table: the error of its own check if it is not strictly sorted, and
otherwise a table as expected. -/
structure RoundTrips (table : Table) (result : Except Error Table) (Expected : Table → Prop) :
    Prop where
  unsorted : ¬ StrictlySorted table.entries.toList →
    ∃ index, table.check = .error (.unsortedTable index) ∧ result = .error (.unsortedTable index)
  sorted : StrictlySorted table.entries.toList → ∃ read, result = .ok read ∧ Expected read

/-- The keys decide whether entries are accepted as a table. -/
theorem RoundTrips.of_keys {table : Table} {entries : List Entry} {Expected : Table → Prop}
    (hkeys : entries.map Entry.key = table.entries.toList.map Entry.key)
    (hexpected : Expected (.ofUnchecked entries)) :
    table.RoundTrips (ofSorted entries) Expected := by
  refine ⟨?_, ?_⟩
  · intro hunsorted
    obtain ⟨index, hindex, hcheck⟩ := exists_check_eq_error hunsorted
    refine ⟨index, hcheck, ?_⟩
    simp [ofSorted, check, ofUnchecked, firstUnsorted?_congr hkeys, hindex]
  · intro hsorted
    exact ⟨_, ofSorted_eq_ok ((strictlySorted_congr hkeys).mpr hsorted), hexpected⟩

theorem readBack_stored (table : Table) {numbers : List UInt32}
    (hnumbers : numbers.length = table.entries.toList.length) (hzero : 0 ∉ numbers) :
    table.ReadBack numbers
      (.ofUnchecked (List.zipWith Entry.stored table.entries.toList numbers)) := by
  refine ⟨?_, ?_⟩
  · rw [ofUnchecked, List.size_toArray, List.length_zipWith, hnumbers, Nat.min_self,
      Array.length_toList]
  · intro place entry number hentry hnumber
    rw [← Array.getElem?_toList] at hentry
    refine ⟨entry.stored number, ?_, rfl, rfl, Entry.raw_stored ?_ entry⟩
    · rw [ofUnchecked, List.getElem?_toArray, List.getElem?_zipWith, hentry, hnumber]
    · rintro rfl
      exact hzero (List.mem_of_getElem? hnumber)

end Table

namespace Guest

variable {Funcs : Type} [FuncTable Funcs]

/-- The records are read up to the first one that names no function. -/
theorem readEntries_lookupRecords {memory : Memory} {address index : Nat} {entries : List Entry}
    {numbers : List UInt32} (hnumbers : numbers.length = entries.length)
    (hbytes : memory.HasAt address (entries.flatMap fun entry => Bytes.padded entry.args))
    (hspace : address + argumentsSize entries < 2 ^ 32) :
    readEntries memory entries.length index (lookupRecords address entries numbers) =
      if 0 ∈ numbers then .error (.malformed (.nullFunction (index + numbers.idxOf 0)))
      else .ok (List.zipWith Entry.stored entries numbers) := by
  -- The records and the argument bytes are consumed in step, each entry from the front of both.
  induction entries generalizing address index numbers with
  | nil =>
      rw [List.eq_nil_of_length_eq_zero hnumbers]
      rfl
  | cons entry rest ih =>
      obtain ⟨number, others, rfl⟩ := List.exists_cons_of_length_eq_add_one hnumbers
      rw [argumentsSize_cons] at hspace
      rw [List.flatMap_cons] at hbytes
      have hlength : (lookupRecord address entry number).encode.length = LookupRecord.size :=
        LookupRecord.length_encode _
      rw [List.length_cons, readEntries, lookupRecords_cons, List.take_left' hlength,
        List.drop_left' hlength, LookupRecord.decode_encode]
      by_cases hzero : number = 0
      · subst number
        rw [if_pos List.mem_cons_self, List.idxOf_cons_self]
        rfl
      · obtain ⟨func, hfunc⟩ := FuncRef.exists_ofRaw?_toUInt64 hzero
        have hregion := hbytes.left.left.region_eq (by
          have hle := Bytes.le_roundUp entry.args.length
          omega)
        have hbehind := hbytes.right
        rw [Bytes.length_padded] at hbehind
        have hrest := @ih _ (index + 1) _ (Nat.succ.inj hnumbers) hbehind (by omega)
        have hmem : 0 ∈ number :: others ↔ 0 ∈ others := by
          rw [List.mem_cons, or_iff_right (Ne.symm hzero)]
        simp only [lookupRecord, hfunc, hregion, hrest, hmem]
        by_cases hothers : 0 ∈ others
        · rw [if_pos hothers, if_pos hothers, List.idxOf_cons_ne _ hzero, Nat.add_assoc,
            Nat.add_comm 1]
        · rw [if_neg hothers, if_neg hothers, List.zipWith_cons_cons, Entry.stored, hfunc,
            Option.getD_some]

/-- A laid-out table is read from any memory that holds it, and is then checked like any other. -/
theorem readTable_of_hasAt {memory : Memory} {address : UInt32} {entries : List Entry}
    {numbers : List UInt32} (hnumbers : numbers.length = entries.length)
    (hbytes : memory.HasAt address.toNat (tableBytes address.toNat entries numbers))
    (hspace : address.toNat + tableSize entries < 2 ^ 32) :
    readTable memory address =
      if 0 ∈ numbers then .error (.malformed (.nullFunction (numbers.idxOf 0)))
      else Table.ofSorted (List.zipWith Entry.stored entries numbers) := by
  unfold tableBytes at hbytes
  unfold tableSize at hspace
  have hheader := hbytes.left.left.slice_eq (LookupHeader.length_encode _)
  have hcount : (UInt32.ofNat entries.length).toNat = entries.length :=
    UInt32.toNat_ofNat_of_lt' (by simp [UInt32.size]; omega)
  rw [readTable, hheader]
  simp only [LookupHeader.decode_encode, tableHeader]
  -- An empty table is told by its count alone: its header points nowhere.
  cases entries with
  | nil =>
      rw [List.eq_nil_of_length_eq_zero hnumbers]
      rfl
  | cons entry rest =>
      have hne : UInt32.ofNat (entry :: rest).length ≠ 0 :=
        ofNat_ne_zero (Nat.zero_lt_succ _) (by omega)
      have harray : (UInt32.ofNat (address.toNat + LookupHeader.size)).toNat =
          address.toNat + LookupHeader.size :=
        UInt32.toNat_ofNat_of_lt' (by simp [UInt32.size, LookupHeader.size]; omega)
      have hrecords := hbytes.left.right
      rw [LookupHeader.length_encode] at hrecords
      have hargs := hbytes.right
      rw [List.length_append, LookupHeader.length_encode, length_lookupRecords hnumbers,
        ← Nat.add_assoc] at hargs
      rw [if_neg hne, hcount, if_neg (by simp only [LookupRecord.size]; omega), List.isEmpty_cons,
        if_neg Bool.false_ne_true, harray, hrecords.slice_eq (length_lookupRecords hnumbers _)]
      dsimp only
      rw [readEntries_lookupRecords hnumbers hargs (by
        simp only [LookupHeader.size, LookupRecord.size]
        omega), Nat.zero_add]
      by_cases hzero : 0 ∈ numbers
      · rw [if_pos hzero, if_pos hzero]
      · rw [if_neg hzero, if_neg hzero]

theorem writeTable_eq_ok {table : Table} {base : UInt32} {funcs later : Funcs} {memory : Memory}
    (hwrite : writeTable table base funcs = (.ok memory, later)) :
    ∃ numbers,
      FuncTable.assignAll funcs (table.entries.toList.map Entry.specialized) =
        (.ok numbers, later) ∧
      base.toNat + tableSize table.entries.toList < 2 ^ 32 ∧
      memory = ⟨base, tableBytes base.toNat table.entries.toList numbers⟩ := by
  rw [writeTable_eq] at hwrite
  split at hwrite
  next => cases hwrite
  next hspace =>
    obtain ⟨numbers, hassign, rfl⟩ := FuncTable.exists_of_map_assignAll hwrite
    exact ⟨numbers, hassign, Nat.not_le.mp hspace, rfl⟩

/-- A written table is read wherever its bytes come to stand at their address. -/
theorem readTable_of_written {table : Table} {base : UInt32} {funcs later : Funcs}
    {written memory : Memory} (hwrite : writeTable table base funcs = (.ok written, later))
    (hbytes : memory.HasAt base.toNat written.data) :
    ∃ numbers,
      FuncTable.assignAll funcs (table.entries.toList.map Entry.specialized) =
        (.ok numbers, later) ∧
      readTable memory written.base =
        if 0 ∈ numbers then .error (.malformed (.nullFunction (numbers.idxOf 0)))
        else Table.ofSorted (List.zipWith Entry.stored table.entries.toList numbers) := by
  obtain ⟨numbers, hassign, hspace, rfl⟩ := writeTable_eq_ok hwrite
  have hnumbers := FuncTable.length_of_assignAll hassign
  rw [List.length_map] at hnumbers
  exact ⟨numbers, hassign, readTable_of_hasAt hnumbers hbytes hspace⟩

theorem hasAt_writeTable {table : Table} {base : UInt32} {funcs later : Funcs} {written : Memory}
    (hwrite : writeTable table base funcs = (.ok written, later)) :
    written.HasAt base.toNat written.data := by
  obtain ⟨numbers, -, -, rfl⟩ := writeTable_eq_ok hwrite
  exact Memory.hasAt_base base _

/-- A table laid out with references that are their own indices is read as it was. -/
theorem readTable_of_direct {table : Table} {base : UInt32} {funcs later : DirectIndex}
    {written memory : Memory} (hwrite : writeTable table base funcs = (.ok written, later))
    (hbytes : memory.HasAt base.toNat written.data) :
    readTable memory written.base = Table.ofSorted table.entries.toList := by
  obtain ⟨numbers, hassign, hread⟩ := readTable_of_written hwrite hbytes
  obtain ⟨hfits, rfl⟩ := DirectIndex.assignAll_eq_ok hassign
  have hzero : 0 ∉ (table.entries.toList.map Entry.specialized).map fun func =>
      func.raw.toUInt32 := by
    intro hmem
    obtain ⟨func, hfunc, hnumber⟩ := List.mem_map.mp hmem
    exact FuncRef.toUInt32_ne_zero (hfits func hfunc) hnumber
  have hstored : List.zipWith Entry.stored table.entries.toList
      ((table.entries.toList.map Entry.specialized).map fun func => func.raw.toUInt32) =
        table.entries.toList.map id := by
    rw [List.map_map, List.zipWith_map_right, List.zipWith_self]
    exact List.map_congr_left fun entry hmem =>
      Entry.stored_direct (hfits _ (List.mem_map_of_mem hmem))
  rw [hread, if_neg hzero, hstored, List.map_id]

/-- What a reader finds for an entry whose function was numbered densely. -/
def numberedEntry (index : FuncIndex) (entry : Entry) : Entry :=
  entry.stored (index.number entry.specialized)

/-- A table laid out with a dense numbering is read with the number of every function in its
place. -/
theorem readTable_of_dense {table : Table} {base : UInt32} {funcs later : FuncIndex}
    {written memory : Memory} (hwrite : writeTable table base funcs = (.ok written, later))
    (hbytes : memory.HasAt base.toNat written.data) :
    (∀ entry ∈ table.entries.toList, later.Numbered entry.specialized) ∧
      readTable memory written.base =
        Table.ofSorted (table.entries.toList.map (numberedEntry later)) := by
  obtain ⟨numbers, hassign, hread⟩ := readTable_of_written hwrite hbytes
  obtain ⟨-, hnumbered, rfl⟩ := FuncIndex.assignAll_eq_ok hassign
  have hzero : 0 ∉ (table.entries.toList.map Entry.specialized).map later.number := by
    intro hmem
    obtain ⟨func, hfunc, hnumber⟩ := List.mem_map.mp hmem
    exact FuncIndex.number_ne_zero (hnumbered func hfunc) hnumber
  have hstored : List.zipWith Entry.stored table.entries.toList
      ((table.entries.toList.map Entry.specialized).map later.number) =
        table.entries.toList.map (numberedEntry later) := by
    rw [List.map_map, List.zipWith_map_right, List.zipWith_self]
    rfl
  rw [if_neg hzero, hstored] at hread
  exact ⟨fun entry hmem => hnumbered _ (List.mem_map_of_mem hmem), hread⟩

/-- Replacing indices by their functions undoes replacing functions by their indices. -/
theorem restoreFunctions_numbered {index : FuncIndex} {entries : List Entry}
    (hnumbered : ∀ entry ∈ entries, index.Numbered entry.specialized) :
    restoreFunctions index (.ofUnchecked (entries.map (numberedEntry index))) =
      .ok (.ofUnchecked entries) := by
  have hrestored : (entries.map (numberedEntry index)).mapM (fun entry =>
      (index.get? entry.specialized.raw.toUInt32).map fun func =>
        { entry with specialized := func }) = some entries := by
    induction entries with
    | nil => rfl
    | cons entry rest ih =>
        have hentry := hnumbered entry List.mem_cons_self
        have hget : index.get? (numberedEntry index entry).specialized.raw.toUInt32 =
            some entry.specialized := by
          rw [numberedEntry, Entry.raw_stored (FuncIndex.number_ne_zero hentry),
            UInt32.toUInt32_toUInt64, FuncIndex.get?_number hentry]
        rw [List.map_cons, List.mapM_cons,
          ih fun other hmem => hnumbered other (List.mem_cons_of_mem _ hmem)]
        simp only [hget]
        rfl
  unfold restoreFunctions Table.ofUnchecked
  dsimp only
  rw [hrestored]

/-- A table is read back from any memory that holds its layout, whatever function table it was laid
out with. If no function was given the index zero, a table that is not strictly sorted is refused
for the same entry as by its own check, and any other is read with the index of every function in
its place. The first index of zero is refused as a null function. References that are their own
indices give the table itself, and a dense numbering gives it once each index is replaced by its
function. -/
theorem readTable_in_any_memory (table : Table) (base start : UInt32) (before after : Bytes)
    (hstart : start.toNat + before.length = base.toNat) :
    (∀ {Funcs : Type} [FuncTable Funcs] (funcs later : Funcs) (written : Memory),
      writeTable table base funcs = (.ok written, later) →
      ∃ numbers,
        FuncTable.assignAll funcs (table.entries.toList.map Entry.specialized) =
          (.ok numbers, later) ∧
        (0 ∉ numbers →
          table.RoundTrips (readTable ⟨start, before ++ written.data ++ after⟩ written.base)
            (table.ReadBack numbers)) ∧
        (0 ∈ numbers →
          readTable ⟨start, before ++ written.data ++ after⟩ written.base =
            .error (.malformed (.nullFunction (numbers.idxOf 0))))) ∧
    (∀ (funcs later : DirectIndex) (written : Memory),
      writeTable table base funcs = (.ok written, later) →
      table.RoundTrips (readTable ⟨start, before ++ written.data ++ after⟩ written.base)
        fun read => read = table) ∧
    ∀ (funcs later : FuncIndex) (written : Memory),
      writeTable table base funcs = (.ok written, later) →
      table.RoundTrips (readTable ⟨start, before ++ written.data ++ after⟩ written.base)
        fun read => restoreFunctions later read = .ok table := by
  have hbytes (written : Memory) :
      Memory.HasAt ⟨start, before ++ written.data ++ after⟩ base.toNat written.data :=
    Memory.hasAt_surrounded hstart
  have htable : Table.ofUnchecked table.entries.toList = table := by
    rw [Table.ofUnchecked, Array.toArray_toList]
  refine ⟨?_, ?_, ?_⟩
  · intro Funcs _ funcs later written hwrite
    obtain ⟨numbers, hassign, hread⟩ := readTable_of_written hwrite (hbytes written)
    have hnumbers := FuncTable.length_of_assignAll hassign
    rw [List.length_map] at hnumbers
    refine ⟨numbers, hassign, ?_, ?_⟩
    · intro hzero
      rw [hread, if_neg hzero]
      exact .of_keys (Entry.map_key_stored hnumbers) (table.readBack_stored hnumbers hzero)
    · intro hzero
      rw [hread, if_pos hzero]
  · intro funcs later written hwrite
    rw [readTable_of_direct hwrite (hbytes written)]
    exact .of_keys rfl htable
  · intro funcs later written hwrite
    obtain ⟨hnumbered, hread⟩ := readTable_of_dense hwrite (hbytes written)
    rw [hread]
    refine .of_keys ?_ ?_
    · rw [List.map_map]
      rfl
    · rw [restoreFunctions_numbered hnumbered, htable]

/-- Three entries, the first without arguments and the outer two with the same function. -/
def sharingTable : Table :=
  .ofUnchecked [⟨1, [], ⟨10, by decide⟩⟩, ⟨4, [1, 2], ⟨11, by decide⟩⟩,
    ⟨4, [1, 2, 3], ⟨10, by decide⟩⟩]

/-- The table behind stray bytes, with a numbering that has seen one of its functions before. -/
theorem readTable_in_any_memory_sharing :
    ∃ written later read,
      writeTable sharingTable 3 (FuncIndex.mk [⟨11, by decide⟩] (by decide)) =
        (.ok written, later) ∧
      readTable ⟨1, [0xFF, 0xFF] ++ written.data ++ [0xFF]⟩ written.base = .ok read ∧
      sharingTable.ReadBack [2, 1, 2] read ∧ restoreFunctions later read = .ok sharingTable := by
  obtain ⟨written, later, hwrite⟩ : ∃ written later,
      writeTable sharingTable 3 (FuncIndex.mk [⟨11, by decide⟩] (by decide)) =
        (.ok written, later) := ⟨_, _, (writeTable_eq _ _ _).trans rfl⟩
  have hsorted : Table.StrictlySorted sharingTable.entries.toList :=
    (Table.firstUnsorted?_eq_none_iff _).mp rfl
  obtain ⟨htables, -, hdense⟩ :=
    readTable_in_any_memory sharingTable 3 1 [0xFF, 0xFF] [0xFF] rfl
  obtain ⟨numbers, hassign, hback, -⟩ := htables _ later written hwrite
  obtain ⟨hnumbers, -⟩ := Prod.mk.inj hassign
  cases hnumbers
  obtain ⟨read, hread, hstored⟩ := (hback (by decide)).sorted hsorted
  obtain ⟨again, hagain, hrestored⟩ := (hdense _ later written hwrite).sorted hsorted
  rw [hread] at hagain
  cases hagain
  exact ⟨written, later, read, hwrite, hread, hstored, hrestored⟩

end Guest

end Residual
