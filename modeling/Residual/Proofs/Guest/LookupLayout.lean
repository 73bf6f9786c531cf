import Residual.Guest.LookupArray
import Residual.Proofs.Function.Numbering
import Residual.Proofs.Guest.Filling

/-!
# The layout of a lookup table

What the image of some entries holds, stated as a value. The records and the argument bytes are
filled in step, each from the front of its own part of the image, and together they give this
layout.
-/

namespace Residual

namespace Guest

variable {Funcs : Type} [FuncTable Funcs]

/-- The bytes that the arguments of some entries take, each padded to a multiple of eight. -/
def argumentsSize (entries : List Entry) : Nat :=
  entries.foldr (fun entry total => (entry.args.length + 7) / 8 * 8 + total) 0

/-- The bytes that the layout of some entries takes. -/
def tableSize (entries : List Entry) : Nat := 8 + 16 * entries.length + argumentsSize entries

/-- The record of an entry whose argument bytes are at an address and whose function has an
index. -/
def lookupRecord (address : Nat) (entry : Entry) (number : UInt32) : LookupRecord :=
  { funcId := entry.funcId
    argBuffer := if entry.args.isEmpty then 0 else .ofNat address
    argLength := .ofNat entry.args.length
    specialized := number }

/-- The records of some entries whose argument bytes start at `address`, with the indices of their
functions. -/
def lookupRecords : (address : Nat) → List Entry → List UInt32 → Bytes
  | address, entry :: rest, number :: numbers =>
    (lookupRecord address entry number).encode ++
      lookupRecords (address + Bytes.roundUp entry.args.length) rest numbers
  | _, _, _ => []

/-- The header of some entries at `base`, with their records behind it. -/
def tableHeader (base : Nat) (entries : List Entry) : LookupHeader :=
  ⟨if entries.isEmpty then 0 else .ofNat (base + LookupHeader.size), .ofNat entries.length⟩

/-- The layout of some entries at `base`, with the indices of their functions. -/
def tableBytes (base : Nat) (entries : List Entry) (numbers : List UInt32) : Bytes :=
  (tableHeader base entries).encode ++
    lookupRecords (base + LookupHeader.size + LookupRecord.size * entries.length) entries numbers ++
    entries.flatMap fun entry => Bytes.padded entry.args

theorem argumentsSize_cons (entry : Entry) (rest : List Entry) :
    argumentsSize (entry :: rest) = Bytes.roundUp entry.args.length + argumentsSize rest := rfl

theorem lookupRecords_cons (address : Nat) (entry : Entry) (rest : List Entry) (number : UInt32)
    (numbers : List UInt32) :
    lookupRecords address (entry :: rest) (number :: numbers) =
      (lookupRecord address entry number).encode ++
        lookupRecords (address + Bytes.roundUp entry.args.length) rest numbers := rfl

theorem length_lookupRecords {entries : List Entry} {numbers : List UInt32}
    (hnumbers : numbers.length = entries.length) (address : Nat) :
    (lookupRecords address entries numbers).length = LookupRecord.size * entries.length := by
  induction entries generalizing address numbers with
  | nil => rfl
  | cons entry rest ih =>
      obtain ⟨number, others, rfl⟩ := List.exists_cons_of_length_eq_add_one hnumbers
      rw [lookupRecords_cons, List.length_append, LookupRecord.length_encode,
        ih (Nat.succ.inj hnumbers), List.length_cons, Nat.mul_succ, Nat.add_comm]

theorem placeEntries_cons (offset : Nat) (entry : Entry) (rest : List Entry) :
    (placeEntries offset (entry :: rest)).1 =
      (offset, entry) :: (placeEntries (offset + Bytes.roundUp entry.args.length) rest).1 := rfl

theorem placeEntries_behind (offset : Nat) (entries : List Entry) :
    (placeEntries offset entries).2 = offset + argumentsSize entries := by
  induction entries generalizing offset with
  | nil => rfl
  | cons entry rest ih =>
      rw [argumentsSize_cons, ← Nat.add_assoc]
      exact ih _

theorem entryCount_of_lt {entries : List Entry} (hlength : entries.length < 2 ^ 32) :
    entryCount entries = .ok (.ofNat entries.length) :=
  if_pos hlength

theorem arrayPointer_of_lt {base : UInt32} (hspace : base.toNat + LookupHeader.size < 2 ^ 32)
    (entries : List Entry) :
    arrayPointer base entries =
      .ok (if entries.isEmpty then 0 else .ofNat (base.toNat + LookupHeader.size)) := by
  rw [arrayPointer, addressAt_of_lt hspace]
  split <;> rfl

/-- The words of an entry are those of its record. -/
theorem lookupRecord_eq_fields (address : Nat) (entry : Entry) (number : UInt32) (front : Bytes) :
    front ++ Bytes.zeros 0 ++
        Bytes.words [entry.funcId, if entry.args.isEmpty then 0 else .ofNat address,
          .ofNat entry.args.length] ++
        Bytes.zeros 0 ++ Bytes.words [number] =
      front ++ (lookupRecord address entry number).encode := by
  simp only [LookupRecord.encode, lookupRecord, Bytes.words, List.flatMap_cons, List.flatMap_nil,
    List.append_assoc, List.append_nil]
  rfl

/-- Arguments are copied to the front of the zeros that are left, and padded by some of these. -/
theorem copyAt_padded {before args : Bytes} {offset rest : Nat} (hoffset : before.length = offset) :
    copyAt (before ++ Bytes.zeros (Bytes.roundUp args.length + rest)) offset args =
      .ok (before ++ (Bytes.padded args ++ Bytes.zeros rest)) := by
  have hround := Bytes.le_roundUp args.length
  have hcopy : copyAt (before ++ (Bytes.zeros (Bytes.roundUp args.length + rest) ++ []))
      offset args = _ :=
    copyAt_zeros 0 (Bytes.roundUp args.length - args.length + rest) hoffset (by omega)
  rw [Bytes.zeros_add (_ - _)] at hcopy
  simpa only [List.append_nil, List.append_assoc, Bytes.zeros_zero, List.nil_append,
    Bytes.padded] using hcopy

/-- The records of some entries and their arguments are filled in unless a function has no index. -/
theorem outcome_fillEntries {base : UInt32} {entries : List Entry} {funcs : Funcs}
    {front behind : Bytes} {offset data : Nat} (hoffset : front.length = offset)
    (hdata : offset + LookupRecord.size * entries.length + behind.length = data)
    (hspace : base.toNat + data + argumentsSize entries < 2 ^ 32) :
    (fillEntries base (placeEntries data entries).1 offset
      (front ++ (Bytes.zeros (LookupRecord.size * entries.length) ++
        (behind ++ Bytes.zeros (argumentsSize entries))))).outcome funcs =
      match FuncTable.assignAll funcs (entries.map Entry.specialized) with
      | (.error error, later) => (.error error, later)
      | (.ok numbers, later) =>
        (.ok (front ++ (lookupRecords (base.toNat + data) entries numbers ++
          (behind ++ entries.flatMap fun entry => Bytes.padded entry.args))), later) := by
  -- Two parts of the image grow at once, each into the zeros behind it: records and arguments.
  induction entries generalizing funcs front behind offset data with
  | nil => rfl
  | cons entry rest ih =>
      have hround := Bytes.le_roundUp entry.args.length
      rw [argumentsSize_cons] at hspace
      rw [List.length_cons, Nat.mul_succ] at hdata
      have hpointer : argPointer base entry.args data = _ := argPointer_of_lt (by omega)
      have hlength : argLength entry.args = _ := argLength_of_lt (by omega)
      rw [placeEntries_cons, fillEntries]
      simp only [InPlace.outcome_bind, InPlace.outcome_lift, outcome_indexOf, hpointer, hlength]
      rw [writeWords_zeros 0 (4 + LookupRecord.size * rest.length) hoffset (by
        simp only [List.length_cons, List.length_nil, LookupRecord.size]; omega)]
      dsimp only
      rw [List.map_cons, FuncTable.assignAll]
      rcases FuncTable.assign funcs entry.specialized with ⟨error | number, middle⟩
      · rfl
      · dsimp only
        rw [writeWords_zeros 0 (LookupRecord.size * rest.length) (by
          simp only [List.length_append, Bytes.length_zeros, Bytes.length_words, hoffset,
            Nat.add_zero]) (by simp only [List.length_cons, List.length_nil]; omega)]
        dsimp only
        have hrecord := LookupRecord.length_encode (lookupRecord (base.toNat + data) entry number)
        have hcopy := @copyAt_padded
          (front ++ (lookupRecord (base.toNat + data) entry number).encode ++
            (Bytes.zeros (LookupRecord.size * rest.length) ++ behind)) entry.args data
          (argumentsSize rest) (by simp only [List.length_append, Bytes.length_zeros]; omega)
        have hrest := @ih middle (front ++ (lookupRecord (base.toNat + data) entry number).encode)
          (behind ++ Bytes.padded entry.args) (offset + LookupRecord.size)
          (data + Bytes.roundUp entry.args.length)
          (by rw [List.length_append, hrecord, hoffset])
          (by rw [List.length_append, Bytes.length_padded]; omega) (by omega)
        rw [lookupRecord_eq_fields]
        simp only [List.append_assoc] at hcopy hrest ⊢
        rw [argumentsSize_cons, hcopy]
        dsimp only
        refine Eq.trans hrest ?_
        rcases FuncTable.assignAll middle (rest.map Entry.specialized) with ⟨error | numbers, later⟩
        · rfl
        · simp only [lookupRecords_cons, List.flatMap_cons, List.append_assoc, Nat.add_assoc]

theorem writeWords_header (header : LookupHeader) (entries : List Entry) :
    writeWords (Bytes.zeros (tableSize entries)) 0 [header.entries, header.count] =
      .ok (header.encode ++ (Bytes.zeros (LookupRecord.size * entries.length) ++
        Bytes.zeros (argumentsSize entries)), LookupHeader.size) := by
  have hwrite : writeWords ([] ++ (Bytes.zeros (tableSize entries) ++ [])) 0
      [header.entries, header.count] = _ :=
    writeWords_zeros 0 (LookupRecord.size * entries.length + argumentsSize entries) rfl
      (by simp only [tableSize, LookupRecord.size, List.length_cons, List.length_nil]; omega)
  rw [Bytes.zeros_add (_ * _), List.append_nil, List.append_nil] at hwrite
  exact hwrite

/-- Writing a table gives its layout, or fails where the layout has no place or a function has no
index. -/
theorem writeTable_eq (table : Table) (base : UInt32) (funcs : Funcs) :
    writeTable table base funcs =
      if 2 ^ 32 ≤ base.toNat + tableSize table.entries.toList then
        (.error (.malformed .addressSpace), funcs)
      else
        ((FuncTable.assignAll funcs (table.entries.toList.map Entry.specialized)).1.map
            fun numbers => ⟨base, tableBytes base.toNat table.entries.toList numbers⟩,
          (FuncTable.assignAll funcs (table.entries.toList.map Entry.specialized)).2) := by
  rw [writeTable]
  generalize table.entries.toList = entries
  rw [fillTable]
  have hbehind :
      (placeEntries (LookupHeader.size + LookupRecord.size * entries.length) entries).2 =
        tableSize entries := placeEntries_behind _ _
  simp only [InPlace.outcome_bind, InPlace.outcome_lift, hbehind]
  by_cases hspace : base.toNat + tableSize entries < 2 ^ 32
  · have hsize : tableSize entries = 8 + 16 * entries.length + argumentsSize entries := rfl
    have hcount : entryCount entries = .ok (tableHeader base.toNat entries).count :=
      entryCount_of_lt (by omega)
    have harray : arrayPointer base entries = .ok (tableHeader base.toNat entries).entries :=
      arrayPointer_of_lt (by simp only [LookupHeader.size]; omega) entries
    have hfill := @outcome_fillEntries Funcs _ base entries funcs
      (tableHeader base.toNat entries).encode [] LookupHeader.size _
      (LookupHeader.length_encode _) rfl
      (by simp only [LookupHeader.size, LookupRecord.size, List.length_nil]; omega)
    rw [List.length_nil, Nat.add_zero, List.nil_append] at hfill
    rw [if_neg (Nat.not_le.mpr hspace), addressAt_of_lt hspace, hcount, harray]
    dsimp only
    rw [writeWords_header]
    dsimp only
    rw [hfill]
    rcases FuncTable.assignAll funcs (entries.map Entry.specialized) with ⟨error | numbers, later⟩
    · rfl
    · simp only [InPlace.outcome_pure, Except.map, tableBytes, List.nil_append,
        List.append_assoc, Nat.add_assoc]
  · rw [if_pos (Nat.not_lt.mp hspace), addressAt_of_not_lt hspace]

end Guest

end Residual
