import Residual.Proofs.Guest.PendingImage
import Residual.Proofs.Guest.PendingWalk

/-!
# The cells of slots

The specializer answers a request by changing the cell of its slot in the image. Every record, every
cell and every argument buffer has a place of its own, so a change to one cell is seen by nobody
else: neither by a reader of the chain, who does not look at the cells, nor in any other cell.
-/

namespace Residual.Guest

/-- A stretch of guest addresses. -/
structure Region where
  start : Nat
  size : Nat

namespace Region

/-- The address is in the region. -/
def Contains (region : Region) (address : Nat) : Prop :=
  region.start ≤ address ∧ address < region.start + region.size

/-- No address is in both regions. -/
def Apart (first second : Region) : Prop :=
  ∀ address, first.Contains address → ¬ second.Contains address

end Region

/-- Regions of some bytes that stand at an address. They lie apart from each other, each starts at a
multiple of eight from there, and what is in none of them is zero. -/
structure Tiles (start : Nat) (bytes : Bytes) (regions : List Region) : Prop where
  apart : regions.Pairwise Region.Apart
  aligned : ∀ region ∈ regions, ∃ count, region.start = start + 8 * count
  inside : ∀ region ∈ regions, region.start + region.size ≤ start + bytes.length
  blank : ∀ offset < bytes.length,
    (∀ region ∈ regions, ¬ region.Contains (start + offset)) → bytes[offset]? = some 0

theorem tiles_nil (start : Nat) : Tiles start [] [] :=
  ⟨.nil, by simp, by simp, by simp⟩

/-- A block may be followed by zeros. -/
theorem tiles_block (start : Nat) (data : Bytes) (gap : Nat) :
    Tiles start (data ++ Bytes.zeros gap) [⟨start, data.length⟩] := by
  refine ⟨List.pairwise_singleton _ _, ?_, ?_, ?_⟩
  · intro region hregion
    rw [List.mem_singleton.mp hregion]
    exact ⟨0, rfl⟩
  · intro region hregion
    rw [List.mem_singleton.mp hregion, List.length_append]
    exact Nat.add_le_add_left (Nat.le_add_right _ _) start
  · intro offset hoffset houtside
    have hbehind : data.length ≤ offset := by
      apply Nat.not_lt.mp
      intro hlt
      exact houtside _ (List.mem_singleton_self _) ⟨by simp, by simpa using hlt⟩
    rw [List.length_append, Bytes.length_zeros] at hoffset
    rw [List.getElem?_append_right hbehind, Bytes.zeros, List.getElem?_replicate_of_lt (by omega)]

theorem Tiles.append {start : Nat} {first second : Bytes} {before behind : List Region}
    (hfirst : Tiles start first before) (hlength : 8 ∣ first.length)
    (hsecond : Tiles (start + first.length) second behind) :
    Tiles start (first ++ second) (before ++ behind) := by
  obtain ⟨skipped, hskipped⟩ := hlength
  refine ⟨?_, ?_, ?_, ?_⟩
  · refine List.pairwise_append.mpr ⟨hfirst.apart, hsecond.apart, ?_⟩
    rintro left hleft right hright address ⟨-, hlt⟩ ⟨hle, -⟩
    have hend := hfirst.inside left hleft
    obtain ⟨count, hstart⟩ := hsecond.aligned right hright
    omega
  · intro region hregion
    rcases List.mem_append.mp hregion with hregion | hregion
    · exact hfirst.aligned region hregion
    · obtain ⟨count, hstart⟩ := hsecond.aligned region hregion
      exact ⟨skipped + count, by omega⟩
  · intro region hregion
    rw [List.length_append]
    rcases List.mem_append.mp hregion with hregion | hregion
    · have hend := hfirst.inside region hregion
      omega
    · have hend := hsecond.inside region hregion
      omega
  · intro offset hoffset houtside
    rw [List.length_append] at hoffset
    by_cases hlt : offset < first.length
    · rw [List.getElem?_append_left hlt]
      exact hfirst.blank offset hlt fun region hregion =>
        houtside region (List.mem_append_left _ hregion)
    · have hle := Nat.not_lt.mp hlt
      rw [List.getElem?_append_right hle]
      refine hsecond.blank (offset - first.length) (by omega) ?_
      intro region hregion hcontains
      rw [Nat.add_assoc, Nat.add_sub_cancel' hle] at hcontains
      exact houtside region (List.mem_append_right _ hregion) hcontains

namespace PendingItem

/-- Where an item at an address has its record, its cell and its arguments. -/
def regions (item : PendingItem) (address : Nat) : List Region :=
  [⟨address, 28⟩] ++ [⟨address + RequestRecord.slotOffset, 4⟩] ++
    if item.args.isEmpty then [] else [⟨address + RequestRecord.argOffset, item.args.length⟩]

theorem tiles_padded (start : Nat) (args : Bytes) :
    Tiles start (Bytes.padded args) (if args.isEmpty then [] else [⟨start, args.length⟩]) := by
  cases args with
  | nil => exact tiles_nil start
  | cons byte rest => exact tiles_block start (byte :: rest) _

theorem tiles_encode (item : PendingItem) (start address prev next : Nat) :
    Tiles start (item.encode address prev next) (item.regions start) := by
  have hrecord := RequestRecord.length_encode (item.record address prev next)
  refine .append (.append ?_ ?_ ?_) ?_ ?_
  · have hblock := tiles_block start (item.record address prev next).encode 4
    rw [hrecord] at hblock
    exact hblock
  · rw [List.length_append, hrecord]
    decide
  · rw [List.length_append, hrecord]
    exact tiles_block _ (Bytes.word32 item.resolved) 4
  · rw [List.length_append, List.length_append, hrecord]
    exact ⟨5, rfl⟩
  · rw [List.length_append, List.length_append, hrecord]
    exact tiles_padded _ item.args

theorem size_dvd (item : PendingItem) : 8 ∣ item.size := by
  rw [size]
  omega

end PendingItem

/-- Where the items of a chain have theirs, from an address on. -/
def chainRegions : (address : Nat) → List PendingItem → List Region
  | _, [] => []
  | address, item :: rest => item.regions address ++ chainRegions (address + item.size) rest

theorem tiles_chain (prev address : Nat) (items : List PendingItem) :
    Tiles address (chain prev address items) (chainRegions address items) := by
  induction items generalizing prev address with
  | nil => exact tiles_nil address
  | cons item rest ih =>
      refine .append (item.tiles_encode address address prev _) ?_ ?_
      · rw [PendingItem.length_encode]
        exact item.size_dvd
      · rw [PendingItem.length_encode]
        exact ih address (address + item.size)

/-- Where a record that was read has its body, the cell of its slot and its argument bytes, if there
are any. -/
def PendingRecord.regions (memory : Memory) (record : PendingRecord) : List Region :=
  [⟨record.address.toNat, 28⟩] ++ [⟨record.slot.toNat, 4⟩] ++
    if record.args.isEmpty then []
    else [⟨(memory.requestAt record.address).argBuffer.toNat, record.args.length⟩]

theorem requestAt_of_hasAt {memory : Memory} {address : UInt32} {record : RequestRecord}
    (hbytes : memory.HasAt address.toNat record.encode) : memory.requestAt address = record := by
  have hlength : record.encode.length = 28 := RequestRecord.length_encode record
  have hslice := hbytes.slice_eq hlength
  rw [Memory.slice_eq] at hslice
  split at hslice
  next => rw [← Memory.decode_requestAt, Except.ok.inj hslice, RequestRecord.decode_encode]
  next => cases hslice

theorem regions_found {memory : Memory} {item : PendingItem} {address prev next : Nat}
    (hbytes : memory.HasAt address (item.encode address prev next))
    (hspace : address + item.size < 2 ^ 32) :
    (item.found address).regions memory = item.regions address := by
  have haddress := PendingItem.toNat_address_found hspace
  have hrecord : memory.requestAt (item.found address).address = item.record address prev next := by
    apply requestAt_of_hasAt
    rw [haddress]
    exact hbytes.left.left.left
  have hargs : (UInt32.ofNat (address + RequestRecord.argOffset)).toNat =
      address + RequestRecord.argOffset := by
    apply UInt32.toNat_ofNat_of_lt'
    refine Nat.lt_of_le_of_lt (Nat.add_le_add_left ?_ address) hspace
    exact Nat.le_add_right RequestRecord.argOffset _
  rw [PendingRecord.regions, haddress, PendingItem.toNat_slot_found hspace, hrecord,
    PendingItem.regions]
  simp only [PendingItem.found, PendingItem.record]
  split
  next => rfl
  next => rw [hargs]

theorem flatMap_regions_chainRecords {memory : Memory} {prev address : Nat}
    {items : List PendingItem} (hbytes : memory.HasAt address (chain prev address items))
    (hspace : address + itemsSize items < 2 ^ 32) :
    (chainRecords address items).flatMap (PendingRecord.regions memory) =
      chainRegions address items := by
  induction items generalizing prev address with
  | nil => rfl
  | cons item rest ih =>
      obtain ⟨hitem, hbehind⟩ := hasAt_of_chain_cons hbytes
      rw [itemsSize_cons] at hspace
      rw [chainRecords, List.flatMap_cons, regions_found hitem (by omega),
        ih hbehind (by omega), chainRegions]

/-- The cell of a slot is a part of the image of its own: whatever it holds, all around it stays the
same. -/
theorem exists_cell {items : List PendingItem} {index : Nat} {item : PendingItem}
    (hitem : items[index]? = some item) (prev address : Nat) :
    ∃ before after : Bytes,
      before.length = itemsSize (items.take index) + RequestRecord.slotOffset ∧
      ∀ number, chain prev address (items.set index { item with resolved := number }) =
        before ++ (Bytes.word32 number ++ after) := by
  induction items generalizing index prev address with
  | nil => cases hitem
  | cons first rest ih =>
      cases index with
      | zero =>
          cases hitem
          refine ⟨(item.record address prev
            (if rest.isEmpty then 0 else address + item.size)).encode ++
            Bytes.zeros 4, Bytes.zeros 4 ++ (Bytes.padded item.args ++
              chain address (address + item.size) rest), ?_, ?_⟩
          · rw [List.length_append, RequestRecord.length_encode]
            rfl
          · intro number
            rw [List.set_cons_zero, chain, PendingItem.encode]
            simp only [List.append_assoc]
            rfl
      | succ index =>
          obtain ⟨before, after, hlength, hchain⟩ := ih hitem address (address + first.size)
          refine ⟨first.encode address prev (if rest.isEmpty then 0 else address + first.size) ++
            before, after, ?_, ?_⟩
          · rw [List.length_append, PendingItem.length_encode, hlength, List.take_succ_cons,
              itemsSize_cons, Nat.add_assoc]
          · intro number
            rw [List.set_cons_succ, chain, hchain, List.append_assoc]
            simp only [List.isEmpty_iff, List.set_eq_nil_iff]

theorem chainRecords_set {items : List PendingItem} {index : Nat} {item : PendingItem}
    (hitem : items[index]? = some item) (address : Nat) (number : UInt32) :
    chainRecords address (items.set index { item with resolved := number }) =
      chainRecords address items := by
  induction items generalizing index address with
  | nil => cases hitem
  | cons first rest ih =>
      cases index with
      | zero =>
          cases hitem
          rfl
      | succ index => rw [List.set_cons_succ, chainRecords, ih hitem, chainRecords]

theorem itemsSize_set {items : List PendingItem} {index : Nat} {item : PendingItem}
    (hitem : items[index]? = some item) (number : UInt32) :
    itemsSize (items.set index { item with resolved := number }) = itemsSize items := by
  induction items generalizing index with
  | nil => cases hitem
  | cons first rest ih =>
      cases index with
      | zero =>
          cases hitem
          rfl
      | succ index => rw [List.set_cons_succ, itemsSize_cons, ih hitem, itemsSize_cons]

/-- A record that was read names the place of its cell. -/
theorem exists_cell_of_record {base : UInt32} {items : List PendingItem} {index : Nat}
    {item : PendingItem} {record : PendingRecord} (hspace : base.toNat + itemsSize items < 2 ^ 32)
    (hrecord : (chainRecords base.toNat items)[index]? = some record)
    (hitem : items[index]? = some item) :
    ∃ before after, base.toNat + before.length = record.slot.toNat ∧
      chain 0 base.toNat items = before ++ (Bytes.word32 item.resolved ++ after) ∧
      ∀ number, chain 0 base.toNat (items.set index { item with resolved := number }) =
        before ++ (Bytes.word32 number ++ after) := by
  rw [getElem?_chainRecords, hitem, Option.map_some, Option.some.injEq] at hrecord
  subst record
  obtain ⟨before, after, hlength, hchain⟩ := exists_cell hitem 0 base.toNat
  have hend := itemsSize_take_le hitem
  have hself : items.set index item = items := by
    obtain ⟨hlt, rfl⟩ := List.getElem?_eq_some_iff.mp hitem
    exact List.set_getElem_self hlt
  refine ⟨before, after, ?_, ?_, hchain⟩
  · rw [hlength, ← Nat.add_assoc]
    exact (PendingItem.toNat_slot_found (by omega)).symm
  · rw [← hchain item.resolved]
    exact congrArg (chain 0 base.toNat) hself.symm

/-- A cell holds what is laid out for the slot. -/
theorem slice_cell {base : UInt32} {items : List PendingItem} {index : Nat} {item : PendingItem}
    {record : PendingRecord} (hspace : base.toNat + itemsSize items < 2 ^ 32)
    (hrecord : (chainRecords base.toNat items)[index]? = some record)
    (hitem : items[index]? = some item) :
    Memory.slice ⟨base, chain 0 base.toNat items⟩ record.slot.toNat 4 =
      .ok (Bytes.word32 item.resolved) := by
  obtain ⟨before, after, hcell, hdata, -⟩ := exists_cell_of_record hspace hrecord hitem
  rw [hdata, ← List.append_assoc]
  exact (Memory.hasAt_surrounded hcell).slice_eq (Bytes.length_word32 _)

/-- Changing a cell lays out the same chain with another index for that slot. -/
theorem overwrite?_cell {base : UInt32} {items : List PendingItem} {index : Nat}
    {item : PendingItem} {record : PendingRecord} (hspace : base.toNat + itemsSize items < 2 ^ 32)
    (hrecord : (chainRecords base.toNat items)[index]? = some record)
    (hitem : items[index]? = some item) (number : UInt32) :
    (chain 0 base.toNat items).overwrite? (record.slot.toNat - base.toNat) (Bytes.word32 number) =
      some (chain 0 base.toNat (items.set index { item with resolved := number })) := by
  obtain ⟨before, after, hcell, hdata, hchain⟩ := exists_cell_of_record hspace hrecord hitem
  rw [hdata, hchain number, ← hcell, Nat.add_sub_cancel_left]
  exact Bytes.overwrite?_append rfl

/-- The cell of a slot holds the index of the function in the slot, or zero if there is none. -/
def HoldsSlot (memory : Memory) (numbering : Numbering) (content : Option FuncRef) (cell : UInt32) :
    Prop :=
  ∃ number, memory.slice cell.toNat 4 = .ok (Bytes.word32 number) ∧
    (content = none → number = 0) ∧ ∀ func, content = some func → numbering.Assigned func number

theorem holdsSlot_of_written {slots : Slots} {requests : List Request} {base : UInt32}
    {numbering later : Numbering} {image : PendingImage}
    (hwrite : writePending slots requests base numbering = (.ok image, later))
    {index : Nat} {request : Request} (hrequest : requests[index]? = some request)
    {record : PendingRecord}
    (hrecord : (chainRecords base.toNat (requests.map (numberedItem slots later)))[index]? =
      some record) :
    HoldsSlot image.memory later (slots.read request.slot) record.slot := by
  obtain ⟨-, hspace, hassigned, rfl⟩ := numberedItems_of_written hwrite
  have hitem : (requests.map (numberedItem slots later))[index]? =
      some (numberedItem slots later request) := by
    rw [List.getElem?_map, hrequest, Option.map_some]
  refine ⟨_, slice_cell hspace hrecord hitem, ?_, ?_⟩
  · intro hempty
    rw [numberedItem, requestFunctions, hempty]
    rfl
  · intro func hfunc
    have hresolved : (numberedItem slots later request).resolved = later.index func := by
      rw [numberedItem, requestFunctions, hfunc]
      rfl
    rw [hresolved]
    refine hassigned request (List.mem_of_getElem? hrequest) func (List.mem_cons_of_mem _ ?_)
    rw [hfunc]
    exact List.mem_singleton_self func

/-- Whatever a cell is changed to, the chain is read as before, and no other cell is changed. -/
theorem exists_changed_cell {base : UInt32} {items : List PendingItem} {index : Nat}
    {record : PendingRecord} (hbase : base ≠ 0) (hspace : base.toNat + itemsSize items < 2 ^ 32)
    (hrecord : (chainRecords base.toNat items)[index]? = some record) (number : UInt32) :
    ∃ changed,
      (chain 0 base.toNat items).overwrite? (record.slot.toNat - base.toNat)
        (Bytes.word32 number) = some changed ∧
      readPending ⟨base, changed⟩ (if items.isEmpty then 0 else base) =
        .ok (chainRecords base.toNat items) ∧
      ∀ (other : Nat) (found : PendingRecord), other ≠ index →
        (chainRecords base.toNat items)[other]? = some found →
        Memory.slice ⟨base, changed⟩ found.slot.toNat 4 =
          Memory.slice ⟨base, chain 0 base.toNat items⟩ found.slot.toNat 4 := by
  obtain ⟨item, hitem, -⟩ :=
    Option.map_eq_some_iff.mp ((getElem?_chainRecords _ _ _).symm.trans hrecord)
  have hrecords := chainRecords_set hitem base.toNat number
  have hsize :
      base.toNat + itemsSize (items.set index { item with resolved := number }) < 2 ^ 32 := by
    rw [itemsSize_set hitem]
    exact hspace
  refine ⟨_, overwrite?_cell hspace hrecord hitem number, ?_, ?_⟩
  · have hread := readPending_chain (Memory.hasAt_base base _) hbase hsize
    rw [hrecords] at hread
    simpa only [List.isEmpty_iff, List.set_eq_nil_iff] using hread
  · intro other found hother hfound
    obtain ⟨kept, hkept, -⟩ :=
      Option.map_eq_some_iff.mp ((getElem?_chainRecords _ _ _).symm.trans hfound)
    rw [slice_cell hspace hfound hkept]
    refine slice_cell hsize (hrecords ▸ hfound) ?_
    rw [List.getElem?_set_ne hother.symm]
    exact hkept

/-- In every image of pending requests each record is read with a slot cell of its own. The cell
holds the index of the function in the request's slot. Records, cells and argument buffers lie apart
from each other inside the image, each at a multiple of eight from its base, and between them there
are only zeros. Whatever a cell is overwritten with, the requests are read as before and all other
cells are as they were. -/
theorem slot_cells_are_isolated (slots : Slots) (requests : List Request) (base : UInt32)
    (numbering later : Numbering) (image : PendingImage)
    (hwrite : writePending slots requests base numbering = (.ok image, later)) :
    ∃ records, readPending image.memory image.head = .ok records ∧
      records.length = requests.length ∧
      (∀ (index : Nat) (request : Request), requests[index]? = some request →
        ∃ record, records[index]? = some record ∧
          record.Describes request (base.toNat + chainSize (requests.take index)) later ∧
          HoldsSlot image.memory later (slots.read request.slot) record.slot) ∧
      Tiles base.toNat image.memory.data
        (records.flatMap (PendingRecord.regions image.memory)) ∧
      ∀ (index : Nat) (record : PendingRecord) (value : UInt32), records[index]? = some record →
        ∃ changed,
          image.memory.data.overwrite? (record.slot.toNat - base.toNat) (Bytes.word32 value) =
            some changed ∧
          readPending ⟨base, changed⟩ image.head = .ok records ∧
          ∀ (other : Nat) (found : PendingRecord), other ≠ index → records[other]? = some found →
            Memory.slice ⟨base, changed⟩ found.slot.toNat 4 =
              image.memory.slice found.slot.toNat 4 := by
  refine ⟨_, readPending_numbered hwrite (hasAt_writePending hwrite), ?_, ?_, ?_, ?_⟩
  · rw [length_chainRecords, List.length_map]
  · intro index request hrequest
    obtain ⟨record, hrecord, hdescribes⟩ := exists_record_of_written hwrite hrequest
    exact ⟨record, hrecord, hdescribes, holdsSlot_of_written hwrite hrequest hrecord⟩
  · obtain ⟨-, hspace, -, rfl⟩ := numberedItems_of_written hwrite
    rw [flatMap_regions_chainRecords (Memory.hasAt_base base _) hspace]
    exact tiles_chain 0 base.toNat _
  · intro index record value hrecord
    obtain ⟨hbase, hspace, -, rfl⟩ := numberedItems_of_written hwrite
    have hchanged := exists_changed_cell hbase hspace hrecord value
    rw [List.isEmpty_map] at hchanged
    exact hchanged

def answeredRequest : Request := ⟨11, ⟨82, by decide⟩, [1, 2, 3, 4, 5, 6, 7, 8, 9], ⟨2⟩⟩

def openRequest : Request := ⟨12, ⟨83, by decide⟩, [], ⟨3⟩⟩

/-- The open request is answered in the image, and the answer to the other one stays what it was. -/
theorem slot_cells_are_isolated_answer :
    ∃ image later first second changed,
      writePending (Slots.empty.write ⟨2⟩ ⟨84, by decide⟩) [answeredRequest, openRequest] 4096
        Numbering.direct = (.ok image, later) ∧
      readPending image.memory image.head = .ok [first, second] ∧
      image.memory.data.overwrite? (second.slot.toNat - 4096) (Bytes.word32 85) = some changed ∧
      readPending ⟨4096, changed⟩ image.head = .ok [first, second] ∧
      HoldsSlot ⟨4096, changed⟩ later (some ⟨84, by decide⟩) first.slot := by
  obtain ⟨image, later, hwrite⟩ : ∃ image later,
      writePending (Slots.empty.write ⟨2⟩ ⟨84, by decide⟩) [answeredRequest, openRequest] 4096
        Numbering.direct = (.ok image, later) := ⟨_, _, (writePending_eq _ _ _ _).trans rfl⟩
  obtain ⟨records, hread, hlength, hcells, -, hchange⟩ :=
    slot_cells_are_isolated _ [answeredRequest, openRequest] 4096 .direct later image hwrite
  obtain ⟨first, second, rfl⟩ := List.length_eq_two.mp hlength
  obtain ⟨changed, hchanged, hagain, hothers⟩ := hchange 1 second 85 rfl
  obtain ⟨record, hrecord, -, number, hnumber, hfilled⟩ := hcells 0 answeredRequest rfl
  cases hrecord
  refine
    ⟨image, later, first, second, changed, hwrite, hread, hchanged, hagain, number, ?_, hfilled⟩
  rw [hothers 0 first (by decide) rfl]
  exact hnumber

end Residual.Guest
