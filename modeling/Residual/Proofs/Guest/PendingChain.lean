import Residual.Proofs.Guest.PendingLayout

/-!
# Reading a laid-out chain

A chain that was laid out is read back record by record, in any memory that holds it at its address.
-/

namespace Residual.Guest

namespace PendingItem

/-- What a reader finds for an item at an address. -/
def found (item : PendingItem) (address : Nat) : PendingRecord :=
  ⟨.ofNat address, item.funcId, item.func, item.args, .ofNat (address + RequestRecord.slotOffset)⟩

theorem toNat_address_found {item : PendingItem} {address : Nat}
    (hspace : address + item.size < 2 ^ 32) : (item.found address).address.toNat = address :=
  UInt32.toNat_ofNat_of_lt' (Nat.lt_of_le_of_lt (Nat.le_add_right _ _) hspace)

theorem toNat_slot_found {item : PendingItem} {address : Nat}
    (hspace : address + item.size < 2 ^ 32) :
    (item.found address).slot.toNat = address + RequestRecord.slotOffset := by
  apply UInt32.toNat_ofNat_of_lt'
  refine Nat.lt_of_le_of_lt (Nat.add_le_add_left ?_ address) hspace
  exact Nat.le_trans (by decide) (Nat.le_add_right RequestRecord.argOffset _)

end PendingItem

/-- What a reader finds for the items of a chain from an address on. -/
def chainRecords : (address : Nat) → List PendingItem → List PendingRecord
  | _, [] => []
  | address, item :: rest => item.found address :: chainRecords (address + item.size) rest

/-- The bytes that some items take. -/
def itemsSize (items : List PendingItem) : Nat :=
  items.foldr (fun item total => item.size + total) 0

theorem itemsSize_cons (item : PendingItem) (rest : List PendingItem) :
    itemsSize (item :: rest) = item.size + itemsSize rest := rfl

theorem length_chain (prev address : Nat) (items : List PendingItem) :
    (chain prev address items).length = itemsSize items := by
  induction items generalizing prev address with
  | nil => rfl
  | cons item rest ih =>
      rw [chain, List.length_append, PendingItem.length_encode, ih, itemsSize_cons]

theorem length_le_itemsSize (items : List PendingItem) :
    RequestRecord.size * items.length ≤ itemsSize items := by
  induction items with
  | nil => exact Nat.le_refl 0
  | cons item rest ih =>
      have hitem : RequestRecord.size ≤ item.size := by
        simp only [RequestRecord.size, PendingItem.size]
        omega
      rw [List.length_cons, itemsSize_cons, Nat.mul_succ]
      omega

theorem itemsSize_take_le {items : List PendingItem} {index : Nat} {item : PendingItem}
    (hitem : items[index]? = some item) :
    itemsSize (items.take index) + item.size ≤ itemsSize items := by
  induction items generalizing index with
  | nil => cases hitem
  | cons first rest ih =>
      rw [itemsSize_cons]
      cases index with
      | zero =>
          cases hitem
          simp [itemsSize]
      | succ index =>
          rw [List.take_succ_cons, itemsSize_cons]
          have hrest := ih hitem
          omega

theorem length_chainRecords (address : Nat) (items : List PendingItem) :
    (chainRecords address items).length = items.length := by
  induction items generalizing address with
  | nil => rfl
  | cons item rest ih => rw [chainRecords, List.length_cons, ih, List.length_cons]

/-- A record is found behind all that the earlier items take. -/
theorem getElem?_chainRecords (address : Nat) (items : List PendingItem) (index : Nat) :
    (chainRecords address items)[index]? =
      items[index]?.map fun item => item.found (address + itemsSize (items.take index)) := by
  induction items generalizing address index with
  | nil => rfl
  | cons first rest ih =>
      cases index with
      | zero => rfl
      | succ index =>
          rw [chainRecords, List.getElem?_cons_succ, List.getElem?_cons_succ, ih,
            List.take_succ_cons, itemsSize_cons, Nat.add_assoc]

/-- In a memory that holds a chain the first item stands in front, and the chain of the others
behind it. -/
theorem hasAt_of_chain_cons {memory : Memory} {prev address : Nat} {item : PendingItem}
    {rest : List PendingItem} (hbytes : memory.HasAt address (chain prev address (item :: rest))) :
    memory.HasAt address
        (item.encode address prev (if rest.isEmpty then 0 else address + item.size)) ∧
      memory.HasAt (address + item.size) (chain address (address + item.size) rest) := by
  rw [chain] at hbytes
  have hbehind := hbytes.right
  rw [PendingItem.length_encode] at hbehind
  exact ⟨hbytes.left, hbehind⟩

/-- The walk passes one laid-out item: its links are what the walk expects, and its arguments are
where the record says. -/
theorem follow_item {memory : Memory} {head : UInt32} {count prev address next : Nat}
    {item : PendingItem} {rest : List PendingRecord}
    (hbytes : memory.HasAt address (item.encode address prev next))
    (haddress : 0 < address) (hspace : address + item.size < 2 ^ 32)
    (hrest : follow memory head count (.ofNat address) (.ofNat next) = .ok rest) :
    follow memory head (count + 1) (.ofNat prev) (.ofNat address) =
      .ok (item.found address :: rest) := by
  have hnat : (UInt32.ofNat address).toNat = address := PendingItem.toNat_address_found hspace
  have hne : UInt32.ofNat address ≠ 0 := ofNat_ne_zero haddress (by omega)
  rw [PendingItem.encode] at hbytes
  have hrecord := hbytes.left.left.left.slice_eq (RequestRecord.length_encode _)
  have hargs : memory.HasAt (address + RequestRecord.argOffset) item.args := by
    have hpadded := hbytes.right
    simp only [List.length_append, RequestRecord.length_encode, Bytes.length_zeros,
      Bytes.length_word32] at hpadded
    exact hpadded.left
  have hregion := hargs.region_eq (by
    have hle := Bytes.le_roundUp item.args.length
    rw [PendingItem.size_eq] at hspace
    omega)
  rw [follow, if_neg hne, hnat, hrecord]
  simp only [RequestRecord.decode_encode, PendingItem.record, ne_eq, not_true_eq_false, if_false,
    hregion, hrest]
  rfl

theorem follow_chain {memory : Memory} {head : UInt32} {count prev address : Nat}
    {items : List PendingItem} (hbytes : memory.HasAt address (chain prev address items))
    (haddress : 0 < address) (hspace : address + itemsSize items < 2 ^ 32)
    (hcount : items.length ≤ count) :
    follow memory head count (.ofNat prev) (.ofNat (if items.isEmpty then 0 else address)) =
      .ok (chainRecords address items) := by
  -- Each item stands where the one before it says, so the walk loses one step and one item at a
  -- time.
  induction items generalizing count prev address with
  | nil => cases count <;> rfl
  | cons item rest ih =>
      obtain ⟨count, rfl⟩ : ∃ fewer, count = fewer + 1 :=
        Nat.exists_eq_succ_of_ne_zero (by rw [List.length_cons] at hcount; omega)
      obtain ⟨hitem, hbehind⟩ := hasAt_of_chain_cons hbytes
      rw [itemsSize_cons] at hspace
      rw [List.isEmpty_cons, if_neg Bool.false_ne_true]
      refine follow_item hitem haddress (by omega) ?_
      exact ih hbehind (by omega) (by omega) (Nat.le_of_succ_le_succ hcount)

/-- A laid-out chain is read back from any memory that holds it. -/
theorem readPending_of_hasAt {memory : Memory} {address : Nat} {items : List PendingItem}
    (hbytes : memory.HasAt address (chain 0 address items)) (haddress : 0 < address)
    (hspace : address + itemsSize items < 2 ^ 32) :
    readPending memory (.ofNat (if items.isEmpty then 0 else address)) =
      .ok (chainRecords address items) := by
  have hlength := hbytes.length_le
  rw [length_chain] at hlength
  have hcount : items.length ≤ memory.data.length / RequestRecord.size :=
    (Nat.le_div_iff_mul_le (by decide)).mpr (by
      have hsize := length_le_itemsSize items
      rw [Nat.mul_comm]
      omega)
  exact follow_chain hbytes haddress hspace (by omega)

/-- The head of a chain is its base, or null if there is nothing in it. -/
theorem readPending_chain {memory : Memory} {base : UInt32} {items : List PendingItem}
    (hbytes : memory.HasAt base.toNat (chain 0 base.toNat items)) (hbase : base ≠ 0)
    (hspace : base.toNat + itemsSize items < 2 ^ 32) :
    readPending memory (if items.isEmpty then 0 else base) =
      .ok (chainRecords base.toNat items) := by
  have hpos : 0 < base.toNat := Nat.pos_of_ne_zero fun hzero => hbase (UInt32.toNat_inj.mp hzero)
  have hhead : (if items.isEmpty then 0 else base) =
      UInt32.ofNat (if items.isEmpty then 0 else base.toNat) := by
    split
    next => rfl
    next => exact UInt32.ofNat_toNat.symm
  rw [hhead]
  exact readPending_of_hasAt hbytes hpos hspace

/-- What identifies the specialization that a record asks for. -/
def PendingRecord.key (record : PendingRecord) : Key := ⟨record.funcId, record.args⟩

/-- The records of laid-out requests ask for what the requests ask for. -/
theorem map_key_chainRecords (slots : Slots) (requests : List Request) (numbers : List UInt32)
    (address : Nat) :
    (chainRecords address (pendingItems slots requests numbers)).map PendingRecord.key =
      requests.map Request.key := by
  induction requests generalizing address numbers with
  | nil => rfl
  | cons request rest ih =>
      rw [pendingItems, chainRecords, List.map_cons, ih, List.map_cons]
      rfl

theorem itemsSize_pendingItems (slots : Slots) (requests : List Request) (numbers : List UInt32) :
    itemsSize (pendingItems slots requests numbers) = chainSize requests := by
  induction requests generalizing numbers with
  | nil => rfl
  | cons request rest ih =>
      rw [pendingItems, itemsSize_cons, ih, chainSize_cons]
      rfl

/-- If every function has one index, every request is laid out on its own. -/
theorem pendingItems_map (slots : Slots) (requests : List Request) (number : FuncRef → UInt32) :
    pendingItems slots requests ((chainFunctions slots requests).map number) =
      requests.map fun request =>
        pendingItem request ((requestFunctions slots request).map number) := by
  induction requests with
  | nil => rfl
  | cons request rest ih =>
      rw [chainFunctions_cons, List.map_append, pendingItems_append (List.length_map _), ih,
        List.map_cons]

section Written

variable {Funcs : Type} [FuncTable Funcs] {slots : Slots} {requests : List Request} {base : UInt32}
  {funcs later : Funcs} {image : PendingImage}

theorem writePending_eq_ok
    (hwrite : writePending slots requests base funcs = (.ok image, later)) :
    ∃ numbers,
      FuncTable.assignAll funcs (chainFunctions slots requests) = (.ok numbers, later) ∧
      base ≠ 0 ∧ base.toNat + chainSize requests < 2 ^ 32 ∧
      image = ⟨⟨base, chain 0 base.toNat (pendingItems slots requests numbers)⟩,
        if requests.isEmpty then 0 else base⟩ := by
  rw [writePending_eq] at hwrite
  split at hwrite
  next => cases hwrite
  next hbase =>
    split at hwrite
    next => cases hwrite
    next =>
      split at hwrite
      next => cases hwrite
      next hspace =>
        obtain ⟨numbers, hassign, rfl⟩ := FuncTable.exists_of_map_assignAll hwrite
        exact ⟨numbers, hassign, hbase, Nat.not_le.mp hspace, rfl⟩

/-- A written chain is read back wherever its bytes come to stand at their address, with the indices
that the function table gave out. -/
theorem readPending_of_written {memory : Memory}
    (hwrite : writePending slots requests base funcs = (.ok image, later))
    (hbytes : memory.HasAt base.toNat image.memory.data) :
    ∃ numbers,
      FuncTable.assignAll funcs (chainFunctions slots requests) = (.ok numbers, later) ∧
      readPending memory image.head =
        .ok (chainRecords base.toNat (pendingItems slots requests numbers)) := by
  obtain ⟨numbers, hassign, hbase, hspace, rfl⟩ := writePending_eq_ok hwrite
  refine ⟨numbers, hassign, ?_⟩
  rw [← itemsSize_pendingItems slots requests numbers] at hspace
  have hread := readPending_chain hbytes hbase hspace
  rw [isEmpty_pendingItems] at hread
  exact hread

theorem hasAt_writePending (hwrite : writePending slots requests base funcs = (.ok image, later)) :
    image.memory.HasAt base.toNat image.memory.data := by
  obtain ⟨numbers, -, -, -, rfl⟩ := writePending_eq_ok hwrite
  exact Memory.hasAt_base base _

end Written

end Residual.Guest
