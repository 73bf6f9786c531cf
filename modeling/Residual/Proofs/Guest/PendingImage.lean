import Residual.Proofs.Function.Numbering
import Residual.Proofs.Guest.PendingChain
import Residual.Proofs.Store.Refinement

/-!
# Images of a store

The image of a store has one record for every pending request, at an address that depends only on
the argument bytes of the requests before it. Stray memory around the image changes nothing for a
reader.
-/

namespace Residual.Guest

/-- A record at an address asks for what a request asks for, under the index of its generic
function. The cell of its slot is 32 bytes behind the start of the record. -/
structure PendingRecord.Describes (record : PendingRecord) (request : Request) (address : Nat)
    (numbering : Numbering) : Prop where
  funcId_eq : record.funcId = request.funcId
  args_eq : record.args = request.args
  func : numbering.Assigned request.generic record.func
  address_eq : record.address.toNat = address
  slot_eq : record.slot.toNat = record.address.toNat + 32

/-- What is laid out for a request whose functions are numbered. -/
def numberedItem (slots : Slots) (numbering : Numbering) (request : Request) : PendingItem :=
  pendingItem request ((requestFunctions slots request).map numbering.index)

theorem describes_found {slots : Slots} {numbering : Numbering} {request : Request} {address : Nat}
    (hassigned : numbering.Assigned request.generic (numbering.index request.generic))
    (hspace : address + (numberedItem slots numbering request).size < 2 ^ 32) :
    ((numberedItem slots numbering request).found address).Describes request address numbering := by
  have haddress := PendingItem.toNat_address_found hspace
  refine ⟨rfl, rfl, hassigned, haddress, ?_⟩
  rw [PendingItem.toNat_slot_found hspace, haddress, RequestRecord.slotOffset]

/-- A numbering gives every function of a chain its one index, so every request is laid out on its
own. -/
theorem numberedItems_of_assignAll {slots : Slots} {requests : List Request}
    {numbering later : Numbering} {numbers : List UInt32}
    (hassign : FuncTable.assignAll numbering (chainFunctions slots requests) =
      (.ok numbers, later)) :
    pendingItems slots requests numbers = requests.map (numberedItem slots later) ∧
      ∀ request ∈ requests, ∀ func ∈ requestFunctions slots request,
        later.Assigned func (later.index func) := by
  obtain ⟨rfl, hassigned⟩ := Numbering.assignAll_eq_ok hassign
  refine ⟨pendingItems_map slots requests later.index, ?_⟩
  intro request hrequest func hfunc
  exact hassigned func (List.mem_flatMap.mpr ⟨request, hrequest, hfunc⟩)

theorem numberedItems_of_written {slots : Slots} {requests : List Request} {base : UInt32}
    {numbering later : Numbering} {image : PendingImage}
    (hwrite : writePending slots requests base numbering = (.ok image, later)) :
    base ≠ 0 ∧ base.toNat + itemsSize (requests.map (numberedItem slots later)) < 2 ^ 32 ∧
      (∀ request ∈ requests, ∀ func ∈ requestFunctions slots request,
        later.Assigned func (later.index func)) ∧
      image = ⟨⟨base, chain 0 base.toNat (requests.map (numberedItem slots later))⟩,
        if requests.isEmpty then 0 else base⟩ := by
  obtain ⟨numbers, hassign, hbase, hspace, rfl⟩ := writePending_eq_ok hwrite
  obtain ⟨hitems, hassigned⟩ := numberedItems_of_assignAll hassign
  rw [← itemsSize_pendingItems slots requests numbers, hitems] at hspace
  rw [hitems]
  exact ⟨hbase, hspace, hassigned, rfl⟩

theorem itemsSize_numberedItem (slots : Slots) (numbering : Numbering) (requests : List Request) :
    itemsSize (requests.map (numberedItem slots numbering)) = chainSize requests :=
  List.foldr_map

/-- The record of each request stands behind all that is laid out for the requests before it. -/
theorem exists_record_of_written {slots : Slots} {requests : List Request} {base : UInt32}
    {numbering later : Numbering} {image : PendingImage}
    (hwrite : writePending slots requests base numbering = (.ok image, later))
    {index : Nat} {request : Request} (hrequest : requests[index]? = some request) :
    ∃ record,
      (chainRecords base.toNat (requests.map (numberedItem slots later)))[index]? = some record ∧
        record.Describes request (base.toNat + chainSize (requests.take index)) later := by
  obtain ⟨-, hspace, hassigned, -⟩ := numberedItems_of_written hwrite
  have hgeneric := hassigned request (List.mem_of_getElem? hrequest) request.generic
    List.mem_cons_self
  have hitem : (requests.map (numberedItem slots later))[index]? =
      some (numberedItem slots later request) := by
    rw [List.getElem?_map, hrequest, Option.map_some]
  have hbefore := itemsSize_take_le hitem
  rw [getElem?_chainRecords, hitem, Option.map_some]
  rw [← List.map_take, itemsSize_numberedItem slots later (requests.take index)] at hbefore ⊢
  exact ⟨_, rfl, describes_found hgeneric (by omega)⟩

/-- A written chain of numbered functions is read back, request by request. -/
theorem readPending_numbered {slots : Slots} {requests : List Request} {base : UInt32}
    {numbering later : Numbering} {image : PendingImage} {memory : Memory}
    (hwrite : writePending slots requests base numbering = (.ok image, later))
    (hbytes : memory.HasAt base.toNat image.memory.data) :
    readPending memory image.head =
      .ok (chainRecords base.toNat (requests.map (numberedItem slots later))) := by
  obtain ⟨numbers, hassign, hread⟩ := readPending_of_written hwrite hbytes
  rw [hread, (numberedItems_of_assignAll hassign).1]

/-- Whatever happened to a store, the image of its pending requests is read back from any memory
that holds it: one record for each pending request and no others, in the order of the pending
list. -/
theorem readPending_in_any_memory (commands : List (StoreCommand Request)) (slots : Slots)
    (base start : UInt32) (before after : Bytes) (numbering later : Numbering)
    (image : PendingImage) (hstart : start.toNat + before.length = base.toNat)
    (hwrite : writePending slots ((Store.empty.run commands).2.pending.map Prod.snd) base
      numbering = (.ok image, later)) :
    ∃ (ledger : Ledger Request) (records : List PendingRecord),
      Ledger.Run .empty commands (Store.empty.run commands).1 ledger ∧
      (Store.empty.run commands).2.pending = ledger.pending ∧
      readPending ⟨start, before ++ image.memory.data ++ after⟩ image.head = .ok records ∧
      records.length = ledger.pending.length ∧
      ∀ (index : Nat) (handle : Handle) (request : Request),
        ledger.pending[index]? = some (handle, request) →
        ∃ record, records[index]? = some record ∧
          record.Describes request
            (base.toNat + chainSize ((ledger.pending.take index).map Prod.snd)) later := by
  obtain ⟨ledger, hrun, hrepresents⟩ :=
    Store.run_refines Store.empty Ledger.empty commands Store.represents_empty
  rw [hrepresents.pending_eq] at hwrite
  have hbytes : Memory.HasAt ⟨start, before ++ image.memory.data ++ after⟩ base.toNat
      image.memory.data := Memory.hasAt_surrounded hstart
  have hread := readPending_numbered hwrite hbytes
  refine ⟨ledger, _, hrun, hrepresents.pending_eq, hread, ?_, ?_⟩
  · rw [length_chainRecords, List.length_map, List.length_map]
  · intro index handle request hpending
    have hrequest : (ledger.pending.map Prod.snd)[index]? = some request := by
      rw [List.getElem?_map, hpending, Option.map_some]
    rw [List.map_take]
    exact exists_record_of_written hwrite hrequest

def olderRequest : Request := ⟨9, ⟨66, by decide⟩, [5], ⟨2⟩⟩

def newerRequest : Request := ⟨10, ⟨67, by decide⟩, [], ⟨3⟩⟩

/-- A request is released before its cell is used again, and another is detached. -/
def reusingCommands : List (StoreCommand Request) :=
  [.pushFront ⟨7, ⟨67, by decide⟩, [1, 2, 3], ⟨0⟩⟩, .insertDetached ⟨8, ⟨68, by decide⟩, [4], ⟨1⟩⟩,
    .release ⟨0, 0⟩, .pushFront olderRequest, .pushFront newerRequest]

/-- Two of four requests are left, one of them without arguments and one with a function in its
slot. -/
theorem readPending_in_any_memory_reused :
    ∃ image later first second,
      writePending (Slots.empty.write ⟨2⟩ ⟨70, by decide⟩)
        ((Store.empty.run reusingCommands).2.pending.map Prod.snd) 4096
        (Numbering.dense ⟨[⟨66, by decide⟩], by decide⟩) = (.ok image, later) ∧
      readPending ⟨4093, [1, 2, 3] ++ image.memory.data ++ [0xFF]⟩ image.head =
        .ok [first, second] ∧
      first.Describes newerRequest 4096 later ∧ second.Describes olderRequest 4136 later := by
  obtain ⟨image, later, hwrite⟩ : ∃ image later,
      writePending (Slots.empty.write ⟨2⟩ ⟨70, by decide⟩)
        ((Store.empty.run reusingCommands).2.pending.map Prod.snd) 4096
        (Numbering.dense ⟨[⟨66, by decide⟩], by decide⟩) = (.ok image, later) :=
    ⟨_, _, (writePending_eq _ _ _ _).trans rfl⟩
  obtain ⟨ledger, records, -, hpending, hread, hlength, hrecords⟩ :=
    readPending_in_any_memory reusingCommands _ 4096 4093 [1, 2, 3] [0xFF] _ later image rfl hwrite
  have hledger : ledger.pending = [(⟨2, 0⟩, newerRequest), (⟨0, 1⟩, olderRequest)] :=
    hpending.symm.trans rfl
  rw [hledger] at hlength hrecords
  obtain ⟨first, hfirst, hnewer⟩ := hrecords 0 _ _ rfl
  obtain ⟨second, hsecond, holder⟩ := hrecords 1 _ _ rfl
  obtain ⟨newer, older, rfl⟩ := List.length_eq_two.mp hlength
  cases hfirst
  cases hsecond
  exact ⟨image, later, first, second, hwrite, hread, hnewer, holder⟩

end Residual.Guest
