import Residual.Guest.PendingChain
import Residual.Proofs.Function.Numbering
import Residual.Proofs.Guest.Filling

/-!
# The layout of a pending chain

What the image of some requests holds, stated as a value and without reference to how it comes
about. Filling an image step by step gives this layout, and fails only where the layout has no place
in the address space or a function has no index.
-/

namespace Residual

namespace Guest

variable {Funcs : Type} [FuncTable Funcs]

/-- What is laid out for one pending request. -/
structure PendingItem where
  funcId : UInt32
  /-- The index of the generic function. -/
  func : UInt32
  /-- The index of the function in the request's slot, or zero. -/
  resolved : UInt32
  args : Bytes
  deriving DecidableEq

namespace PendingItem

/-- The bytes that a request takes: 40, and its arguments padded to a multiple of eight. -/
def size (item : PendingItem) : Nat := 40 + (item.args.length + 7) / 8 * 8

/-- The record that links an item into the chain. -/
def record (item : PendingItem) (address prev next : Nat) : RequestRecord :=
  { next := .ofNat next
    prev := .ofNat prev
    funcId := item.funcId
    func := item.func
    argBuffer := if item.args.isEmpty then 0 else .ofNat (address + RequestRecord.argOffset)
    argLength := .ofNat item.args.length
    slot := .ofNat (address + RequestRecord.slotOffset) }

/-- The layout of a request at an address of the chain. -/
def encode (item : PendingItem) (address prev next : Nat) : Bytes :=
  (item.record address prev next).encode ++ Bytes.zeros 4 ++
    (Bytes.word32 item.resolved ++ Bytes.zeros 4) ++ Bytes.padded item.args

theorem size_eq (item : PendingItem) :
    item.size = RequestRecord.argOffset + Bytes.roundUp item.args.length := rfl

theorem length_encode (item : PendingItem) (address prev next : Nat) :
    (item.encode address prev next).length = item.size := by
  simp only [encode, List.length_append, RequestRecord.length_encode, Bytes.length_zeros,
    Bytes.length_word32, Bytes.length_padded]
  rfl

end PendingItem

/-- The layout of a chain whose first request is at `address` and has `prev` before it. -/
def chain : (prev address : Nat) → List PendingItem → Bytes
  | _, _, [] => []
  | prev, address, item :: rest =>
    let behind := address + item.size
    item.encode address prev (if rest.isEmpty then 0 else behind) ++ chain address behind rest

/-- The bytes that the chain of some requests takes. -/
def chainSize (requests : List Request) : Nat :=
  requests.foldr (fun request total => 40 + (request.args.length + 7) / 8 * 8 + total) 0

/-- The functions that a request names: the generic function, and that of its slot if there is
one. -/
def requestFunctions (slots : Slots) (request : Request) : List FuncRef :=
  request.generic :: (slots.read request.slot).toList

/-- The functions that a chain names, in the order in which it names them. -/
def chainFunctions (slots : Slots) (requests : List Request) : List FuncRef :=
  requests.flatMap (requestFunctions slots)

/-- What is laid out for a request, given the indices of the functions that it names. -/
def pendingItem (request : Request) (numbers : List UInt32) : PendingItem :=
  ⟨request.funcId, numbers.getD 0 0, numbers.getD 1 0, request.args⟩

/-- What is laid out for some requests, given the indices of the functions that they name. -/
def pendingItems (slots : Slots) : List Request → List UInt32 → List PendingItem
  | [], _ => []
  | request :: rest, numbers =>
    let count := (requestFunctions slots request).length
    pendingItem request (numbers.take count) :: pendingItems slots rest (numbers.drop count)

/-- The requests of a chain with the offset of each, from `offset` on. -/
def chainOffsets : (offset : Nat) → List Request → List (Nat × Request)
  | _, [] => []
  | offset, request :: rest =>
    (offset, request) :: chainOffsets (offset + (40 + (request.args.length + 7) / 8 * 8)) rest

theorem chainSize_cons (request : Request) (rest : List Request) :
    chainSize (request :: rest) =
      RequestRecord.argOffset + Bytes.roundUp request.args.length + chainSize rest := rfl

theorem chainFunctions_cons (slots : Slots) (request : Request) (rest : List Request) :
    chainFunctions slots (request :: rest) =
      requestFunctions slots request ++ chainFunctions slots rest :=
  List.flatMap_cons

theorem chainOffsets_cons (offset : Nat) (request : Request) (rest : List Request) :
    chainOffsets offset (request :: rest) =
      (offset, request) ::
        chainOffsets (offset + (RequestRecord.argOffset + Bytes.roundUp request.args.length))
          rest := rfl

/-- The indices of a request come before those of the others. -/
theorem pendingItems_append {slots : Slots} {request : Request} {numbers : List UInt32}
    (hnumbers : numbers.length = (requestFunctions slots request).length) (rest : List Request)
    (others : List UInt32) :
    pendingItems slots (request :: rest) (numbers ++ others) =
      pendingItem request numbers :: pendingItems slots rest others := by
  rw [pendingItems, ← hnumbers, List.take_left, List.drop_left]

theorem isEmpty_pendingItems (slots : Slots) (requests : List Request) (numbers : List UInt32) :
    (pendingItems slots requests numbers).isEmpty = requests.isEmpty := by
  cases requests with
  | nil => rfl
  | cons request rest => rfl

/-- The offsets are sums of sizes, as long as the last of these has a 64-bit value. -/
theorem placeRequests_eq {offset : Nat} (hoffset : offset < 2 ^ 64) (requests : List Request) :
    placeRequests offset requests =
      if offset + chainSize requests < 2 ^ 64 then
        .ok (chainOffsets offset requests, offset + chainSize requests)
      else .error (.malformed .hostSpace) := by
  induction requests generalizing offset with
  | nil => exact (if_pos hoffset).symm
  | cons request rest ih =>
      rw [chainSize_cons, ← Nat.add_assoc]
      by_cases hbehind :
          offset + (RequestRecord.argOffset + Bytes.roundUp request.args.length) < 2 ^ 64
      · refine (if_pos hbehind).trans ?_
        rw [ih hbehind]
        by_cases htotal : offset + (RequestRecord.argOffset + Bytes.roundUp request.args.length) +
            chainSize rest < 2 ^ 64
        · rw [if_pos htotal, if_pos htotal]
          rfl
        · rw [if_neg htotal, if_neg htotal]
      · refine (if_neg hbehind).trans ?_
        rw [if_neg (by omega)]

/-- An empty slot needs no index. -/
theorem outcome_slotIndex (slots : Slots) (slot : SlotId) (funcs : Funcs) :
    (slotIndex slots slot).outcome funcs =
      match FuncTable.assignAll funcs (slots.read slot).toList with
      | (.error error, later) => (.error error, later)
      | (.ok numbers, later) => (.ok (numbers.getD 0 0), later) := by
  unfold slotIndex
  cases slots.read slot with
  | none => rfl
  | some func =>
      change FuncTable.assign funcs func = _
      rw [Option.toList_some, FuncTable.assignAll]
      rcases FuncTable.assign funcs func with ⟨error | number, later⟩
      · rfl
      · rfl

/-- The words of a request and its arguments, with a gap behind the record and another behind the
cell of its slot, are what is laid out for it. -/
theorem encode_eq_fields (item : PendingItem) (address prev next : Nat) (before after : Bytes) :
    before ++ Bytes.zeros 0 ++ Bytes.words [.ofNat next, .ofNat prev, item.funcId] ++
        Bytes.zeros 0 ++ Bytes.words [item.func,
          if item.args.isEmpty then 0 else .ofNat (address + RequestRecord.argOffset),
          .ofNat item.args.length, .ofNat (address + RequestRecord.slotOffset)] ++
        Bytes.zeros 4 ++ Bytes.words [item.resolved] ++ Bytes.zeros 4 ++ item.args ++
        (Bytes.zeros (Bytes.roundUp item.args.length - item.args.length) ++ after) =
      before ++ (item.encode address prev next ++ after) := by
  simp only [PendingItem.encode, RequestRecord.encode, PendingItem.record, Bytes.padded,
    Bytes.words, List.flatMap_cons, List.flatMap_nil, List.append_assoc, List.append_nil]
  rfl

/-- A request that ends within the address space is filled in unless a function of it has no
index. -/
theorem outcome_fillRequest {slots : Slots} {base : UInt32} {prev next start : Nat}
    {request : Request} {funcs : Funcs} {before after : Bytes} (hstart : before.length = start)
    (hspace : base.toNat + start +
      (RequestRecord.argOffset + Bytes.roundUp request.args.length) < 2 ^ 32) :
    (fillRequest slots base (.ofNat prev) (.ofNat next) start request
      (before ++ (Bytes.zeros (RequestRecord.argOffset + Bytes.roundUp request.args.length) ++
        after))).outcome funcs =
      match FuncTable.assignAll funcs (requestFunctions slots request) with
      | (.error error, later) => (.error error, later)
      | (.ok numbers, later) =>
        (.ok (before ++ ((pendingItem request numbers).encode (base.toNat + start) prev next ++
          after)), later) := by
  have hround := Bytes.le_roundUp request.args.length
  simp only [RequestRecord.argOffset, Nat.add_assoc] at hspace
  have hslot : addressAt base (start + RequestRecord.slotOffset) = _ :=
    addressAt_of_lt (by simp only [RequestRecord.slotOffset]; omega)
  have hpointer : argPointer base request.args (start + RequestRecord.argOffset) = _ :=
    argPointer_of_lt (by simp only [RequestRecord.argOffset]; omega)
  have hlength : argLength request.args = _ := argLength_of_lt (by omega)
  simp only [fillRequest, InPlace.outcome_bind, InPlace.outcome_lift, outcome_indexOf,
    outcome_slotIndex, hslot, hpointer, hlength]
  rw [writeWords_zeros 0 (28 + Bytes.roundUp request.args.length) hstart (by
    simp only [RequestRecord.argOffset, List.length_cons, List.length_nil]; omega)]
  dsimp only
  rw [requestFunctions, FuncTable.assignAll]
  rcases FuncTable.assign funcs request.generic with ⟨error | func, middle⟩
  · rfl
  · dsimp only
    rw [writeWords_zeros 0 (12 + Bytes.roundUp request.args.length) (by
      simp only [List.length_append, Bytes.length_zeros, Bytes.length_words, hstart,
        Nat.add_zero]) (by simp only [List.length_cons, List.length_nil]; omega)]
    dsimp only
    rcases FuncTable.assignAll middle (slots.read request.slot).toList with
      ⟨error | numbers, later⟩
    · rfl
    · dsimp only
      rw [writeWords_zeros 4 (4 + Bytes.roundUp request.args.length) (by
        simp only [List.length_append, Bytes.length_zeros, Bytes.length_words, hstart]
        rfl) (by simp only [List.length_cons, List.length_nil]; omega)]
      dsimp only
      rw [copyAt_zeros 4 (Bytes.roundUp request.args.length - request.args.length) (by
        simp only [List.length_append, Bytes.length_zeros, Bytes.length_words, hstart]
        rfl) (by omega)]
      rw [← encode_eq_fields, Nat.add_assoc, Nat.add_assoc]
      rfl

theorem firstAddress_chainOffsets {base : UInt32} {offset : Nat}
    (hspace : base.toNat + offset < 2 ^ 32) (requests : List Request) :
    firstAddress base (chainOffsets offset requests) =
      .ok (.ofNat (if requests.isEmpty then 0 else base.toNat + offset)) := by
  cases requests with
  | nil => rfl
  | cons request rest => exact addressAt_of_lt hspace

/-- A chain that ends within the address space is filled in unless a function has no index. -/
theorem outcome_fillChain {slots : Slots} {base : UInt32} {prev : Nat} {requests : List Request}
    {funcs : Funcs} {before : Bytes}
    (hspace : base.toNat + before.length + chainSize requests < 2 ^ 32) :
    (fillChain slots base (.ofNat prev) (chainOffsets before.length requests)
      (before ++ Bytes.zeros (chainSize requests))).outcome funcs =
      match FuncTable.assignAll funcs (chainFunctions slots requests) with
      | (.error error, later) => (.error error, later)
      | (.ok numbers, later) =>
        (.ok (before ++ chain prev (base.toNat + before.length)
          (pendingItems slots requests numbers)), later) := by
  -- What is filled already grows by one request at a time, and so do the indices given out.
  induction requests generalizing prev funcs before with
  | nil => rfl
  | cons request rest ih =>
      rw [chainSize_cons] at hspace
      have haddress : addressAt base before.length = _ := addressAt_of_lt (by omega)
      have hnext : firstAddress base (chainOffsets (before.length +
          (RequestRecord.argOffset + Bytes.roundUp request.args.length)) rest) = _ :=
        firstAddress_chainOffsets (by omega) rest
      rw [chainOffsets_cons, fillChain, chainSize_cons, Bytes.zeros_add]
      simp only [InPlace.outcome_bind, InPlace.outcome_lift, haddress, hnext]
      rw [outcome_fillRequest rfl (by omega), chainFunctions_cons, FuncTable.assignAll_append]
      rcases hrequest : FuncTable.assignAll funcs (requestFunctions slots request)
        with ⟨error | numbers, middle⟩
      · rfl
      · dsimp only
        have hnumbers := FuncTable.length_of_assignAll hrequest
        have hbehind : (before ++ (pendingItem request numbers).encode
            (base.toNat + before.length) prev (if rest.isEmpty then 0 else base.toNat +
              (before.length +
                (RequestRecord.argOffset + Bytes.roundUp request.args.length)))).length =
            before.length + (RequestRecord.argOffset + Bytes.roundUp request.args.length) := by
          rw [List.length_append, PendingItem.length_encode]
          rfl
        have hrest := @ih (base.toNat + before.length) middle _ (by rw [hbehind]; omega)
        rw [hbehind, List.append_assoc] at hrest
        rw [hrest]
        rcases FuncTable.assignAll middle (chainFunctions slots rest) with ⟨error | others, later⟩
        · rfl
        · dsimp only
          rw [pendingItems_append hnumbers, chain, isEmpty_pendingItems, List.append_assoc,
            Nat.add_assoc base.toNat before.length]
          rfl

/-- Writing a chain gives its layout, or fails where the layout has no place or a function has no
index. -/
theorem writePending_eq (slots : Slots) (requests : List Request) (base : UInt32) (funcs : Funcs) :
    writePending slots requests base funcs =
      if base = 0 then (.error (.malformed .nullBase), funcs)
      else if 2 ^ 64 ≤ chainSize requests then (.error (.malformed .hostSpace), funcs)
      else if 2 ^ 32 ≤ base.toNat + chainSize requests then
        (.error (.malformed .addressSpace), funcs)
      else
        ((FuncTable.assignAll funcs (chainFunctions slots requests)).1.map fun numbers =>
            ⟨⟨base, chain 0 base.toNat (pendingItems slots requests numbers)⟩,
              if requests.isEmpty then 0 else base⟩,
          (FuncTable.assignAll funcs (chainFunctions slots requests)).2) := by
  rw [writePending, fillPending]
  by_cases hbase : base = 0
  · rw [if_pos hbase, if_pos hbase]
    rfl
  · rw [if_neg hbase, if_neg hbase]
    simp only [InPlace.outcome_bind, InPlace.outcome_lift, Nat.zero_add,
      @placeRequests_eq 0 (by decide) requests]
    by_cases hhost : chainSize requests < 2 ^ 64
    · rw [if_pos hhost, if_neg (Nat.not_le.mpr hhost)]
      dsimp only
      by_cases hspace : base.toNat + chainSize requests < 2 ^ 32
      · have hfill : (fillChain slots base 0 (chainOffsets 0 requests)
            (Bytes.zeros (chainSize requests))).outcome funcs = _ :=
          @outcome_fillChain Funcs _ slots base 0 requests funcs [] hspace
        rw [if_neg (Nat.not_le.mpr hspace), addressAt_of_lt hspace]
        dsimp only
        rw [hfill]
        rcases FuncTable.assignAll funcs (chainFunctions slots requests) with
          ⟨error | numbers, later⟩
        · rfl
        · rfl
      · rw [if_pos (Nat.not_lt.mp hspace), addressAt_of_not_lt hspace]
    · rw [if_neg hhost, if_pos (Nat.not_lt.mp hhost)]

end Guest

end Residual
