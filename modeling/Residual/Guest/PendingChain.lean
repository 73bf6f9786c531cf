import Residual.Guest.Filling
import Residual.Guest.Record
import Residual.Request.Basic

/-!
# The pending chain in guest memory

Pending requests are written as a doubly linked chain. A request takes its record, padded to 32
bytes, the cell of its slot, padded to eight, and its argument bytes, padded to a multiple of eight.
Reading follows the chain in any memory and checks every link back.
-/

namespace Residual.Guest

variable {Funcs : Type} [FuncTable Funcs]

/-- A pending request found in guest memory. -/
structure PendingRecord where
  address : UInt32
  funcId : UInt32
  func : UInt32
  args : Bytes
  slot : UInt32
  deriving DecidableEq

/-- A chain of pending requests in memory, and the address of the first. -/
structure PendingImage where
  memory : Memory
  head : UInt32
  deriving DecidableEq

/-- The requests of a chain with the offset of each, from `offset` on, and the offset behind them
all. -/
def placeRequests : (offset : Nat) → List Request → Except Error (List (Nat × Request) × Nat)
  | offset, [] => .ok ([], offset)
  | offset, request :: rest =>
    let behind := offset + (RequestRecord.argOffset + Bytes.roundUp request.args.length)
    if behind < 0x10000000000000000 then
      match placeRequests behind rest with
      | .error error => .error error
      | .ok (placed, size) => .ok ((offset, request) :: placed, size)
    else .error (.malformed .hostSpace)

/-- The index of the function in a slot; zero for an empty one. -/
def slotIndex (slots : Slots) (slot : SlotId) : InPlace Funcs UInt32 :=
  match slots.read slot with
  | some func => indexOf func
  | none => pure 0

/-- Fills in a request whose neighbours in the chain are known: its record, the cell of its slot,
its arguments. -/
def fillRequest (slots : Slots) (base prev next : UInt32) (start : Nat) (request : Request)
    (image : Bytes) : InPlace Funcs Bytes := do
  let slot ← addressAt base (start + RequestRecord.slotOffset)
  let argBuffer ← argPointer base request.args (start + RequestRecord.argOffset)
  let argLength ← argLength request.args
  let (image, offset) ← writeWords image start [next, prev, request.funcId]
  let func ← indexOf request.generic
  let (image, _) ← writeWords image offset [func, argBuffer, argLength, slot]
  let resolved ← slotIndex slots request.slot
  let (image, _) ← writeWords image (start + RequestRecord.slotOffset) [resolved]
  copyAt image (start + RequestRecord.argOffset) request.args

/-- The address of the first of some requests; null if there is none. -/
def firstAddress (base : UInt32) : List (Nat × Request) → Except Error UInt32
  | [] => .ok 0
  | (start, _) :: _ => addressAt base start

/-- Fills in the requests of a chain behind the one at `prev`. -/
def fillChain (slots : Slots) (base : UInt32) :
    (prev : UInt32) → List (Nat × Request) → (image : Bytes) → InPlace Funcs Bytes
  | _, [], image => pure image
  | prev, (start, request) :: rest, image => do
    let address ← addressAt base start
    let next ← firstAddress base rest
    let image ← fillRequest slots base prev next start request image
    fillChain slots base address rest image

/-- Fills an image of some requests at `base`. Once the image is known to end within the address
space, it is made and filled. -/
def fillPending (slots : Slots) (requests : List Request) (base : UInt32) :
    InPlace Funcs PendingImage := do
  if base = 0 then throw (.malformed .nullBase)
  let (placed, size) ← placeRequests 0 requests
  let _ ← addressAt base size
  let data ← fillChain slots base 0 placed (Bytes.zeros size)
  pure ⟨⟨base, data⟩, if requests.isEmpty then 0 else base⟩

/-- The chain of some requests at `base`, and the function table that was asked for their
functions. -/
def writePending (slots : Slots) (requests : List Request) (base : UInt32) (funcs : Funcs) :
    Except Error PendingImage × Funcs :=
  (fillPending slots requests base).outcome funcs

/-- The rest of the chain that started at `head`, from `address` on, after the record at `prev`. At
most `count` more records are visited. -/
def follow (memory : Memory) (head : UInt32) :
    (count : Nat) → (prev address : UInt32) → Except Error (List PendingRecord)
  | 0, _, address => if address = 0 then .ok [] else .error (.malformed (.endlessChain head))
  | count + 1, prev, address =>
    if address = 0 then .ok []
    else
      match memory.slice address.toNat RequestRecord.size with
      | .error error => .error error
      | .ok bytes =>
        let record := RequestRecord.decode bytes
        if record.prev ≠ prev then .error (.malformed (.backLink address record.prev prev))
        else
          match memory.region record.argBuffer record.argLength with
          | .error error => .error error
          | .ok args =>
            match follow memory head count address record.next with
            | .error error => .error error
            | .ok rest => .ok (⟨address, record.funcId, record.func, args, record.slot⟩ :: rest)

/-- The pending requests of the chain that starts at `head`. Records that do not overlap are no more
than fit into the memory, so a longer walk is in a cycle. -/
def readPending (memory : Memory) (head : UInt32) : Except Error (List PendingRecord) :=
  follow memory head (memory.data.length / RequestRecord.size + 1) 0 head

end Residual.Guest
