import Residual.Guest.Filling
import Residual.Guest.Record
import Residual.Lookup.Table

/-!
# The lookup table in guest memory

A lookup table is written as a header, an array of entry records and the argument bytes of the
entries, each padded to a multiple of eight. Reading accepts strictly sorted tables only.
-/

namespace Residual.Guest

variable {Funcs : Type} [FuncTable Funcs]

/-- The entries of a table with the offset of each one's argument bytes, from `offset` on, and the
offset behind them all. -/
def placeEntries : (offset : Nat) → List Entry → List (Nat × Entry) × Nat
  | offset, [] => ([], offset)
  | offset, entry :: rest =>
    let (placed, size) := placeEntries (offset + Bytes.roundUp entry.args.length) rest
    ((offset, entry) :: placed, size)

/-- The number of some entries as a word. -/
def entryCount (entries : List Entry) : Except Error UInt32 :=
  if entries.length < 0x100000000 then .ok (.ofNat entries.length)
  else .error (.malformed (.longTable entries.length))

/-- The pointer to the records of some entries, which are behind the header; null if there are
none. -/
def arrayPointer (base : UInt32) (entries : List Entry) : Except Error UInt32 :=
  if entries.isEmpty then .ok 0 else addressAt base LookupHeader.size

/-- Fills in the records of some entries from `offset` on, and the argument bytes of each where they
were placed. -/
def fillEntries (base : UInt32) :
    List (Nat × Entry) → (offset : Nat) → (image : Bytes) → InPlace Funcs Bytes
  | [], _, image => pure image
  | (data, entry) :: rest, offset, image => do
    let argBuffer ← argPointer base entry.args data
    let argLength ← argLength entry.args
    let (image, offset) ← writeWords image offset [entry.funcId, argBuffer, argLength]
    let func ← indexOf entry.specialized
    let (image, offset) ← writeWords image offset [func]
    let image ← copyAt image data entry.args
    fillEntries base rest offset image

/-- Fills an image of some entries at `base`, which is also the address of the header. Once the
image is known to end within the address space, it is made and filled. -/
def fillTable (entries : List Entry) (base : UInt32) : InPlace Funcs Memory := do
  let (placed, size) :=
    placeEntries (LookupHeader.size + LookupRecord.size * entries.length) entries
  let _ ← addressAt base size
  let count ← entryCount entries
  let array ← arrayPointer base entries
  let (image, offset) ← writeWords (Bytes.zeros size) 0 [array, count]
  let data ← fillEntries base placed offset image
  pure ⟨base, data⟩

/-- The image of a lookup table at `base`, and the function table that was asked for its
functions. -/
def writeTable (table : Table) (base : UInt32) (funcs : Funcs) : Except Error Memory × Funcs :=
  (fillTable table.entries.toList base).outcome funcs

/-- The entries whose records are the next `count` of an array, numbered from `index` on. -/
def readEntries (memory : Memory) :
    (count index : Nat) → (array : Bytes) → Except Error (List Entry)
  | 0, _, _ => .ok []
  | count + 1, index, array =>
    let record := LookupRecord.decode (array.take LookupRecord.size)
    match FuncRef.ofRaw? record.specialized.toUInt64 with
    | none => .error (.malformed (.nullFunction index))
    | some specialized =>
      match memory.region record.argBuffer record.argLength with
      | .error error => .error error
      | .ok args =>
        match readEntries memory count (index + 1) (array.drop LookupRecord.size) with
        | .error error => .error error
        | .ok rest => .ok (⟨record.funcId, args, specialized⟩ :: rest)

/-- The lookup table whose header is at `address`; the functions in it are the indices found. The
whole array must lie in the memory before any entry is looked at. -/
def readTable (memory : Memory) (address : UInt32) : Except Error Table :=
  match memory.slice address.toNat LookupHeader.size with
  | .error error => .error error
  | .ok bytes =>
    let header := LookupHeader.decode bytes
    let size := LookupRecord.size * header.count.toNat
    if header.count = 0 then .ok .empty
    else if 0x100000000 ≤ size then .error .outOfBounds
    else
      match memory.slice header.entries.toNat size with
      | .error error => .error error
      | .ok array =>
        match readEntries memory header.count.toNat 0 array with
        | .error error => .error error
        | .ok entries => Table.ofSorted entries

/-- The table with every index replaced by the function that a dense numbering gave it to. -/
def restoreFunctions (index : FuncIndex) (table : Table) : Except Error Table :=
  let restored := table.entries.toList.mapM fun entry =>
    (index.get? entry.specialized.raw.toUInt32).map fun func => { entry with specialized := func }
  match restored with
  | some entries => .ok (Table.ofUnchecked entries)
  | none => .error .outOfBounds

end Residual.Guest
