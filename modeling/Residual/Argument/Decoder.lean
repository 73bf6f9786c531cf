import Residual.Argument.Descriptor
import Residual.Bytes.Cursor

/-!
# Decoding argument buffers

A decoder hands out the descriptors of an encoded buffer one at a time. It is strict: it accepts
canonical encodings only. After its first failure, or at the end of the buffer, it hands out nothing
more.
-/

namespace Residual

namespace Descriptor

/-- A memory region of `length` bytes, stored in `padded` bytes at the cursor. -/
def readBuffer (offset : Nat) (length padded : UInt32) (cursor : Cursor) :
    Except Error (Descriptor × Cursor) :=
  if padded ≠ paddedLength length ∨ padded < length then
    .error (.malformed (.paddedLength length padded offset))
  else
    match cursor.bytes padded.toNat with
    | .error error => .error error
    | .ok (region, cursor) =>
      if (region.drop length.toNat).all (· == 0) then
        .ok (.buffer (region.take length.toNat), cursor)
      else .error (.malformed (.dirtyPadding offset))

/-- The descriptor of a known kind whose value bytes are the words `low` and `high`, with the cursor
behind them. -/
def readValue (offset : Nat) (kind : ArgKind) (low high : UInt32) (cursor : Cursor) :
    Except Error (Descriptor × Cursor) :=
  match kind with
  | .i32 =>
    if high = 0 then .ok (.i32 low, cursor) else .error (.malformed (.unusedValueBytes offset))
  | .f32 =>
    if high = 0 then .ok (.f32 low, cursor) else .error (.malformed (.unusedValueBytes offset))
  | .runtime =>
    if high = 0 ∧ low = 0 then .ok (.runtime, cursor)
    else .error (.malformed (.unusedValueBytes offset))
  | .i64 => .ok (.i64 (.ofNat (low.toNat + 0x100000000 * high.toNat)), cursor)
  | .f64 => .ok (.f64 (.ofNat (low.toNat + 0x100000000 * high.toNat)), cursor)
  | .buffer => readBuffer offset low high cursor

/-- The kind of argument that a flag word and a tag announce together. An unknown tag is reported
before an unknown flag, and an unknown flag before a flag that contradicts the kind. -/
def readKind (offset : Nat) (flags tag : UInt32) : Except Error ArgKind :=
  match ArgKind.ofTag? tag with
  | none => .error (.unknownKind tag)
  | some kind =>
    if flags ≠ flagWord false ∧ flags ≠ flagWord true then
      .error (.malformed (.unknownFlags flags offset))
    else if flags ≠ flagWord kind.isSpecialized then
      .error (.malformed (.flagsContradictKind kind (!kind.isSpecialized) offset))
    else .ok kind

/-- The descriptor whose record starts at the cursor, and the cursor behind it. -/
def read (cursor : Cursor) : Except Error (Descriptor × Cursor) := do
  let (flags, afterFlags) ← cursor.word32
  let (tag, afterTag) ← afterFlags.word32
  let kind ← readKind cursor.position flags tag
  let (low, afterLow) ← afterTag.word32
  let (high, afterHigh) ← afterLow.word32
  readValue cursor.position kind low high afterHigh

end Descriptor

/-- A decoder part way through a buffer. -/
structure Decoder where
  cursor : Cursor
  failed : Bool
  deriving DecidableEq

namespace Decoder

/-- The decoder at the start of an encoded buffer. -/
def start (data : Bytes) : Decoder := ⟨.start data, false⟩

/-- The next descriptor or the failure to read it, if there is anything left, and the decoder behind
it. -/
def next (decoder : Decoder) : Option (Except Error Descriptor) × Decoder :=
  if decoder.failed || !decoder.cursor.hasMore then (none, decoder)
  else
    match Descriptor.read decoder.cursor with
    | .ok (descriptor, cursor) => (some (.ok descriptor), ⟨cursor, false⟩)
    | .error error => (some (.error error), { decoder with failed := true })

/-- The decoder after `count` steps. -/
def skip : (count : Nat) → Decoder → Decoder
  | 0, decoder => decoder
  | count + 1, decoder => skip count decoder.next.2

/-- What the decoder hands out in at most `count` steps. -/
def items : (count : Nat) → Decoder → List (Except Error Descriptor)
  | 0, _ => []
  | count + 1, decoder =>
    match decoder.next with
    | (none, _) => []
    | (some item, decoder) => item :: items count decoder

end Decoder

/-- Everything that decoding `data` hands out. Each descriptor takes at least one byte, so a step
per byte is enough. -/
def decodeItems (data : Bytes) : List (Except Error Descriptor) :=
  (Decoder.start data).items data.length

/-- The descriptors that `data` encodes, or the first failure. -/
def decodeAll (data : Bytes) : Except Error (List Descriptor) := (decodeItems data).mapM id

end Residual
