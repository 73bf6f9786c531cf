/-!
# Reading bytes as text

Bytes are read as UTF-8, one byte at a time. Bytes that cannot stand where they are are replaced: a
sequence that breaks off becomes one replacement character, and reading goes on with the byte that
broke it.
-/

namespace Residual.Text

/-- The character that stands for what cannot be read. -/
def replacement : Char := Char.ofNat 0xFFFD

/-- The start of a character: its bits so far, the continuation bytes it still needs, and the least
and the greatest value of the next of them. -/
structure PartialChar where
  bits : Nat
  needed : Nat
  low : UInt8
  high : UInt8
  deriving DecidableEq

/-- What a byte makes of the text before it: a whole character or a longer start of one. -/
inductive CharStep where
  | whole (char : Char)
  | part (start : PartialChar)
  deriving DecidableEq

/-- The first byte of a character. The range of the next byte excludes overlong forms, surrogates
and values beyond the last code point. -/
def firstByte (byte : UInt8) : CharStep :=
  let value := byte.toNat
  if byte < 0x80 then .whole (Char.ofNat value)
  else if 0xC2 ≤ byte ∧ byte ≤ 0xDF then .part ⟨value % 32, 1, 0x80, 0xBF⟩
  else if byte = 0xE0 then .part ⟨value % 16, 2, 0xA0, 0xBF⟩
  else if byte = 0xED then .part ⟨value % 16, 2, 0x80, 0x9F⟩
  else if 0xE1 ≤ byte ∧ byte ≤ 0xEF then .part ⟨value % 16, 2, 0x80, 0xBF⟩
  else if byte = 0xF0 then .part ⟨value % 8, 3, 0x90, 0xBF⟩
  else if 0xF1 ≤ byte ∧ byte ≤ 0xF3 then .part ⟨value % 8, 3, 0x80, 0xBF⟩
  else if byte = 0xF4 then .part ⟨value % 8, 3, 0x80, 0x8F⟩
  else .whole replacement

/-- A continuation byte in range. -/
def nextByte (start : PartialChar) (byte : UInt8) : CharStep :=
  let bits := start.bits * 64 + byte.toNat % 64
  if start.needed ≤ 1 then .whole (Char.ofNat bits) else .part ⟨bits, start.needed - 1, 0x80, 0xBF⟩

/-- The characters of some bytes after an optional start of a character. -/
def readFrom : Option PartialChar → List UInt8 → List Char
  | none, [] => []
  | some _, [] => [replacement]
  | none, byte :: rest =>
    match firstByte byte with
    | .whole char => char :: readFrom none rest
    | .part start => readFrom (some start) rest
  | some start, byte :: rest =>
    if start.low ≤ byte ∧ byte ≤ start.high then
      match nextByte start byte with
      | .whole char => char :: readFrom none rest
      | .part start => readFrom (some start) rest
    else
      match firstByte byte with
      | .whole char => replacement :: char :: readFrom none rest
      | .part start => replacement :: readFrom (some start) rest

/-- The text of some bytes. -/
def ofBytes (bytes : List UInt8) : String := String.ofList (readFrom none bytes)

end Residual.Text
