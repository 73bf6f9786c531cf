import Residual.Bytes.Scalar

/-!
# Records in guest memory

The fixed-size records that the program and the specializer exchange. Each is a sequence of 32-bit
words; `encode` and `decode` give its one layout.
-/

namespace Residual.Guest

/-- A pending request: a member of a doubly linked chain. -/
structure RequestRecord where
  next : UInt32
  prev : UInt32
  funcId : UInt32
  func : UInt32
  argBuffer : UInt32
  argLength : UInt32
  slot : UInt32
  deriving DecidableEq

namespace RequestRecord

/-- The bytes of a request record. -/
def size : Nat := 28

/-- Where the slot cell of a request is laid out, from the start of its record. -/
def slotOffset : Nat := 32

/-- Where the argument bytes of a request are laid out, from the start of its record. -/
def argOffset : Nat := 40

/-- The layout of a request record. -/
def encode (record : RequestRecord) : Bytes :=
  Bytes.words [record.next, record.prev, record.funcId, record.func, record.argBuffer,
    record.argLength, record.slot]

/-- The request record with a given layout. -/
def decode (bytes : Bytes) : RequestRecord :=
  ⟨bytes.wordAt 0, bytes.wordAt 4, bytes.wordAt 8, bytes.wordAt 12, bytes.wordAt 16,
    bytes.wordAt 20, bytes.wordAt 24⟩

end RequestRecord

/-- The start of a lookup table: where its entries are and how many. -/
structure LookupHeader where
  entries : UInt32
  count : UInt32
  deriving DecidableEq

namespace LookupHeader

/-- The bytes of a lookup header. -/
def size : Nat := 8

/-- The layout of a lookup header. -/
def encode (header : LookupHeader) : Bytes := Bytes.words [header.entries, header.count]

/-- The lookup header with a given layout. -/
def decode (bytes : Bytes) : LookupHeader := ⟨bytes.wordAt 0, bytes.wordAt 4⟩

end LookupHeader

/-- An entry of a lookup table. -/
structure LookupRecord where
  funcId : UInt32
  argBuffer : UInt32
  argLength : UInt32
  specialized : UInt32
  deriving DecidableEq

namespace LookupRecord

/-- The bytes of a lookup record. -/
def size : Nat := 16

/-- The layout of a lookup record. -/
def encode (record : LookupRecord) : Bytes :=
  Bytes.words [record.funcId, record.argBuffer, record.argLength, record.specialized]

/-- The lookup record with a given layout. -/
def decode (bytes : Bytes) : LookupRecord :=
  ⟨bytes.wordAt 0, bytes.wordAt 4, bytes.wordAt 8, bytes.wordAt 12⟩

end LookupRecord

end Residual.Guest
