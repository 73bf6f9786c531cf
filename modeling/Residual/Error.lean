import Residual.Argument.Kind
import Residual.Function.Ref

/-!
# Failures

Every failure is a cause with the facts that explain it. The wording of a cause is fixed in one
place, `Error.message`; no other part of the library composes failure texts.
-/

namespace Residual

/-- Why data that lies inside its bounds is still not what it claims to be. -/
inductive Malformation where
  /-- A flag word with bits other than the known one. -/
  | unknownFlags (flags : UInt32) (offset : Nat)
  /-- A flag word that contradicts the kind of the argument. -/
  | flagsContradictKind (kind : ArgKind) (specialized : Bool) (offset : Nat)
  /-- Value bytes that the kind does not use and that are not zero. -/
  | unusedValueBytes (offset : Nat)
  /-- A padded length that is not the length rounded up. -/
  | paddedLength (length padded : UInt32) (offset : Nat)
  /-- Bytes after an inline buffer that are not zero. -/
  | dirtyPadding (offset : Nat)
  /-- An image placed at the null address. -/
  | nullBase
  /-- An image that ends beyond the last 32-bit address. -/
  | addressSpace
  /-- A pending list whose image has no 64-bit size. -/
  | hostSpace
  /-- Argument bytes with a length that is no 32-bit number. -/
  | longArguments (length : Nat)
  /-- A lookup table with more entries than a 32-bit number counts. -/
  | longTable (count : Nat)
  /-- A function reference that is no 32-bit table index. -/
  | wideFunction (func : FuncRef)
  /-- More functions than there are 32-bit table indices. -/
  | functionTableFull
  /-- A pending chain that visits more records than the image can hold. -/
  | endlessChain (head : UInt32)
  /-- A record whose back link does not name its predecessor. -/
  | backLink (address back expected : UInt32)
  /-- A lookup entry without a function. -/
  | nullFunction (index : Nat)
  /-- A pending list that does not end. -/
  | pendingCycle
  /-- A pending list that reaches an empty cell. -/
  | freeCellLinked (index : Nat)
  /-- A pending list that reaches a detached request. -/
  | detachedLinked (index : Nat)
  /-- A pending request whose back link does not name its predecessor. -/
  | pendingBackLink (index : Nat) (back expected : Option Nat)
  /-- Three counts of the pending requests that should agree. -/
  | pendingCounts (reachable linked counted : Nat)
  deriving DecidableEq

/-- Why an operation was refused. -/
inductive Error where
  /-- An argument buffer would grow beyond its limit. -/
  | capacityExceeded (requested limit : Nat)
  /-- An argument buffer would need more memory than can exist. -/
  | allocationFailed
  /-- A request describes more or fewer arguments than its target takes. -/
  | arityMismatch (expected found : Nat)
  /-- An access leaves the data it is made to. -/
  | outOfBounds
  /-- Data is inside its bounds and still not well formed. -/
  | malformed (cause : Malformation)
  /-- An encoded argument has a tag that names no kind. -/
  | unknownKind (tag : UInt32)
  /-- A lookup table has an entry that is not strictly above its predecessor. -/
  | unsortedTable (index : Nat)
  /-- A lookup table has been installed before. -/
  | alreadySpecialized
  /-- An image file does not exist. -/
  | fileMissing
  /-- An image file cannot be mapped into memory. -/
  | fileNotMappable
  deriving DecidableEq

namespace Malformation

/-- An optional cell number in messages. -/
def cellText : Option Nat → String
  | none => "None"
  | some index => "Some(" ++ toString index ++ ")"

/-- The text of a malformation. -/
def message : Malformation → String
  | unknownFlags flags offset =>
    "Unknown flag bits " ++ Text.hex flags.toNat ++ " in descriptor at offset " ++ toString offset
  | flagsContradictKind kind specialized offset =>
    "Descriptor at offset " ++ toString offset ++ " has type " ++ kind.name ++ " but flags " ++
      flagText specialized
  | unusedValueBytes offset =>
    "Descriptor at offset " ++ toString offset ++ " has non-zero unused value bytes"
  | paddedLength length padded offset =>
    "Buffer at offset " ++ toString offset ++ " has length " ++ toString length.toNat ++
      " but padded length " ++ toString padded.toNat
  | dirtyPadding offset => "Buffer at offset " ++ toString offset ++ " has non-zero padding"
  | nullBase => "Image base address must be non-zero"
  | addressSpace => "Image exceeds the 32-bit address space"
  | hostSpace => "Pending list exceeds the address space"
  | longArguments length => "Argument buffer of " ++ toString length ++ " bytes"
  | longTable count => "Lookup table of " ++ toString count ++ " entries"
  | wideFunction func => "Function reference " ++ func.label ++ " does not fit a 32-bit table index"
  | functionTableFull => "Function table exceeds 32-bit indices"
  | endlessChain head => "Pending list starting at " ++ Text.hex head.toNat ++ " does not terminate"
  | backLink address back expected =>
    "Request at " ++ Text.hex address.toNat ++ " links back to " ++ Text.hex back.toNat ++
      ", expected " ++ Text.hex expected.toNat
  | nullFunction index => "Lookup entry " ++ toString index ++ " has a null specialized function"
  | pendingCycle => "Pending list contains a cycle"
  | freeCellLinked index => "Pending list links to free slot " ++ toString index
  | detachedLinked index => "Detached request " ++ toString index ++ " is linked"
  | pendingBackLink index back expected =>
    "Request " ++ toString index ++ " has prev " ++ cellText back ++ ", expected " ++
      cellText expected
  | pendingCounts reachable linked counted =>
    toString reachable ++ " requests reachable from head, " ++ toString linked ++ " linked, " ++
      toString counted ++ " counted"

end Malformation

namespace Error

/-- The text of a failure. -/
def message : Error → String
  | capacityExceeded requested limit =>
    "Argument buffer of " ++ toString requested ++ " bytes exceeds the limit of " ++
      toString limit ++ " bytes"
  | allocationFailed =>
    "Failed to grow argument buffer - memory allocation failed because the computed capacity " ++
      "exceeded the collection's maximum"
  | arityMismatch expected found =>
    "Target takes " ++ toString expected ++ " arguments, request describes " ++ toString found
  | outOfBounds => "Access out of bounds"
  | malformed cause => cause.message
  | unknownKind tag => "Unknown argument type tag - " ++ toString tag.toNat
  | unsortedTable index => "Lookup table is not strictly sorted at entry " ++ toString index
  | alreadySpecialized => "A lookup table has already been installed"
  | fileMissing => "No such file or directory (os error 2)"
  | fileNotMappable => "No such device (os error 19)"

/-- An access that either stays inside its data or is out of bounds. -/
def ofAccess {α : Type} : Option α → Except Error α
  | some value => .ok value
  | none => .error .outOfBounds

end Error

end Residual
