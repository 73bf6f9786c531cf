import Residual.Bytes.Basic
import Residual.Event
import Residual.Text.Utf8

/-!
# Intrinsics on the host

An interpreter annotates itself with intrinsics for the specializer. When nothing specializes it,
contexts and assertions do nothing, values are passed through, registers and globals are remembered,
stack and local accesses go to the memory cell they name, and debugging calls report.
-/

namespace Residual

/-- A call of an intrinsic. Cells are numbered. -/
inductive Intrinsic where
  | pushContext (pc : UInt32)
  | popContext
  | updateContext (pc : UInt32)
  | contextBucket (bucket : UInt32)
  | readRegister (index : UInt64)
  | writeRegister (index value : UInt64)
  | specializeValue (value low high : UInt32)
  | readGlobal (index : UInt64)
  | writeGlobal (index value : UInt64)
  | readSpecializationGlobal (index : UInt32)
  | traceLine (line : UInt32)
  | abortSpecialization (line : UInt32) (fatal : Bool)
  | assertConst (value line : UInt32)
  | assertSpecialized (line : UInt32)
  | reachableAtDepth (depth : UInt32)
  | print (message : Bytes) (line value : UInt32)
  | pushStack (cell : Nat) (value : UInt64)
  | syncStack
  | readStack (depth : UInt32) (cell : Nat)
  | writeStack (depth : UInt32) (cell : Nat) (value : UInt64)
  | popStack (cell : Nat)
  | readLocal (index : UInt32) (cell : Nat)
  | writeLocal (index : UInt32) (cell : Nat) (value : UInt64)
  deriving DecidableEq

/-- What intrinsics can see of the host. Registers and globals are zero until they are written. -/
structure Host where
  registers : UInt64 → UInt64
  globals : UInt64 → UInt64
  cells : List UInt64
  /-- What has been reported, oldest first. -/
  log : List Event

namespace Host

/-- A host with `count` memory cells, all zero. -/
def start (count : Nat) : Host := ⟨fun _ => 0, fun _ => 0, List.replicate count 0, []⟩

/-- The value of a memory cell. -/
def readCell (host : Host) (cell : Nat) : UInt64 := host.cells.getD cell 0

/-- The host with another value in a memory cell. -/
def writeCell (host : Host) (cell : Nat) (value : UInt64) : Host :=
  { host with cells := host.cells.set cell value }

/-- The host after an event was reported. -/
def record (host : Host) (event : Event) : Host := { host with log := host.log ++ [event] }

/-- Runs an intrinsic: the value it returns, if it returns one, and the host afterwards. -/
def run (host : Host) : Intrinsic → Option UInt64 × Host
  | .pushContext _ | .popContext | .updateContext _ | .contextBucket _ => (none, host)
  | .assertConst _ _ | .assertSpecialized _ | .reachableAtDepth _ | .syncStack => (none, host)
  | .readRegister index => (some (host.registers index), host)
  | .writeRegister index value =>
    (none, { host with
      registers := fun other => if other = index then value else host.registers other })
  | .specializeValue value _ _ => (some value.toUInt64, host)
  | .readGlobal index => (some (host.globals index), host)
  | .writeGlobal index value =>
    (none, { host with
      globals := fun other => if other = index then value else host.globals other })
  | .readSpecializationGlobal index => (some (host.globals index.toUInt64), host)
  | .traceLine line => (none, host.record (.tracedLine line))
  | .abortSpecialization line fatal => (none, host.record (.aborted line fatal))
  | .print message line value => (none, host.record (.printed (Text.ofBytes message) line value))
  | .pushStack cell value => (none, host.writeCell cell value)
  | .readStack _ cell => (some (host.readCell cell), host)
  | .writeStack _ cell value => (none, host.writeCell cell value)
  | .popStack cell => (some (host.readCell cell), host)
  | .readLocal _ cell => (some (host.readCell cell), host)
  | .writeLocal _ cell value => (none, host.writeCell cell value)

end Host

end Residual
