import Residual.Error
import Residual.Store.Handle

/-!
# Events

What is reported while requests are built, stored and resolved, and while host intrinsics run. An
event is recorded as a fact; its level and its text are derived from it.
-/

namespace Residual

/-- How prominently an event is reported. -/
inductive Level where
  | trace
  | debug
  | warn
  deriving DecidableEq

/-- The name of a level in reports. -/
def Level.name : Level → String
  | trace => "TRACE"
  | debug => "DEBUG"
  | warn => "WARN"

/-- A reported fact. -/
inductive Event where
  /-- An argument is about to be written at an offset of its buffer. -/
  | encoding (kind : ArgKind) (offset : Nat)
  /-- A request could not be built. -/
  | notBuilt (funcId : UInt32) (error : Error)
  /-- A request joined the pending list. -/
  | queued (handle : Handle) (funcId : UInt32) (argBytes : Nat)
  /-- A request was released by its owner. -/
  | released (handle : Handle) (funcId : UInt32)
  /-- A request found its specialized function. -/
  | resolved (funcId : UInt32) (func : FuncRef)
  /-- A request has no specialized function. -/
  | missed (funcId : UInt32)
  /-- A lookup table is installed. -/
  | installing (entries : Nat)
  /-- An interpreter reached a line. -/
  | tracedLine (line : UInt32)
  /-- An interpreter gave up specialization at a line. -/
  | aborted (line : UInt32) (fatal : Bool)
  /-- An interpreter printed a message. -/
  | printed (text : String) (line value : UInt32)
  deriving DecidableEq

namespace Event

/-- The level of an event. -/
def level : Event → Level
  | encoding .. | tracedLine _ => .trace
  | notBuilt .. => .warn
  | aborted _ fatal => if fatal then .warn else .debug
  | queued .. | released .. | resolved .. | missed _ | installing _ | printed .. => .debug

/-- The text of an event. -/
def text : Event → String
  | encoding kind offset => "encoding " ++ kind.name ++ " at offset " ++ toString offset
  | notBuilt funcId error =>
    "request for function " ++ toString funcId.toNat ++ " not built: " ++ error.message
  | queued handle funcId argBytes =>
    "queued request " ++ handle.label ++ " for function " ++ toString funcId.toNat ++ " (" ++
      toString argBytes ++ " argument bytes)"
  | released handle funcId =>
    "released request " ++ handle.label ++ " for function " ++ toString funcId.toNat
  | resolved funcId func => "resolved function " ++ toString funcId.toNat ++ " to " ++ func.label
  | missed funcId => "no specialization for function " ++ toString funcId.toNat
  | installing entries => "installing lookup table with " ++ toString entries ++ " entries"
  | tracedLine line => "trace line " ++ toString line.toNat
  | aborted line _ => "specialization aborted at line " ++ toString line.toNat
  | printed text line value =>
    text ++ " (line " ++ toString line.toNat ++ "): " ++ Text.hex value.toNat

/-- The report of an event: its level and its text. -/
def report (event : Event) : String := event.level.name ++ " " ++ event.text

end Event

end Residual
