import Residual.Guest.LookupArray
import Residual.Guest.PendingChain
import Residual.Session.Basic

/-!
# Two runs of a program

The whole protocol. The first run collects the requests of its call sites and leaves them in a
memory image. Whoever specializes reads the image, chooses some requests, and leaves a lookup table.
The second run starts with that table installed.
-/

namespace Residual.TwoRun

/-- A call with its operands. -/
structure Call where
  site : CallSite
  operands : List Operand
  deriving DecidableEq

/-- A session after the requests of some calls. -/
def requestAll : Session → List Call → Except Error Session
  | session, [] => .ok session
  | session, call :: rest =>
    match session.request call.site call.operands with
    | (.error error, _) => .error error
    | (.ok _, session) => requestAll session rest

/-- The pending requests of a session laid out at `base`, with the numbering of their functions. -/
def snapshot (session : Session) (base : UInt32) (index : FuncIndex) :
    Except Error Guest.PendingImage × FuncIndex :=
  Guest.writePending session.slots session.pending base index

/-- The entries for the records that were given a function. -/
def chosenEntries (records : List Guest.PendingRecord) (choices : List (Option FuncRef)) :
    List Entry :=
  (records.zip choices).filterMap fun (record, choice) =>
    choice.map fun func => ⟨record.funcId, record.args, func⟩

/-- What passes between the two runs. -/
structure Handover where
  /-- The pending requests of the first run. -/
  image : Guest.PendingImage
  /-- The lookup table for the second run. -/
  table : Guest.Memory
  /-- The numbering of the functions in both. -/
  index : FuncIndex
  deriving DecidableEq

/-- The first run, and the choice of a specialized function for some of its pending requests, newest
first. -/
def firstRun (calls : List Call) (base tableBase : UInt32) (choices : List (Option FuncRef)) :
    Except Error Handover := do
  let session ← requestAll (.start .standard) calls
  let (image, index) := snapshot session base .empty
  let image ← image
  let records ← Guest.readPending image.memory image.head
  let table ← Table.ofUnsorted (chosenEntries records choices)
  let (written, index) := Guest.writeTable table tableBase index
  let written ← written
  pure ⟨image, written, index⟩

/-- The start of the second run: a session with the table that was handed over. -/
def secondRun (handover : Handover) : Except Error Session := do
  let table ← Guest.readTable handover.table handover.table.base
  let table ← Guest.restoreFunctions handover.index table
  let (result, session) := (Session.start .standard).install table
  result
  pure session

end Residual.TwoRun
