import Residual.Sample.Bytecode
import Residual.TwoRun

/-!
# Two runs of the bytecode program

The first run requests a specialization for each of its codes; some of them are chosen and get the
specialized function. The second run then calls each probe through a slot of its own.
-/

namespace Residual.Sample.Bytecode

/-- A code of the first run, and whether it is chosen for specialization. -/
structure Site where
  funcId : UInt32
  code : Bytes
  chosen : Bool
  deriving DecidableEq

/-- A call of the second run: what its slot held, what it returned, and whether its request was
released. -/
structure Probed where
  found : Option FuncRef
  result : UInt64
  released : Bool
  deriving DecidableEq

/-- Calls one code in the second run through a given slot. -/
def probe (session : Session) (slot : SlotId) (funcId : UInt32) (code : Bytes) (input : UInt64) :
    Except Error (Probed × Session) :=
  match session.request (site funcId slot) (operands code) with
  | (.error error, _) => .error error
  | (.ok handle, session) =>
    let func := session.slots.target slot interpretRef
    let (released, after) := session.release handle
    .ok (⟨session.slots.read slot, call func code input, released⟩, after)

/-- Calls several codes, each through the next slot. -/
def probeAll (input : UInt64) :
    Session → (slot : Nat) → List (UInt32 × Bytes) → Except Error (List Probed × Session)
  | session, _, [] => .ok ([], session)
  | session, slot, (funcId, code) :: rest =>
    match probe session ⟨slot⟩ funcId code input with
    | .error error => .error error
    | .ok (first, session) =>
      match probeAll input session (slot + 1) rest with
      | .error error => .error error
      | .ok (others, session) => .ok (first :: others, session)

/-- The calls of the first run, each with the next slot. -/
def calls : (slot : Nat) → List Site → List TwoRun.Call
  | _, [] => []
  | slot, first :: rest => ⟨site first.funcId ⟨slot⟩, operands first.code⟩ :: calls (slot + 1) rest

/-- What both runs leave behind. -/
structure Outcome where
  handover : TwoRun.Handover
  probes : List Probed
  session : Session

/-- Both runs, with every image at `base`. Requests are chosen newest first. -/
def twoRun (sites : List Site) (probes : List (UInt32 × Bytes)) (base : UInt32) (input : UInt64) :
    Except Error Outcome := do
  let choices := sites.reverse.map fun site => if site.chosen then some fastRef else none
  let handover ← TwoRun.firstRun (calls 0 sites) base base choices
  let session ← TwoRun.secondRun handover
  let (probed, session) ← probeAll input session 0 probes
  pure ⟨handover, probed, session⟩

end Residual.Sample.Bytecode
