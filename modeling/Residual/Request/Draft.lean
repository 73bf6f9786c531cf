import Residual.Argument.Buffer
import Residual.Argument.Operand
import Residual.Request.Basic

/-!
# Drafts

A draft collects the operands of a request one at a time. The first operand that cannot be written
spoils the draft: later ones are counted and otherwise ignored, and finishing reports that first
failure.
-/

namespace Residual

/-- A request under construction. -/
structure Draft where
  site : CallSite
  buffer : ArgBuffer
  /-- The number of operands added so far. -/
  count : Nat
  /-- The first failure. -/
  failure : Option Error
  /-- What has been reported so far. -/
  events : List Event
  deriving DecidableEq

namespace Draft

/-- A draft without operands. -/
def start (policy : Policy) (site : CallSite) : Draft := ⟨site, .empty policy, 0, none, []⟩

/-- The draft with one more operand. -/
def arg (draft : Draft) (operand : Operand) : Draft :=
  match draft.failure with
  | some _ => { draft with count := draft.count + 1 }
  | none =>
    let descriptor := operand.lower
    let events := draft.events ++ draft.buffer.describeEvents descriptor
    let (answer, buffer) := (ArgBuffer.describe descriptor).outcome draft.buffer
    let failure := match answer with
      | .ok () => none
      | .error error => some error
    { draft with buffer, count := draft.count + 1, failure, events }

/-- The draft with several more operands. -/
def args (draft : Draft) (operands : List Operand) : Draft := operands.foldl arg draft

/-- The finished request. A failure to write an operand is reported before a wrong number of
operands. -/
def build (draft : Draft) : Except Error Request :=
  match draft.failure with
  | some error => .error error
  | none =>
    if draft.buffer.policy.checkArity ∧ draft.count ≠ draft.site.arity then
      .error (.arityMismatch draft.site.arity draft.count)
    else .ok (draft.site.request draft.buffer.take.1)

/-- What has been reported once the draft is finished. -/
def buildEvents (draft : Draft) : List Event :=
  match draft.failure with
  | some error => draft.events ++ [.notBuilt draft.site.funcId error]
  | none => draft.events

end Draft

end Residual
