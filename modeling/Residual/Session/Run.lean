import Residual.Session.Basic

/-!
# Runs of a session

A run is a sequence of commands. Every command has an outcome, also when it is refused, and leads to
a next session.
-/

namespace Residual

/-- What a program can ask of a session. -/
inductive Command where
  /-- Submit a finished request. -/
  | submit (request : Request)
  /-- Build the request of a call site from all its operands and submit it. -/
  | request (site : CallSite) (operands : List Operand)
  /-- Draft the request of a call site operand by operand and submit it. -/
  | draft (site : CallSite) (operands : List Operand)
  /-- Submit the request of a draft, whichever session it was started for. -/
  | submitDraft (draft : Draft)
  | release (handle : Handle)
  /-- Look a request up, whether it was submitted or not. -/
  | resolve (request : Request)
  | install (table : Table)
  deriving DecidableEq

/-- What a command leads to. -/
inductive Outcome where
  | submitted (result : Except Error Handle)
  | released (found : Bool)
  | resolved (func : Option FuncRef)
  | installed (result : Except Error Unit)

namespace Session

/-- The outcome of a command and the next session. -/
def step (session : Session) : Command → Outcome × Session
  | .submit request =>
    let (handle, next) := session.submit request
    (.submitted (.ok handle), next)
  | .request site operands =>
    let (result, next) := session.request site operands
    (.submitted result, next)
  | .draft site operands =>
    let (result, next) := session.submitDraft ((session.draft site).args operands)
    (.submitted result, next)
  | .submitDraft draft =>
    let (result, next) := session.submitDraft draft
    (.submitted result, next)
  | .release handle =>
    let (found, next) := session.release handle
    (.released found, next)
  | .resolve request =>
    let (func, next) := session.resolve request
    (.resolved func, next)
  | .install table =>
    let (result, next) := session.install table
    (.installed result, next)

/-- The session after a sequence of commands. -/
def run (session : Session) (commands : List Command) : Session :=
  commands.foldl (fun session command => (session.step command).2) session

end Session

end Residual
