import Residual.Lookup.Table
import Residual.Request.Draft
import Residual.Store.Basic

/-!
# Sessions

A session is the state that a program's call sites share. Before a lookup table is installed,
submitted requests join the pending list. Afterwards they are looked up at once, a hit is written to
the request's slot, and nothing joins the pending list any more. A table is installed at most once.
-/

namespace Residual

/-- The state that call sites share. -/
structure Session where
  policy : Policy
  store : Store Request
  /-- The lookup table, once there is one. -/
  installed : Option Table
  slots : Slots
  /-- What has been reported, oldest first. -/
  log : List Event

namespace Session

/-- A session at its start. -/
def start (policy : Policy) : Session := ⟨policy, .empty, none, .empty, []⟩

/-- Whether a lookup table has been installed. -/
def isSpecialized (session : Session) : Bool := session.installed.isSome

/-- The lookup table; empty before one is installed. -/
def table (session : Session) : Table := session.installed.getD .empty

/-- The pending requests, newest first. -/
def pending (session : Session) : List Request := session.store.pending.map Prod.snd

/-- The session after some events were reported. -/
def record (session : Session) (events : List Event) : Session :=
  { session with log := session.log ++ events }

/-- Installs a lookup table. A second table is refused whatever it holds. -/
def install (session : Session) (table : Table) : Except Error Unit × Session :=
  if session.isSpecialized then (.error .alreadySpecialized, session)
  else
    let checked := if session.policy.validateTable then table.check else .ok ()
    match checked with
    | .error error => (.error error, session)
    | .ok () => (.ok (), { session with installed := some table }.record [.installing table.size])

/-- The entry of the lookup table for a request. -/
def find (session : Session) (request : Request) : Option Entry := session.table.find request.key

/-- Looks a request up and writes a hit to its slot. -/
def resolve (session : Session) (request : Request) : Option FuncRef × Session :=
  match session.find request with
  | some entry =>
    (some entry.specialized,
      { session with slots := session.slots.write request.slot entry.specialized }.record
        [.resolved request.funcId entry.specialized])
  | none => (none, session.record [.missed request.funcId])

/-- Hands a request over: to the pending list, or to the lookup table once there is one. -/
def submit (session : Session) (request : Request) : Handle × Session :=
  if session.isSpecialized then
    let (handle, store) := session.store.insertDetached request
    (handle, ({ session with store := store }.resolve request).2)
  else
    let (handle, store) := session.store.pushFront request
    (handle,
      { session with store := store }.record [.queued handle request.funcId request.args.length])

/-- Releases a request; false for a handle that names none. -/
def release (session : Session) (handle : Handle) : Bool × Session :=
  match session.store.release handle with
  | (some request, store) =>
    (true, { session with store := store }.record [.released handle request.funcId])
  | (none, _) => (false, session)

/-- Builds the request of a call site from all its operands and submits it. -/
def request (session : Session) (site : CallSite) (operands : List Operand) :
    Except Error Handle × Session :=
  let descriptors := operands.map Operand.lower
  let buffer := ArgBuffer.empty session.policy
  let session := session.record (buffer.describeAllEvents descriptors)
  match buffer.describeAll descriptors with
  | .error error => (.error error, session.record [.notBuilt site.funcId error])
  | .ok buffer =>
    let (handle, session) := session.submit (site.request buffer.take.1)
    (.ok handle, session)

/-- A draft for a call site under the session's policy. -/
def draft (session : Session) (site : CallSite) : Draft := .start session.policy site

/-- Finishes a draft and submits its request. -/
def submitDraft (session : Session) (draft : Draft) : Except Error Handle × Session :=
  let session := session.record draft.buildEvents
  match draft.build with
  | .error error => (.error error, session)
  | .ok request =>
    let (handle, session) := session.submit request
    (.ok handle, session)

end Session

end Residual
