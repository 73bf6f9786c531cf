import Residual.Proofs.Request.Draft
import Residual.Proofs.Session.Modes

/-!
# Histories of a session

A history lists the commands of a run with what came of them. It tells on its own which requests
were handed over and under which handles, which were looked up, which were released, and which table
was installed. Every command is one of five moves: it hands a request over, is refused before it has
one, releases, resolves or installs.
-/

namespace Residual

namespace Command

/-- The request that a command is about. -/
def request? : Command → Option Request
  | .submit wanted | .resolve wanted => some wanted
  | .request site operands | .draft site operands =>
    some ⟨site.funcId, site.generic, Descriptor.canonicalAll (operands.map Operand.lower),
      site.slot⟩
  | .submitDraft unfinished => unfinished.build.toOption
  | .release _ | .install _ => none

def handle? : Command → Option Handle
  | .release handle => some handle
  | _ => none

def table? : Command → Option Table
  | .install table => some table
  | _ => none

/-- The request that was handed over, under its handle. -/
def handedOver (command : Command) : Outcome → Option (Handle × Request)
  | .submitted (.ok handle) => command.request?.map fun wanted => (handle, wanted)
  | _ => none

/-- The request that is looked up as soon as there is a table. -/
def lookedUp (command : Command) : Outcome → Option Request
  | .submitted (.ok _) | .resolved _ => command.request?
  | _ => none

/-- The handle whose request was released. -/
def released (command : Command) : Outcome → Option Handle
  | .released true => command.handle?
  | _ => none

def installed (command : Command) : Outcome → Option Table
  | .installed (.ok ()) => command.table?
  | _ => none

end Command

/-- Commands with what came of them, oldest first. -/
abbrev History := List (Command × Outcome)

namespace History

/-- The table that was installed first. -/
def installed (history : History) : Option Table :=
  history.findSome? fun step => step.1.installed step.2

/-- Whether the request under a handle was released. -/
def releases (history : History) (handle : Handle) : Bool :=
  history.any fun step => decide (step.1.released step.2 = some handle)

theorem installed_cons (command : Command) (outcome : Outcome) (rest : History) :
    installed ((command, outcome) :: rest) = (command.installed outcome).or rest.installed := by
  rw [installed, List.findSome?_cons]
  cases command.installed outcome with
  | none => rfl
  | some table => rfl

theorem releases_cons (command : Command) (outcome : Outcome) (rest : History) (handle : Handle) :
    releases ((command, outcome) :: rest) handle =
      (decide (command.released outcome = some handle) || rest.releases handle) := rfl

end History

namespace Session

/-- The history of a run. -/
def history : Session → List Command → History
  | _, [] => []
  | session, command :: rest =>
    (command, (session.step command).1) :: (session.step command).2.history rest

/-- What a command can do to a session. What is reported on the way is left open. -/
inductive Moves (session : Session) : Command → Outcome → Session → Prop
  | handOver {command : Command} {request : Request} (events : List Event)
      (hrequest : command.request? = some request) :
      Moves session command (.submitted (.ok ((session.record events).submit request).1))
        ((session.record events).submit request).2
  | refuse (command : Command) (error : Error) (events : List Event) :
      Moves session command (.submitted (.error error)) (session.record events)
  | release (handle : Handle) :
      Moves session (.release handle) (.released (session.release handle).1)
        (session.release handle).2
  | resolve (request : Request) :
      Moves session (.resolve request) (.resolved (session.resolve request).1)
        (session.resolve request).2
  | install (table : Table) :
      Moves session (.install table) (.installed (session.install table).1)
        (session.install table).2

theorem record_nil (session : Session) : session.record [] = session := by
  simp [record]

theorem record_record (session : Session) (first second : List Event) :
    (session.record first).record second = session.record (first ++ second) := by
  simp [record]

theorem moves_submit (session : Session) (request : Request) :
    session.Moves (.submit request) (.submitted (.ok (session.submit request).1))
      (session.submit request).2 := by
  have hmoves : session.Moves (.submit request) _ _ := .handOver [] rfl
  rw [record_nil] at hmoves
  exact hmoves

theorem moves_request (session : Session) (site : CallSite) (operands : List Operand) :
    session.Moves (.request site operands) (.submitted (session.request site operands).1)
      (session.request site operands).2 := by
  cases hwritten : (ArgBuffer.empty session.policy).describeAll (operands.map Operand.lower) with
  | ok buffer =>
      obtain ⟨events, hrequest⟩ := request_of_written hwritten site
      rw [hrequest]
      exact .handOver events rfl
  | error error =>
      simp only [request, hwritten, record_record]
      exact .refuse _ error _

theorem moves_submitDraft (session : Session) (draft : Draft) {command : Command}
    (hcommand : ∀ request, draft.build = .ok request → command.request? = some request) :
    session.Moves command (.submitted (session.submitDraft draft).1)
      (session.submitDraft draft).2 := by
  unfold submitDraft
  cases hbuild : draft.build with
  | error error => exact .refuse command error _
  | ok request => exact .handOver _ (hcommand request hbuild)

/-- Every command is one of the moves. -/
theorem moves_step (session : Session) (command : Command) :
    session.Moves command (session.step command).1 (session.step command).2 := by
  cases command with
  | submit request => exact moves_submit session request
  | request site operands => exact moves_request session site operands
  | draft site operands =>
      apply moves_submitDraft
      intro request hbuild
      rw [Draft.build_start_args_eq_ok hbuild]
      rfl
  | submitDraft draft =>
      apply moves_submitDraft
      intro request hbuild
      rw [Command.request?, hbuild]
      rfl
  | release handle => exact .release handle
  | resolve request => exact .resolve request
  | install table => exact .install table

/-- Only an accepted table changes what is installed, and only the first. -/
theorem Moves.installed_eq {session next : Session} {command : Command} {outcome : Outcome}
    (hmoves : session.Moves command outcome next) :
    next.installed = session.installed.or (command.installed outcome) := by
  cases hmoves with
  | handOver events hrequest =>
      rw [((keeps_record session events).trans (keeps_submit _ _)).installed]
      exact Option.or_none.symm
  | refuse error events => exact Option.or_none.symm
  | release handle =>
      rw [(keeps_release session handle).installed]
      cases (session.release handle).1 <;> exact Option.or_none.symm
  | resolve request =>
      rw [(keeps_resolve session request).installed]
      exact Option.or_none.symm
  | install table =>
      rcases session.install_cases table with
        ⟨other, hinstalled, hinstall⟩ | ⟨-, -, -, index, hinstall⟩ | ⟨hinstalled, -, hinstall⟩
      · rw [hinstall, hinstalled]
        rfl
      · rw [hinstall]
        exact Option.or_none.symm
      · rw [hinstall, hinstalled]
        rfl

theorem Moves.policy_eq {session next : Session} {command : Command} {outcome : Outcome}
    (hmoves : session.Moves command outcome next) : next.policy = session.policy := by
  cases hmoves with
  | handOver events hrequest =>
      exact ((keeps_record session events).trans (keeps_submit _ _)).policy
  | refuse error events => rfl
  | release handle => exact (keeps_release session handle).policy
  | resolve request => exact (keeps_resolve session request).policy
  | install table => exact (session.install_frame table).1

theorem policy_run (session : Session) (commands : List Command) :
    (session.run commands).policy = session.policy := by
  induction commands generalizing session with
  | nil => rfl
  | cons command rest ih => exact (ih _).trans (moves_step session command).policy_eq

theorem installed_run (session : Session) (commands : List Command) :
    (session.run commands).installed =
      session.installed.or (session.history commands).installed := by
  induction commands generalizing session with
  | nil => exact Option.or_none.symm
  | cons command rest ih =>
      change ((session.step command).2.run rest).installed = _
      rw [ih, (moves_step session command).installed_eq, history, History.installed_cons,
        Option.or_assoc]

/-- No command takes an installed table away or puts another in its place. -/
theorem keeps_run {session : Session} {table : Table} (hinstalled : session.installed = some table)
    (commands : List Command) : Keeps session (session.run commands) := by
  refine ⟨?_, policy_run session commands⟩
  rw [installed_run, hinstalled, Option.some_or]

end Session

end Residual
