import Residual.Proofs.Session.History

/-!
# The life cycle of a session

A session has no table until the first one is accepted, and keeps that one. What is pending is what
was handed over before that moment and has not been released since: later requests are served from
the table and never join the pending list, while those that are on it can still be taken off.
-/

namespace Residual

namespace Command

variable {command : Command} {outcome : Outcome}

theorem installed_of_handedOver {entry : Handle × Request}
    (hentry : command.handedOver outcome = some entry) : command.installed outcome = none := by
  cases outcome with
  | submitted result => rfl
  | released found => cases hentry
  | resolved func => cases hentry
  | installed result => cases hentry

theorem handedOver_of_installed {table : Table} (htable : command.installed outcome = some table) :
    command.handedOver outcome = none := by
  cases hentry : command.handedOver outcome with
  | none => rfl
  | some entry =>
      rw [installed_of_handedOver hentry] at htable
      cases htable

end Command

namespace History

/-- The requests that were handed over before a table was installed and have not been released
since, under their handles, oldest first. -/
def waiting : History → List (Handle × Request)
  | [] => []
  | (command, outcome) :: rest =>
    if (command.installed outcome).isSome then []
    else
      (command.handedOver outcome).toList.filter (fun entry => !releases rest entry.1) ++
        waiting rest

theorem waiting_of_installed {command : Command} {outcome : Outcome} {table : Table}
    (htable : command.installed outcome = some table) (rest : History) :
    waiting ((command, outcome) :: rest) = [] := by
  rw [waiting, htable, Option.isSome_some, if_pos rfl]

theorem waiting_of_not_installed {command : Command} {outcome : Outcome}
    (hnone : command.installed outcome = none) (rest : History) :
    waiting ((command, outcome) :: rest) =
      (command.handedOver outcome).toList.filter (fun entry => !rest.releases entry.1) ++
        rest.waiting := by
  rw [waiting, hnone, Option.isSome_none, if_neg Bool.false_ne_true]

/-- Looked at from the newest on, a first step puts its request behind all later ones. -/
theorem reverse_waiting_cons (command : Command) (outcome : Outcome) (rest : History) :
    (waiting ((command, outcome) :: rest)).reverse =
      (if (command.installed outcome).isSome then [] else rest.waiting.reverse) ++
        (command.handedOver outcome).toList.filter fun entry => !rest.releases entry.1 := by
  cases htable : command.installed outcome with
  | some table =>
      simp [waiting_of_installed htable, Command.handedOver_of_installed htable]
  | none =>
      rw [waiting_of_not_installed htable, List.reverse_append]
      cases command.handedOver outcome with
      | none => simp
      | some entry => cases hreleases : rest.releases entry.1 <;> simp [hreleases]

/-- A waiting request was handed over at some moment without a table before it and without a release
after it. -/
theorem mem_waiting_iff (history : History) (entry : Handle × Request) :
    entry ∈ history.waiting ↔
      ∃ (front : History) (command : Command) (outcome : Outcome) (back : History),
        history = front ++ (command, outcome) :: back ∧ front.installed = none ∧
          command.handedOver outcome = some entry ∧ back.releases entry.1 = false := by
  induction history with
  | nil => simp [waiting]
  | cons step rest ih =>
      obtain ⟨command, outcome⟩ := step
      constructor
      · intro hmem
        cases hinstalled : command.installed outcome with
        | some table =>
            rw [waiting_of_installed hinstalled] at hmem
            cases hmem
        | none =>
            rw [waiting_of_not_installed hinstalled, List.mem_append, ih] at hmem
            rcases hmem with hfirst | ⟨front, later, result, back, rfl, hfront, hentry, hback⟩
            · obtain ⟨hentry, hrest⟩ := List.mem_filter.mp hfirst
              exact ⟨[], command, outcome, rest, rfl, rfl, Option.mem_toList.mp hentry,
                by simpa using hrest⟩
            · refine ⟨(command, outcome) :: front, later, result, back, rfl, ?_, hentry, hback⟩
              rw [installed_cons, hinstalled, hfront, Option.none_or]
      · rintro ⟨front, later, result, back, hhistory, hfront, hentry, hback⟩
        cases front with
        | nil =>
            cases hhistory
            rw [waiting_of_not_installed (Command.installed_of_handedOver hentry)]
            apply List.mem_append_left
            simp [hentry, hback]
        | cons first front =>
            cases hhistory
            rw [installed_cons, Option.or_eq_none_iff] at hfront
            rw [waiting_of_not_installed hfront.1]
            apply List.mem_append_right
            exact ih.mpr ⟨front, later, result, back, rfl, hfront.2, hentry, hback⟩

end History

namespace Session

/-- One move puts at most one request in front of the pending list, and none once there is a table,
and takes off what is released. -/
theorem Moves.exists_ledger {session next : Session} {command : Command} {outcome : Outcome}
    {ledger : Ledger Request} (hmoves : session.Moves command outcome next)
    (hrepresents : session.store.Represents ledger) :
    ∃ after : Ledger Request, next.store.Represents after ∧
      after.pending =
        (if session.isSpecialized then [] else (command.handedOver outcome).toList) ++
          ledger.pending.filter fun entry => decide (command.released outcome ≠ some entry.1) := by
  cases hmoves with
  | @handOver _ request events hrequest =>
      -- Once there is a table, the request is stored too, but apart from the pending list.
      by_cases hmode : session.isSpecialized = true
      · obtain ⟨-, hafter⟩ := Store.represents_insertDetached _ ledger request hrepresents
        rw [(submit_of_specialized (session.record events) request hmode).2.1]
        exact ⟨_, hafter, by simp [hmode, Command.released]⟩
      · obtain ⟨-, hafter⟩ := Store.represents_pushFront _ ledger request hrepresents
        obtain ⟨hhandle, hstore, -⟩ :=
          submit_of_not_specialized (session.record events) request hmode
        rw [hhandle, hstore]
        exact ⟨_, hafter, by simp [hmode, Command.handedOver, Command.released, hrequest, record]⟩
  | refuse error events =>
      exact ⟨ledger, hrepresents, by simp [Command.handedOver, Command.released]⟩
  | release handle =>
      obtain ⟨after, hafter, hpending⟩ := hrepresents.exists_release handle
      unfold Session.release
      split
      next request store hreleased =>
        rw [hreleased] at hafter
        refine ⟨after, hafter, ?_⟩
        simp [hpending, Command.handedOver, Command.released, Command.handle?]
      next store hreleased =>
        exact ⟨ledger, hrepresents, by simp [Command.handedOver, Command.released]⟩
  | resolve request =>
      rw [store_resolve]
      exact ⟨ledger, hrepresents, by simp [Command.handedOver, Command.released]⟩
  | install table =>
      rw [(session.install_frame table).2.1]
      exact ⟨ledger, hrepresents, by simp [Command.handedOver, Command.released]⟩

/-- What a run leaves on the pending list: what is waiting after it, in front of what it did not
release. -/
theorem exists_ledger_run {session : Session} {ledger : Ledger Request}
    (hrepresents : session.store.Represents ledger) (commands : List Command) :
    ∃ after : Ledger Request, (session.run commands).store.Represents after ∧
      after.pending =
        (if session.isSpecialized then [] else (session.history commands).waiting.reverse) ++
          ledger.pending.filter fun entry => !(session.history commands).releases entry.1 := by
  -- The first step is taken off, so that what it puts on the list meets the releases of all that
  -- follows.
  induction commands generalizing session ledger with
  | nil =>
      refine ⟨ledger, hrepresents, ?_⟩
      simp [history, History.waiting, History.releases]
  | cons command rest ih =>
      have hmoves := moves_step session command
      obtain ⟨middle, hmiddle, hfirst⟩ := hmoves.exists_ledger hrepresents
      obtain ⟨after, hafter, hpending⟩ := ih hmiddle
      refine ⟨after, hafter, ?_⟩
      have hmode : (session.step command).2.isSpecialized =
          (session.isSpecialized || (command.installed (session.step command).1).isSome) := by
        rw [isSpecialized, hmoves.installed_eq, Option.isSome_or, isSpecialized]
      rw [hpending, hfirst, history, History.reverse_waiting_cons, List.filter_append,
        List.filter_filter, ← List.append_assoc, hmode]
      congr 1
      · cases session.isSpecialized <;> simp
      · apply List.filter_congr
        intro entry _
        simp [History.releases_cons, Bool.and_comm]

theorem release_of_pending {session : Session} {ledger : Ledger Request} {handle : Handle}
    {request : Request} (hrepresents : session.store.Represents ledger)
    (hentry : (handle, request) ∈ ledger.pending) :
    (session.release handle).1 = true ∧
      (session.release handle).2.store.pending =
        session.store.pending.filter fun entry => decide (handle ≠ entry.1) := by
  have hfound := hrepresents.release_used handle request (Or.inl hentry)
  obtain ⟨after, hafter, hpending⟩ := hrepresents.exists_release handle
  unfold release
  split
  next held store hreleased =>
    rw [hreleased] at hafter
    refine ⟨rfl, ?_⟩
    rw [hrepresents.pending_eq, ← hpending]
    exact hafter.pending_eq
  next store hreleased =>
    rw [hreleased] at hfound
    cases hfound

/-- What a history says about the session that it leads to. -/
structure Follows (session : Session) (policy : Policy) (history : History) : Prop where
  /-- There is a table as soon as one was accepted. -/
  isSpecialized_iff : session.isSpecialized = true ↔ ∃ table, history.installed = some table
  /-- It is the one that was accepted first. -/
  table_eq : session.table = history.installed.getD .empty
  /-- Nothing takes it away or puts another in its place. -/
  table_kept : ∀ table, history.installed = some table → ∀ more : List Command,
    (session.run more).isSpecialized = true ∧ (session.run more).table = table
  refused_again_iff : ∀ table, (session.install table).1 = .error .alreadySpecialized ↔
    ∃ earlier, history.installed = some earlier
  refused_unsorted_iff : ∀ table,
    (∃ index, (session.install table).1 = .error (.unsortedTable index)) ↔
      history.installed = none ∧ policy.validateTable = true ∧
        ¬ Table.StrictlySorted table.entries.toList
  accepted_iff : ∀ table, (session.install table).1 = .ok () ↔
    history.installed = none ∧
      (policy.validateTable = true → Table.StrictlySorted table.entries.toList)
  refused_unchanged : ∀ table error, (session.install table).1 = .error error →
    (session.install table).2 = session
  /-- The pending requests, newest first, are those that were handed over before there was a table
  and have not been released since. -/
  pending_eq : session.store.pending = history.waiting.reverse
  mem_pending_iff : ∀ entry, entry ∈ session.store.pending ↔
    ∃ (front : History) (command : Command) (outcome : Outcome) (back : History),
      history = front ++ (command, outcome) :: back ∧ front.installed = none ∧
        command.handedOver outcome = some entry ∧ back.releases entry.1 = false
  /-- A pending request can be released at any time, which takes off this one and no other. -/
  release_pending : ∀ handle request, (handle, request) ∈ session.store.pending →
    (session.release handle).1 = true ∧
      (session.release handle).2.store.pending =
        session.store.pending.filter fun entry => decide (handle ≠ entry.1)

theorem follows_of_represents {session : Session} {policy : Policy} {history : History}
    {ledger : Ledger Request} (hrepresents : session.store.Represents ledger)
    (hinstalled : session.installed = history.installed) (hpolicy : session.policy = policy)
    (hpending : ledger.pending = history.waiting.reverse) :
    session.Follows policy history where
  isSpecialized_iff := by rw [isSpecialized, hinstalled, Option.isSome_iff_exists]
  table_eq := by rw [table, hinstalled]
  table_kept := by
    intro table htable more
    rw [← hinstalled] at htable
    have hkept := (keeps_run htable more).installed.trans htable
    exact ⟨isSpecialized_of_some hkept, by rw [Session.table, hkept, Option.getD_some]⟩
  refused_again_iff := by
    intro table
    rw [← hinstalled]
    rcases session.install_cases table with
      ⟨other, hother, hinstall⟩ | ⟨hnone, -, -, index, hinstall⟩ | ⟨hnone, -, hinstall⟩
    · simp [hinstall, hother]
    · simp [hinstall, hnone]
    · simp [hinstall, hnone]
  refused_unsorted_iff := by
    intro table
    rw [← hinstalled, ← hpolicy]
    rcases session.install_cases table with
      ⟨other, hother, hinstall⟩ | ⟨hnone, hvalidate, hunsorted, index, hinstall⟩ |
        ⟨hnone, hsorted, hinstall⟩
    · simp [hinstall, hother]
    · simp [hinstall, hnone, hvalidate, hunsorted]
    · simpa [hinstall, hnone] using hsorted
  accepted_iff := by
    intro table
    rw [← hinstalled, ← hpolicy]
    rcases session.install_cases table with
      ⟨other, hother, hinstall⟩ | ⟨hnone, hvalidate, hunsorted, index, hinstall⟩ |
        ⟨hnone, hsorted, hinstall⟩
    · simp [hinstall, hother]
    · simp [hinstall, hvalidate, hunsorted]
    · simpa [hinstall, hnone] using hsorted
  refused_unchanged := by
    intro table error herror
    rcases session.install_cases table with
      ⟨other, -, hinstall⟩ | ⟨-, -, -, index, hinstall⟩ | ⟨-, -, hinstall⟩
    · rw [hinstall]
    · rw [hinstall]
    · rw [hinstall] at herror
      cases herror
  pending_eq := hrepresents.pending_eq.trans hpending
  mem_pending_iff := by
    intro entry
    rw [hrepresents.pending_eq, hpending, List.mem_reverse, History.mem_waiting_iff]
  release_pending := by
    intro handle request hentry
    rw [hrepresents.pending_eq] at hentry
    exact release_of_pending hrepresents hentry

/-- The life cycle of a session. After any run of a new session, whatever the slots held before, the
history of the run tells whether there is a table and which, what becomes of the next table, and
what is pending. -/
theorem session_follows_history (policy : Policy) (slots : Slots) (commands : List Command) :
    ({ start policy with slots := slots }.run commands).Follows policy
      ({ start policy with slots := slots }.history commands) := by
  have hrepresents : { start policy with slots := slots }.store.Represents Ledger.empty :=
    Store.represents_empty
  obtain ⟨after, hafter, hpending⟩ := exists_ledger_run hrepresents commands
  refine follows_of_represents hafter ?_ (policy_run _ commands) ?_
  · rw [installed_run]
    rfl
  · rw [hpending]
    exact List.append_nil _

end Session

end Residual
