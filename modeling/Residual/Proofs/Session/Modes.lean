import Residual.Proofs.Argument.Writing
import Residual.Proofs.Lookup.Order
import Residual.Proofs.Store.Refinement
import Residual.Session.Run

/-!
# The two modes of a session

Without a table, a session collects every request that is handed over. With one, a request does
nothing to the slots but write its hit to its own slot. A table is accepted once.
-/

namespace Residual.Session

theorem isSpecialized_of_none {session : Session} (hinstalled : session.installed = none) :
    session.isSpecialized = false := by
  rw [isSpecialized, hinstalled, Option.isSome_none]

theorem isSpecialized_of_some {session : Session} {table : Table}
    (hinstalled : session.installed = some table) : session.isSpecialized = true := by
  rw [isSpecialized, hinstalled, Option.isSome_some]

/-- The session has no table yet, and exactly the given requests are pending. -/
structure Collects (session : Session) (requests : List Request) : Prop where
  installed : session.installed = none
  represented : ∃ ledger : Ledger Request, session.store.Represents ledger ∧
    ledger.pending.map Prod.snd = requests

theorem collects_start (policy : Policy) (slots : Slots) :
    { start policy with slots := slots }.Collects [] :=
  ⟨rfl, .empty, Store.represents_empty, rfl⟩

theorem Collects.pending_eq {session : Session} {requests : List Request}
    (hcollects : session.Collects requests) : session.pending = requests := by
  obtain ⟨ledger, hrepresents, hrequests⟩ := hcollects.represented
  rw [pending, hrepresents.pending_eq, hrequests]

theorem Collects.record {session : Session} {requests : List Request}
    (hcollects : session.Collects requests) (events : List Event) :
    (session.record events).Collects requests :=
  ⟨hcollects.installed, hcollects.represented⟩

theorem Collects.submit {session : Session} {requests : List Request}
    (hcollects : session.Collects requests) (request : Request) :
    (session.submit request).2.Collects (request :: requests) := by
  obtain ⟨ledger, hrepresents, rfl⟩ := hcollects.represented
  have hmode := isSpecialized_of_none hcollects.installed
  unfold Session.submit
  rw [hmode, if_neg Bool.false_ne_true]
  refine ⟨hcollects.installed, _, (Store.represents_pushFront _ ledger request hrepresents).2, ?_⟩
  rw [List.map_cons]

/-- A call whose operands can be written hands over the request for their canonical form. -/
theorem request_of_written {session : Session} {operands : List Operand} {buffer : ArgBuffer}
    (hwritten : (ArgBuffer.empty session.policy).describeAll (operands.map Operand.lower) =
      .ok buffer) (site : CallSite) :
    ∃ events, session.request site operands =
      (.ok ((session.record events).submit
        (site.request (Descriptor.canonicalAll (operands.map Operand.lower)))).1,
        ((session.record events).submit
          (site.request (Descriptor.canonicalAll (operands.map Operand.lower)))).2) := by
  have hcontents : buffer.take.1 = Descriptor.canonicalAll (operands.map Operand.lower) :=
    (ArgBuffer.describeAll_eq_ok _ buffer _ hwritten).1
  refine ⟨(ArgBuffer.empty session.policy).describeAllEvents (operands.map Operand.lower), ?_⟩
  unfold request
  dsimp only
  rw [hwritten]
  dsimp only
  rw [hcontents]

theorem written_of_request {session after : Session} {site : CallSite} {operands : List Operand}
    {handle : Handle} (hrequest : session.request site operands = (.ok handle, after)) :
    ∃ buffer, (ArgBuffer.empty session.policy).describeAll (operands.map Operand.lower) =
      .ok buffer := by
  unfold request at hrequest
  dsimp only at hrequest
  split at hrequest
  next => cases hrequest
  next buffer hwritten => exact ⟨buffer, hwritten⟩

/-- The later session has the table and the policy of the earlier one. -/
structure Keeps (session after : Session) : Prop where
  installed : after.installed = session.installed
  policy : after.policy = session.policy

theorem Keeps.trans {first second third : Session} (hfirst : Keeps first second)
    (hsecond : Keeps second third) : Keeps first third :=
  ⟨hsecond.installed.trans hfirst.installed, hsecond.policy.trans hfirst.policy⟩

theorem keeps_record (session : Session) (events : List Event) :
    Keeps session (session.record events) := ⟨rfl, rfl⟩

theorem keeps_resolve (session : Session) (request : Request) :
    Keeps session (session.resolve request).2 := by
  unfold resolve
  split
  next => exact ⟨rfl, rfl⟩
  next => exact ⟨rfl, rfl⟩

theorem keeps_submit (session : Session) (request : Request) :
    Keeps session (session.submit request).2 := by
  unfold submit
  split
  next =>
    have hstore :
        Keeps session { session with store := (session.store.insertDetached request).2 } :=
      ⟨rfl, rfl⟩
    exact hstore.trans (keeps_resolve _ request)
  next => exact ⟨rfl, rfl⟩

theorem keeps_release (session : Session) (handle : Handle) :
    Keeps session (session.release handle).2 := by
  unfold release
  split
  next => exact ⟨rfl, rfl⟩
  next => exact ⟨rfl, rfl⟩

theorem install_eq_ok (session : Session) (table : Table) (hinstalled : session.installed = none)
    (hchecked : session.policy.validateTable = true → table.check = .ok ()) :
    session.install table =
      (.ok (), { session with installed := some table }.record [.installing table.size]) := by
  have hmode := isSpecialized_of_none hinstalled
  unfold install
  rw [hmode, if_neg Bool.false_ne_true]
  by_cases hvalidate : session.policy.validateTable = true
  · rw [if_pos hvalidate, hchecked hvalidate]
  · rw [if_neg hvalidate]

/-- A second table is refused, and one that has to be sorted and is not; either leaves everything as
it was. -/
theorem install_cases (session : Session) (table : Table) :
    (∃ other, session.installed = some other ∧
      session.install table = (.error .alreadySpecialized, session)) ∨
    (session.installed = none ∧ session.policy.validateTable = true ∧
      ¬ Table.StrictlySorted table.entries.toList ∧
      ∃ index, session.install table = (.error (.unsortedTable index), session)) ∨
    (session.installed = none ∧
      (session.policy.validateTable = true → Table.StrictlySorted table.entries.toList) ∧
      session.install table =
        (.ok (), { session with installed := some table }.record [.installing table.size])) := by
  cases hinstalled : session.installed with
  | some other =>
      refine Or.inl ⟨other, rfl, ?_⟩
      rw [install, isSpecialized_of_some hinstalled, if_pos rfl]
  | none =>
      by_cases hsorted : session.policy.validateTable = true →
          Table.StrictlySorted table.entries.toList
      · have hchecked := install_eq_ok session table hinstalled fun hvalidate =>
          Table.check_eq_ok (hsorted hvalidate)
        exact Or.inr (Or.inr ⟨rfl, hsorted, hchecked⟩)
      · obtain ⟨hvalidate, hunsorted⟩ := Classical.not_imp.mp hsorted
        obtain ⟨index, -, hcheck⟩ := Table.exists_check_eq_error hunsorted
        refine Or.inr (Or.inl ⟨rfl, hvalidate, hunsorted, index, ?_⟩)
        rw [install, isSpecialized_of_none hinstalled, if_neg Bool.false_ne_true, if_pos hvalidate,
          hcheck]

/-- Installing is about the table alone. -/
theorem install_frame (session : Session) (table : Table) :
    (session.install table).2.policy = session.policy ∧
      (session.install table).2.store = session.store ∧
      (session.install table).2.slots = session.slots := by
  rcases session.install_cases table with
    ⟨other, -, hinstall⟩ | ⟨-, -, -, index, hinstall⟩ | ⟨-, -, hinstall⟩
  · simp [hinstall]
  · simp [hinstall]
  · simp [hinstall, record]

theorem store_resolve (session : Session) (request : Request) :
    (session.resolve request).2.store = session.store := by
  unfold resolve
  split
  next => rfl
  next => rfl

theorem submit_of_specialized (session : Session) (request : Request)
    (hmode : session.isSpecialized = true) :
    (session.submit request).1 = (session.store.insertDetached request).1 ∧
      (session.submit request).2.store = (session.store.insertDetached request).2 ∧
      (session.submit request).2.slots = (session.resolve request).2.slots := by
  rw [submit, if_pos hmode]
  refine ⟨rfl, store_resolve _ request, ?_⟩
  simp only [resolve, find, table]
  cases (session.installed.getD .empty).find request.key with
  | some entry => rfl
  | none => rfl

theorem submit_of_not_specialized (session : Session) (request : Request)
    (hmode : ¬ session.isSpecialized = true) :
    (session.submit request).1 = (session.store.pushFront request).1 ∧
      (session.submit request).2.store = (session.store.pushFront request).2 ∧
      (session.submit request).2.slots = session.slots := by
  rw [submit, if_neg hmode]
  exact ⟨rfl, rfl, rfl⟩

/-- A lookup writes to the slot of its request and to no other, and only what it finds. -/
theorem read_slot_resolve (session : Session) (request : Request) (slot : SlotId) :
    (session.resolve request).2.slots.read slot =
      (if request.slot = slot then (session.table.find request.key).map Entry.specialized
        else none).or (session.slots.read slot) := by
  unfold resolve find
  cases session.table.find request.key with
  | none => simp [record]
  | some entry =>
      by_cases hslot : request.slot = slot
      · subst slot
        simp [record]
      · simp [record, hslot, Slots.read_write_of_ne _ _ _ _ (Ne.symm hslot)]

/-- An empty slot then holds the function of the entry for the request's key, if there is one. -/
theorem read_slot_request {session : Session} {table : Table} {site : CallSite}
    {operands : List Operand} {buffer : ArgBuffer} (hinstalled : session.installed = some table)
    (hsorted : Table.StrictlySorted table.entries.toList)
    (hwritten : (ArgBuffer.empty session.policy).describeAll (operands.map Operand.lower) =
      .ok buffer) (hempty : session.slots.read site.slot = none) :
    ∃ handle after, session.request site operands = (.ok handle, after) ∧
      ∀ func, after.slots.read site.slot = some func ↔
        ∃ entry ∈ table.entries.toList,
          entry.key = ⟨site.funcId, Descriptor.canonicalAll (operands.map Operand.lower)⟩ ∧
          entry.specialized = func := by
  obtain ⟨events, hrequest⟩ := request_of_written hwritten site
  refine ⟨_, _, hrequest, ?_⟩
  intro func
  have hmode : (session.record events).isSpecialized = true := isSpecialized_of_some hinstalled
  have htable : (session.record events).table = table := by
    rw [Session.table, record, hinstalled, Option.getD_some]
  -- A miss leaves the slot empty, so the slot tells hits and misses apart.
  have hslot : (session.record events).slots.read site.slot = none := hempty
  rw [(submit_of_specialized _ _ hmode).2.2, read_slot_resolve, htable]
  simp only [CallSite.request, Request.key, if_true, hslot, Option.or_none, Option.map_eq_some_iff,
    Table.find_eq_some_iff hsorted, and_assoc]

end Residual.Session
