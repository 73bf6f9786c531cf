import Residual.Proofs.Session.History

/-!
# What the slots hold

A slot is written in one way only: a request that owns it is looked up and found. Slots may be
shared, so the request that was found last decides, and everything else that happens to the session
passes a slot by.
-/

namespace Residual

theorem Entry.key_eq_iff {entry : Entry} {funcId : UInt32} {args : Bytes} :
    entry.key = ⟨funcId, args⟩ ↔ entry.funcId = funcId ∧ entry.args = args := by
  rw [key, Key.mk.injEq]

/-- The function that a step writes to a slot, when the given table is installed before it. -/
def Command.hit (command : Command) (outcome : Outcome) (slot : SlotId) (table : Option Table) :
    Option FuncRef :=
  match table, command.lookedUp outcome with
  | some table, some wanted =>
    if wanted.slot = slot then
      (table.find ⟨wanted.funcId, wanted.args⟩).map Entry.specialized
    else none
  | _, _ => none

/-- The functions that a history writes to a slot, oldest first, when the given table is installed
before it. -/
def History.hits (slot : SlotId) : Option Table → History → List FuncRef
  | _, [] => []
  | table, (command, outcome) :: rest =>
    (command.hit outcome slot table).toList ++ hits slot (table.or (command.installed outcome)) rest

/-- A step writes to a slot exactly if a request that owns the slot is looked up and found. -/
theorem Command.hit_eq_some_iff {command : Command} {outcome : Outcome} {slot : SlotId}
    {installed : Option Table} {func : FuncRef} :
    command.hit outcome slot installed = some func ↔
      ∃ table wanted entry, installed = some table ∧ command.lookedUp outcome = some wanted ∧
        wanted.slot = slot ∧ table.find ⟨wanted.funcId, wanted.args⟩ = some entry ∧
        entry.specialized = func := by
  constructor
  · intro hhit
    unfold hit at hhit
    split at hhit
    next table wanted hlookup =>
      by_cases hslot : wanted.slot = slot
      · rw [if_pos hslot] at hhit
        obtain ⟨entry, hfound, hfunc⟩ := Option.map_eq_some_iff.mp hhit
        exact ⟨table, wanted, entry, rfl, hlookup, hslot, hfound, hfunc⟩
      · rw [if_neg hslot] at hhit
        cases hhit
    next => cases hhit
  · rintro ⟨table, wanted, entry, rfl, hlookup, hslot, hfound, rfl⟩
    simp [hit, hlookup, hslot, hfound]

namespace Session

theorem slots_release (session : Session) (handle : Handle) :
    (session.release handle).2.slots = session.slots := by
  unfold release
  split
  next => rfl
  next => rfl

/-- A move writes its hit to a slot and does nothing else to it. -/
theorem Moves.read_slot {session next : Session} {command : Command} {outcome : Outcome}
    (hmoves : session.Moves command outcome next) (slot : SlotId) :
    next.slots.read slot =
      (command.hit outcome slot session.installed).or (session.slots.read slot) := by
  cases hmoves with
  | @handOver _ request events hrequest =>
      by_cases hmode : session.isSpecialized = true
      · obtain ⟨table, hinstalled⟩ := Option.isSome_iff_exists.mp hmode
        rw [(submit_of_specialized (session.record events) request hmode).2.2, read_slot_resolve]
        simp [Command.hit, Command.lookedUp, hrequest, Session.table, Request.key, record,
          hinstalled]
      · rw [(submit_of_not_specialized (session.record events) request hmode).2.2]
        have hinstalled : session.installed = none := by
          simpa [isSpecialized] using hmode
        simp [Command.hit, record, hinstalled]
  | refuse error events =>
      cases session.installed <;> simp [Command.hit, Command.lookedUp, record]
  | release handle =>
      rw [slots_release]
      cases session.installed <;> simp [Command.hit, Command.lookedUp]
  | resolve request =>
      rw [read_slot_resolve]
      cases hinstalled : session.installed with
      | none =>
          -- A request can be resolved without a table; the lookup then misses.
          have hmiss : session.table.find request.key = none := by
            rw [Session.table, hinstalled]
            rfl
          simp [Command.hit, hmiss]
      | some table =>
          simp [Command.hit, Command.lookedUp, Command.request?, Session.table, Request.key,
            hinstalled]
  | install table =>
      rw [(session.install_frame table).2.2]
      cases session.installed <;> simp [Command.hit, Command.lookedUp]

theorem read_slot_run (session : Session) (commands : List Command) (slot : SlotId) :
    (session.run commands).slots.read slot =
      ((session.history commands).hits slot session.installed).getLast?.or
        (session.slots.read slot) := by
  induction commands generalizing session with
  | nil => rfl
  | cons command rest ih =>
      have hmoves := moves_step session command
      change ((session.step command).2.run rest).slots.read slot = _
      rw [ih, hmoves.read_slot slot, hmoves.installed_eq, history, History.hits,
        List.getLast?_append, ← Option.or_assoc]
      congr 2
      cases command.hit (session.step command).1 slot session.installed <;> rfl

/-- A command leaves a slot as it is. -/
def LeavesSlot (session : Session) (command : Command) (slot : SlotId) : Prop :=
  (session.step command).2.slots.read slot = session.slots.read slot

/-- What a command does to a slot, given the table that was installed before it. -/
structure ServesSlot (session : Session) (command : Command) (slot : SlotId)
    (installed : Option Table) : Prop where
  /-- A slot changes only if a request that owns it is handed over or resolved, and the table has
  an entry for the function and the arguments of the request. -/
  changed : ¬ session.LeavesSlot command slot →
    ∃ table request entry, installed = some table ∧
      command.lookedUp (session.step command).1 = some request ∧ request.slot = slot ∧
      entry ∈ table.entries.toList ∧ entry.funcId = request.funcId ∧ entry.args = request.args ∧
      (session.step command).2.slots.read slot = some entry.specialized
  hit : ∀ table request entry, installed = some table →
    command.lookedUp (session.step command).1 = some request → request.slot = slot →
    table.find ⟨request.funcId, request.args⟩ = some entry →
    entry ∈ table.entries.toList ∧ entry.funcId = request.funcId ∧ entry.args = request.args ∧
      (session.step command).2.slots.read slot = some entry.specialized
  miss : ∀ table request, installed = some table →
    command.lookedUp (session.step command).1 = some request →
    table.find ⟨request.funcId, request.args⟩ = none → session.LeavesSlot command slot
  elsewhere : ∀ request, command.lookedUp (session.step command).1 = some request →
    request.slot ≠ slot → session.LeavesSlot command slot
  early : installed = none → session.LeavesSlot command slot
  refused : ∀ error, (session.step command).1 = .submitted (.error error) →
    session.LeavesSlot command slot
  released : ∀ handle, command = .release handle → session.LeavesSlot command slot
  installing : ∀ table, command = .install table → session.LeavesSlot command slot
  /-- In a sorted table, all that is there is found. -/
  hit_iff : ∀ (table : Table) (request : Request), installed = some table →
    Table.StrictlySorted table.entries.toList →
    ((∃ entry, table.find ⟨request.funcId, request.args⟩ = some entry) ↔
      ∃ entry ∈ table.entries.toList, entry.funcId = request.funcId ∧ entry.args = request.args)

theorem leavesSlot_of_no_hit {session : Session} {command : Command} {slot : SlotId}
    (hnone : ∀ table request entry, session.installed = some table →
      command.lookedUp (session.step command).1 = some request → request.slot = slot →
      table.find ⟨request.funcId, request.args⟩ ≠ some entry) :
    session.LeavesSlot command slot := by
  have hhit : command.hit (session.step command).1 slot session.installed = none := by
    rw [Option.eq_none_iff_forall_ne_some]
    intro func hfunc
    obtain ⟨table, request, entry, hinstalled, hlookup, hslot, hfound, -⟩ :=
      Command.hit_eq_some_iff.mp hfunc
    exact hnone table request entry hinstalled hlookup hslot hfound
  rw [LeavesSlot, (moves_step session command).read_slot, hhit, Option.none_or]

theorem read_slot_of_hit {session : Session} {command : Command} {slot : SlotId} {table : Table}
    {request : Request} {entry : Entry} (hinstalled : session.installed = some table)
    (hlookup : command.lookedUp (session.step command).1 = some request)
    (hslot : request.slot = slot)
    (hfound : table.find ⟨request.funcId, request.args⟩ = some entry) :
    entry ∈ table.entries.toList ∧ entry.funcId = request.funcId ∧ entry.args = request.args ∧
      (session.step command).2.slots.read slot = some entry.specialized := by
  obtain ⟨hmem, hkey⟩ := Table.find_sound hfound
  obtain ⟨hfunc, hargs⟩ := Entry.key_eq_iff.mp hkey
  have hhit : command.hit (session.step command).1 slot session.installed =
      some entry.specialized :=
    Command.hit_eq_some_iff.mpr ⟨table, request, entry, hinstalled, hlookup, hslot, hfound, rfl⟩
  refine ⟨hmem, hfunc, hargs, ?_⟩
  rw [(moves_step session command).read_slot, hhit, Option.some_or]

theorem servesSlot_step (session : Session) (command : Command) (slot : SlotId) :
    session.ServesSlot command slot session.installed where
  changed := by
    intro hchanged
    by_contra hnone
    apply hchanged
    apply leavesSlot_of_no_hit
    intro table request entry hinstalled hlookup hslot hfound
    exact hnone ⟨table, request, entry, hinstalled, hlookup, hslot,
      read_slot_of_hit hinstalled hlookup hslot hfound⟩
  hit := by
    intro table request entry hinstalled hlookup hslot hfound
    exact read_slot_of_hit hinstalled hlookup hslot hfound
  miss := by
    intro table request hinstalled hlookup hmiss
    apply leavesSlot_of_no_hit
    intro other wanted entry hother hwanted _ hfound
    rw [hinstalled] at hother
    rw [hlookup] at hwanted
    cases hother
    cases hwanted
    rw [hmiss] at hfound
    cases hfound
  elsewhere := by
    intro request hlookup hslot
    apply leavesSlot_of_no_hit
    intro table wanted entry _ hwanted hsame
    rw [hlookup] at hwanted
    cases hwanted
    exact absurd hsame hslot
  early := by
    intro hinstalled
    apply leavesSlot_of_no_hit
    intro table request entry htable
    rw [hinstalled] at htable
    cases htable
  refused := by
    intro error hrefused
    apply leavesSlot_of_no_hit
    intro table request entry _ hlookup
    rw [hrefused] at hlookup
    cases hlookup
  released := by
    rintro handle rfl
    exact congrArg (Slots.read · slot) (slots_release session handle)
  installing := by
    rintro table rfl
    exact congrArg (Slots.read · slot) (session.install_frame table).2.2
  hit_iff := by
    intro table request _ hsorted
    simp only [Table.find_eq_some_iff hsorted, Entry.key_eq_iff]

/-- Slots receive hits and nothing else. After any run of a new session, a slot holds the function
of the last hit that was directed at it, or what it held before if there was none; and whatever
command comes next, it changes the slot only by a hit. -/
theorem slots_hold_last_hit (policy : Policy) (slots : Slots) (commands : List Command)
    (slot : SlotId) :
    ({ start policy with slots := slots }.run commands).slots.read slot =
      (({ start policy with slots := slots }.history commands).hits slot none).getLast?.or
        (slots.read slot) ∧
    ∀ command : Command, ({ start policy with slots := slots }.run commands).ServesSlot command slot
      ({ start policy with slots := slots }.history commands).installed := by
  refine ⟨read_slot_run _ commands slot, ?_⟩
  intro command
  have hinstalled : ({ start policy with slots := slots }.run commands).installed =
      ({ start policy with slots := slots }.history commands).installed := by
    rw [installed_run]
    rfl
  rw [← hinstalled]
  exact servesSlot_step _ command slot

end Session

end Residual
