import Mathlib.Data.List.Forall2
import Residual.Proofs.Guest.LookupArray
import Residual.Proofs.Guest.PendingChain
import Residual.Proofs.Lookup.Sorting
import Residual.Proofs.Session.Identity
import Residual.TwoRun

/-!
# The second run calls what was chosen

Whatever a first run asked for and whatever was chosen for it, the second run finds exactly the
chosen functions: a call gets the function that was chosen for a call with the same intent, and
nothing if there was none.
-/

namespace Residual.TwoRun

open Guest

namespace Call

/-- What a call asks for: a function, and the descriptors of the arguments. Floating-point arguments
are compared by their bit patterns. -/
def intent (call : Call) : UInt32 × List Descriptor :=
  (call.site.funcId, call.operands.map Operand.lower)

/-- The request that a call hands over. -/
def request (call : Call) : Request :=
  call.site.request (Descriptor.canonicalAll (call.operands.map Operand.lower))

/-- Every argument is one that the format can state. -/
def Representable (call : Call) : Prop :=
  ∀ descriptor ∈ call.operands.map Operand.lower, Descriptor.Representable descriptor

/-- A record in guest memory asks for what the call asks for. -/
def Names (call : Call) (record : PendingRecord) : Prop :=
  record.funcId = call.site.funcId ∧
    decodeAll record.args = .ok (call.operands.map Operand.lower)

theorem key_eq_iff {left right : Call} (hleft : left.Representable) (hright : right.Representable) :
    left.request.key = right.request.key ↔ left.intent = right.intent := by
  unfold intent
  rw [Prod.mk.injEq]
  exact CallSite.key_request_eq_iff hleft hright

theorem names_of_key {call : Call} {record : PendingRecord} (hcall : call.Representable)
    (hkey : record.key = call.request.key) : call.Names record := by
  have hargs : record.args = Descriptor.canonicalAll (call.operands.map Operand.lower) :=
    congrArg Key.args hkey
  refine ⟨congrArg Key.funcId hkey, ?_⟩
  rw [hargs]
  exact decodeAll_canonicalAll _ hcall

end Call

theorem representable_of_written {policy : Policy} {operands : List Operand} {buffer : ArgBuffer}
    (hwritten : (ArgBuffer.empty policy).describeAll (operands.map Operand.lower) = .ok buffer)
    (site : CallSite) : (Call.mk site operands).Representable :=
  (ArgBuffer.describeAll_eq_ok _ buffer _ hwritten).2.2

/-- The calls of the first run are pending in reverse order. -/
theorem requestAll_eq_ok {session after : Session} {calls : List Call} {requests : List Request}
    (hcollects : session.Collects requests) (hcalls : requestAll session calls = .ok after) :
    after.Collects (calls.reverse.map Call.request ++ requests) ∧
      ∀ call ∈ calls, call.Representable := by
  -- Every request goes in front of those before it, so the invariant grows at its head.
  induction calls generalizing session requests with
  | nil =>
      cases hcalls
      exact ⟨hcollects, fun _ hmem => absurd hmem List.not_mem_nil⟩
  | cons call rest ih =>
      unfold requestAll at hcalls
      split at hcalls
      next => cases hcalls
      next handle middle hrequest =>
        obtain ⟨buffer, hwritten⟩ := Session.written_of_request hrequest
        obtain ⟨events, hsubmit⟩ := Session.request_of_written hwritten call.site
        rw [hrequest] at hsubmit
        cases hsubmit
        obtain ⟨hafter, hrest⟩ := ih ((hcollects.record events).submit call.request) hcalls
        refine ⟨?_, List.forall_mem_cons.mpr ⟨representable_of_written hwritten call.site, hrest⟩⟩
        rw [List.reverse_cons, List.map_append, List.append_assoc]
        exact hafter

theorem mem_chosenEntries {records : List PendingRecord} {choices : List (Option FuncRef)}
    {entry : Entry} :
    entry ∈ chosenEntries records choices ↔
      ∃ (index : Nat) (record : PendingRecord), records[index]? = some record ∧
        choices[index]? = some (some entry.specialized) ∧ record.key = entry.key := by
  unfold chosenEntries
  rw [List.mem_filterMap]
  constructor
  · rintro ⟨⟨record, choice⟩, hmem, hentry⟩
    obtain ⟨index, hindex⟩ := List.mem_iff_getElem?.mp hmem
    obtain ⟨hrecord, hchoice⟩ := List.getElem?_zip_eq_some.mp hindex
    obtain ⟨func, rfl, rfl⟩ := Option.map_eq_some_iff.mp hentry
    exact ⟨index, record, hrecord, hchoice, rfl⟩
  · rintro ⟨index, record, hrecord, hchoice, hkey⟩
    have hindex : (records.zip choices)[index]? = some (record, some entry.specialized) :=
      List.getElem?_zip_eq_some.mpr ⟨hrecord, hchoice⟩
    refine ⟨_, List.mem_of_getElem? hindex, ?_⟩
    obtain ⟨hfunc, hargs⟩ := Key.mk.inj hkey
    change some (Entry.mk record.funcId record.args entry.specialized) = some entry
    rw [hfunc, hargs]

/-- A sorted table that was laid out with the numbering of the image is installed as it was. -/
theorem exists_secondRun_eq_ok {image : PendingImage} {table : Table} {tableBase : UInt32}
    {index later : FuncIndex} {written : Memory}
    (hsorted : Table.StrictlySorted table.entries.toList)
    (hwrite : writeTable table tableBase index = (.ok written, later)) :
    ∃ second, secondRun ⟨image, written, later⟩ = .ok second ∧ second.installed = some table ∧
      second.policy = .standard ∧ second.slots = .empty := by
  obtain ⟨hnumbered, hread⟩ := readTable_of_dense hwrite (hasAt_writeTable hwrite)
  have hkeys : (table.entries.toList.map (numberedEntry later)).map Entry.key =
      table.entries.toList.map Entry.key := by
    rw [List.map_map]
    rfl
  rw [Table.ofSorted_eq_ok ((Table.strictlySorted_congr hkeys).mpr hsorted)] at hread
  have hrestored := restoreFunctions_numbered hnumbered
  have htable : Table.ofUnchecked table.entries.toList = table := by
    rw [Table.ofUnchecked, Array.toArray_toList]
  rw [htable] at hrestored
  have hinstall := Session.install_eq_ok (.start .standard) table rfl
    fun _ => Table.check_eq_ok hsorted
  refine ⟨{ Session.start .standard with installed := some table }.record
    [.installing table.size], ?_, rfl, rfl, rfl⟩
  unfold secondRun
  rw [Error.bind_eq_ok_iff]
  refine ⟨_, hread, ?_⟩
  rw [Error.bind_eq_ok_iff]
  refine ⟨_, hrestored, ?_⟩
  rw [hinstall]
  rfl

theorem names_of_keys {records : List PendingRecord} {calls : List Call}
    (hkeys : records.map PendingRecord.key = calls.map fun call => call.request.key)
    (hcalls : ∀ call ∈ calls, call.Representable) : List.Forall₂ Call.Names calls records := by
  induction calls generalizing records with
  | nil =>
      rw [List.map_nil, List.map_eq_nil_iff] at hkeys
      rw [hkeys]
      exact .nil
  | cons call rest ih =>
      obtain ⟨record, others, rfl, hkey, hothers⟩ := List.map_eq_cons_iff.mp hkeys
      obtain ⟨hcall, hrest⟩ := List.forall_mem_cons.mp hcalls
      exact .cons (Call.names_of_key hcall hkey) (ih hothers hrest)

/-- The functions chosen for a key are those chosen for the calls with that key. -/
theorem exists_chosen_iff {records : List PendingRecord} {calls : List Call}
    (hkeys : records.map PendingRecord.key = calls.map fun call => call.request.key)
    (choices : List (Option FuncRef)) (key : Key) (func : FuncRef) :
    (∃ entry ∈ chosenEntries records choices, entry.key = key ∧ entry.specialized = func) ↔
      ∃ (index : Nat) (call : Call), choices[index]? = some (some func) ∧
        calls[index]? = some call ∧ call.request.key = key := by
  have hmatch (index : Nat) : records[index]?.map PendingRecord.key =
      calls[index]?.map fun call => call.request.key := by
    rw [← List.getElem?_map, hkeys, List.getElem?_map]
  constructor
  · rintro ⟨entry, hmem, rfl, rfl⟩
    obtain ⟨index, record, hrecord, hchoice, hkey⟩ := mem_chosenEntries.mp hmem
    have hindex := hmatch index
    rw [hrecord, Option.map_some] at hindex
    obtain ⟨call, hcall, hrequest⟩ := Option.map_eq_some_iff.mp hindex.symm
    exact ⟨index, call, hchoice, hcall, hrequest.trans hkey⟩
  · rintro ⟨index, call, hchoice, hcall, rfl⟩
    have hindex := hmatch index
    rw [hcall, Option.map_some] at hindex
    obtain ⟨record, hrecord, hkey⟩ := Option.map_eq_some_iff.mp hindex
    refine ⟨⟨record.funcId, record.args, func⟩, ?_, hkey, rfl⟩
    exact mem_chosenEntries.mpr ⟨index, record, hrecord, hchoice, rfl⟩

/-- From this session on, whatever happens meanwhile, a call through an empty slot succeeds if its
arguments can be written, and leaves in the slot what was chosen for an earlier call with the same
intent, or nothing if nothing was. -/
def Serves (session : Session) (earlier : List Call) (choices : List (Option FuncRef)) : Prop :=
  ∀ (commands : List Command) (call : Call) (buffer : ArgBuffer),
    (ArgBuffer.empty .standard).describeAll (call.operands.map Operand.lower) = .ok buffer →
    (session.run commands).slots.read call.site.slot = none →
    ∃ handle after, (session.run commands).request call.site call.operands = (.ok handle, after) ∧
      ∀ func, after.slots.read call.site.slot = some func ↔
        ∃ (index : Nat) (chosen : Call), choices[index]? = some (some func) ∧
          earlier[index]? = some chosen ∧ chosen.intent = call.intent

theorem serves_of_installed {second : Session} {table : Table} {records : List PendingRecord}
    {earlier : List Call} {choices : List (Option FuncRef)}
    (hinstalled : second.installed = some table) (hpolicy : second.policy = .standard)
    (hsorted : Table.StrictlySorted table.entries.toList)
    (hentries : table.entries.toList.Perm (chosenEntries records choices))
    (hkeys : records.map PendingRecord.key = earlier.map fun call => call.request.key)
    (hearlier : ∀ call ∈ earlier, call.Representable) : Serves second earlier choices := by
  intro commands call buffer hwritten hempty
  -- Whatever ran meanwhile, the table is still the one that was installed.
  have hkeeps := Session.keeps_run hinstalled commands
  have hcall := representable_of_written hwritten call.site
  rw [← hpolicy, ← hkeeps.policy] at hwritten
  obtain ⟨handle, after, hrequest, hslot⟩ := Session.read_slot_request
    (hkeeps.installed.trans hinstalled) hsorted hwritten hempty
  refine ⟨handle, after, hrequest, ?_⟩
  intro func
  have hchosen := exists_chosen_iff hkeys choices call.request.key func
  simp only [← hentries.mem_iff] at hchosen
  rw [hslot func]
  change (∃ entry ∈ table.entries.toList, entry.key = call.request.key ∧
    entry.specialized = func) ↔ _
  rw [hchosen]
  constructor
  · rintro ⟨index, chosen, hchoice, hindex, hkey⟩
    have hrepresentable := hearlier chosen (List.mem_of_getElem? hindex)
    exact ⟨index, chosen, hchoice, hindex, (Call.key_eq_iff hrepresentable hcall).mp hkey⟩
  · rintro ⟨index, chosen, hchoice, hindex, hintent⟩
    have hrepresentable := hearlier chosen (List.mem_of_getElem? hindex)
    exact ⟨index, chosen, hchoice, hindex, (Call.key_eq_iff hrepresentable hcall).mpr hintent⟩

/-- The image of a first run can be read, and its records ask for what the calls asked for, newest
call first. -/
theorem readPending_snapshot {slots : Slots} {calls : List Call} {session : Session} {base : UInt32}
    {image : PendingImage} {index : FuncIndex}
    (hcalls : requestAll { Session.start .standard with slots := slots } calls = .ok session)
    (hsnapshot : snapshot session base .empty = (.ok image, index)) :
    ∃ records, readPending image.memory image.head = .ok records ∧
      (records.map PendingRecord.key = calls.reverse.map fun call => call.request.key) ∧
      ∀ call ∈ calls.reverse, call.Representable := by
  obtain ⟨hcollects, hrepresentable⟩ :=
    requestAll_eq_ok (Session.collects_start .standard slots) hcalls
  rw [snapshot, hcollects.pending_eq, List.append_nil] at hsnapshot
  obtain ⟨numbers, -, hread⟩ := readPending_of_written hsnapshot (hasAt_writePending hsnapshot)
  refine ⟨_, hread, (map_key_chainRecords _ _ _ _).trans List.map_map, ?_⟩
  exact fun call hmem => hrepresentable call (List.mem_reverse.mp hmem)

/-- A table of what was chosen, laid out with the numbering of the image, starts a second run that
serves the choices. -/
theorem exists_serving_secondRun {image : PendingImage} {table : Table} {tableBase : UInt32}
    {index later : FuncIndex} {written : Memory} {records : List PendingRecord}
    {earlier : List Call} {choices : List (Option FuncRef)} {entries : List Entry}
    (hkeys : records.map PendingRecord.key = earlier.map fun call => call.request.key)
    (hearlier : ∀ call ∈ earlier, call.Representable)
    (hchosen : entries.Perm (chosenEntries records choices))
    (htable : Table.ofUnsorted entries = .ok table)
    (hwrite : writeTable table tableBase index = (.ok written, later)) :
    ∃ second, secondRun ⟨image, written, later⟩ = .ok second ∧ second.slots = .empty ∧
      Serves second earlier choices := by
  obtain ⟨hperm, hsorted⟩ := (Table.ofUnsorted_eq_ok_iff entries table).mp htable
  obtain ⟨second, hsecond, hinstalled, hpolicy, hslots⟩ := exists_secondRun_eq_ok hsorted hwrite
  refine ⟨second, hsecond, hslots, ?_⟩
  exact serves_of_installed hinstalled hpolicy hsorted (hperm.trans hchosen) hkeys hearlier

/-- What a first run that hands something over has done. -/
theorem firstRun_eq_ok {calls : List Call} {base tableBase : UInt32}
    {choices : List (Option FuncRef)} {handover : Handover}
    (hfirst : firstRun calls base tableBase choices = .ok handover) :
    ∃ session index records table,
      requestAll (.start .standard) calls = .ok session ∧
      snapshot session base .empty = (.ok handover.image, index) ∧
      readPending handover.image.memory handover.image.head = .ok records ∧
      Table.ofUnsorted (chosenEntries records choices) = .ok table ∧
      writeTable table tableBase index = (.ok handover.table, handover.index) := by
  unfold firstRun at hfirst
  obtain ⟨session, hcalls, hfirst⟩ := (Error.bind_eq_ok_iff _ _ _).mp hfirst
  dsimp only at hfirst
  obtain ⟨image, himage, hfirst⟩ := (Error.bind_eq_ok_iff _ _ _).mp hfirst
  obtain ⟨records, hread, hfirst⟩ := (Error.bind_eq_ok_iff _ _ _).mp hfirst
  obtain ⟨table, htable, hfirst⟩ := (Error.bind_eq_ok_iff _ _ _).mp hfirst
  obtain ⟨written, hwritten, hfirst⟩ := (Error.bind_eq_ok_iff _ _ _).mp hfirst
  cases hfirst
  exact ⟨session, _, records, table, hcalls, Prod.ext himage rfl, hread, htable,
    Prod.ext hwritten rfl⟩

/-- Both runs. Whenever the first run hands something over, the second run starts from it, with all
slots empty, and serves every call what was chosen for its intent. -/
theorem exists_secondRun_of_firstRun {calls : List Call} {base tableBase : UInt32}
    {choices : List (Option FuncRef)} {handover : Handover}
    (hfirst : firstRun calls base tableBase choices = .ok handover) :
    ∃ second, secondRun handover = .ok second ∧ second.slots = .empty ∧
      Serves second calls.reverse choices := by
  obtain ⟨session, index, records, table, hcalls, hsnapshot, hread, htable, hwrite⟩ :=
    firstRun_eq_ok hfirst
  obtain ⟨found, hfound, hkeys, hearlier⟩ := @readPending_snapshot .empty _ _ _ _ _ hcalls hsnapshot
  rw [hread] at hfound
  cases hfound
  exact exists_serving_secondRun hkeys hearlier (.refl _) htable hwrite

/-- The whole protocol. Whatever the first run asks for, its image can be read, newest call first.
Whatever is then chosen, as long as no key is chosen twice, gives a table. Once the table is laid
out with the same numbering, the second run starts and serves every call what was chosen for its
intent. -/
theorem second_run_serves_choices (slots : Slots) (calls : List Call) (session : Session)
    (base : UInt32) (image : PendingImage) (index : FuncIndex)
    (hcalls : requestAll { Session.start .standard with slots := slots } calls = .ok session)
    (hsnapshot : snapshot session base .empty = (.ok image, index)) :
    ∃ records, readPending image.memory image.head = .ok records ∧
      List.Forall₂ Call.Names calls.reverse records ∧
      ∀ (choices : List (Option FuncRef)) (entries : List Entry),
        entries.Perm (chosenEntries records choices) → (entries.map Entry.key).Nodup →
        ∃ table, Table.ofUnsorted entries = .ok table ∧
          ∀ (tableBase : UInt32) (written : Memory) (later : FuncIndex),
            writeTable table tableBase index = (.ok written, later) →
            ∃ second, secondRun ⟨image, written, later⟩ = .ok second ∧
              second.slots = .empty ∧ Serves second calls.reverse choices := by
  obtain ⟨records, hread, hkeys, hearlier⟩ := readPending_snapshot hcalls hsnapshot
  refine ⟨records, hread, names_of_keys hkeys hearlier, ?_⟩
  intro choices entries hchosen hdistinct
  obtain ⟨table, htable⟩ := (Table.exists_ofUnsorted_eq_ok_iff entries).mpr hdistinct
  refine ⟨table, htable, ?_⟩
  intro tableBase written later hwrite
  exact exists_serving_secondRun hkeys hearlier hchosen htable hwrite

/-- A float and a memory region are asked for, then a truth value. -/
def mixedCalls : List Call :=
  [⟨⟨7, ⟨64, by decide⟩, 2, ⟨0⟩⟩, [.f32 0x7FC00001, .memory [1, 2, 3]]⟩,
    ⟨⟨9, ⟨65, by decide⟩, 1, ⟨1⟩⟩, [.bool true]⟩]

/-- What is chosen for the truth value. -/
def boolFunction : FuncRef := ⟨80, by decide⟩

/-- A word with the value one gets the function chosen for the truth value, and the first call made
again gets none. -/
theorem second_run_serves_choices_word_for_bool :
    ∃ session image index records table written later second,
      requestAll { Session.start .standard with slots := .empty } mixedCalls = .ok session ∧
      snapshot session 4096 .empty = (.ok image, index) ∧
      readPending image.memory image.head = .ok records ∧
      Table.ofUnsorted (chosenEntries records [some boolFunction, none]) = .ok table ∧
      writeTable table 8192 index = (.ok written, later) ∧
      secondRun ⟨image, written, later⟩ = .ok second ∧
      (∃ handle after, second.request ⟨9, ⟨66, by decide⟩, 1, ⟨5⟩⟩ [.u32 1] = (.ok handle, after) ∧
        after.slots.read ⟨5⟩ = some boolFunction) ∧
      (∃ handle after, second.request ⟨7, ⟨64, by decide⟩, 2, ⟨0⟩⟩
          [.f32 0x7FC00001, .memory [1, 2, 3]] = (.ok handle, after) ∧
        after.slots.read ⟨0⟩ = none) := by
  have hsome :
      (firstRun mixedCalls 4096 8192 [some boolFunction, none]).toOption.isSome = true := by
    decide +kernel
  obtain ⟨handover, hfirst⟩ := Error.exists_eq_ok hsome
  obtain ⟨session, index, records, table, hcalls, hsnapshot, hread, htable, hwrite⟩ :=
    firstRun_eq_ok hfirst
  obtain ⟨found, hfound, -, hchoices⟩ :=
    second_run_serves_choices .empty mixedCalls session 4096 handover.image index hcalls hsnapshot
  rw [hread] at hfound
  cases hfound
  obtain ⟨built, hbuilt, hruns⟩ := hchoices _ _ (.refl _)
    ((Table.exists_ofUnsorted_eq_ok_iff _).mp ⟨table, htable⟩)
  rw [htable] at hbuilt
  cases hbuilt
  obtain ⟨second, hsecond, hslots, hserves⟩ := hruns 8192 handover.table handover.index hwrite
  refine ⟨session, handover.image, index, records, table, handover.table, handover.index, second,
    hcalls, hsnapshot, hread, htable, hwrite, hsecond, ?_, ?_⟩
  · have hword : ((ArgBuffer.empty .standard).describeAll
        ([Operand.u32 1].map Operand.lower)).toOption.isSome = true := by decide +kernel
    obtain ⟨buffer, hbuffer⟩ := Error.exists_eq_ok hword
    obtain ⟨handle, after, hrequest, hslot⟩ := hserves []
      ⟨⟨9, ⟨66, by decide⟩, 1, ⟨5⟩⟩, [.u32 1]⟩ buffer hbuffer (congrArg (Slots.read · ⟨5⟩) hslots)
    exact ⟨handle, after, hrequest, (hslot _).mpr ⟨0, _, rfl, rfl, rfl⟩⟩
  · have hmixed : ((ArgBuffer.empty .standard).describeAll
        ([Operand.f32 0x7FC00001, .memory [1, 2, 3]].map
          Operand.lower)).toOption.isSome = true := by decide +kernel
    obtain ⟨buffer, hbuffer⟩ := Error.exists_eq_ok hmixed
    obtain ⟨handle, after, hrequest, hslot⟩ := hserves []
      ⟨⟨7, ⟨64, by decide⟩, 2, ⟨0⟩⟩, [.f32 0x7FC00001, .memory [1, 2, 3]]⟩ buffer hbuffer
      (congrArg (Slots.read · ⟨0⟩) hslots)
    refine ⟨handle, after, hrequest, Option.eq_none_iff_forall_ne_some.mpr ?_⟩
    intro func hfunc
    obtain ⟨place, chosen, hchoice, hplace, hintent⟩ := (hslot func).mp hfunc
    match place with
    | 0 =>
        cases hplace
        cases hintent
    | 1 => cases hchoice
    | place + 2 => cases hchoice

end Residual.TwoRun
