import Residual.Proofs.Guest.Refusal

/-!
# A numbering shared by many images

Functions get their indices one at a time, on their own or while an image names them. Over any
number of images that share a dense numbering, each function has one index from its first use on,
indices are given out in the order of first uses and without gaps, and every index leads back to its
function.
-/

namespace Residual

namespace Bytes

theorem wordAt_append_left {first : Bytes} (second : Bytes) {offset : Nat}
    (hinside : offset + 4 ≤ first.length) :
    (first ++ second).wordAt offset = first.wordAt offset := by
  unfold wordAt
  rw [List.drop_append_of_le_length (by omega),
    List.take_append_of_le_length (by rw [List.length_drop]; omega)]

theorem wordAt_append_right (first second : Bytes) (offset : Nat) :
    (first ++ second).wordAt (first.length + offset) = second.wordAt offset := by
  unfold wordAt
  rw [← List.drop_drop, List.drop_left]

theorem wordAt_word32 (word : UInt32) (after : Bytes) : (word32 word ++ after).wordAt 0 = word := by
  rw [wordAt, List.drop_zero, List.take_left' (length_word32 word), ofNat_decode_word32]

end Bytes

namespace Guest

/-- The functions that a laid-out request names, each with the index found in its place: the generic
function in the record, and that of the slot in its cell. -/
def requestIndices (slots : Slots) (data : Bytes) (place : Nat × Request) :
    List (FuncRef × UInt32) :=
  (place.2.generic, data.wordAt (place.1 + 12)) ::
    (slots.read place.2.slot).toList.map fun func => (func, data.wordAt (place.1 + 32))

/-- The functions that the image of a chain names, each with the index found in its place. -/
def chainIndices (slots : Slots) (requests : List Request) (data : Bytes) :
    List (FuncRef × UInt32) :=
  (chainOffsets 0 requests).flatMap (requestIndices slots data)

/-- The functions of some entries with records from `offset` on, each with the index found in its
record. -/
def recordIndices (data : Bytes) : (offset : Nat) → List Entry → List (FuncRef × UInt32)
  | _, [] => []
  | offset, entry :: rest =>
    (entry.specialized, data.wordAt (offset + 12)) :: recordIndices data (offset + 16) rest

/-- The functions that the image of a table names, each with the index found in its record. -/
def tableIndices (entries : List Entry) (data : Bytes) : List (FuncRef × UInt32) :=
  recordIndices data 8 entries

theorem wordAt_func (item : PendingItem) (address prev next : Nat) (after : Bytes) :
    (item.encode address prev next ++ after).wordAt 12 = item.func := by
  have hrecord := RequestRecord.length_encode (item.record address prev next)
  simp only [PendingItem.encode, List.append_assoc]
  rw [Bytes.wordAt_append_left _ (by rw [hrecord]; decide)]
  exact congrArg RequestRecord.func (RequestRecord.decode_encode _)

theorem wordAt_resolved (item : PendingItem) (address prev next : Nat) (after : Bytes) :
    (item.encode address prev next ++ after).wordAt 32 = item.resolved := by
  have hfront : ((item.record address prev next).encode ++ Bytes.zeros 4).length = 32 := by
    rw [List.length_append, RequestRecord.length_encode]
    rfl
  rw [PendingItem.encode, List.append_assoc, List.append_assoc, ← hfront]
  exact (Bytes.wordAt_append_right _ _ 0).trans (by rw [List.append_assoc, Bytes.wordAt_word32])

theorem requestIndices_item {slots : Slots} {request : Request} {numbers : List UInt32}
    (hnumbers : numbers.length = (requestFunctions slots request).length)
    (address prev next : Nat) (before after : Bytes) :
    requestIndices slots
        (before ++ ((pendingItem request numbers).encode address prev next ++ after))
        (before.length, request) =
      (requestFunctions slots request).zip numbers := by
  unfold requestIndices
  dsimp only
  rw [Bytes.wordAt_append_right, Bytes.wordAt_append_right, wordAt_func, wordAt_resolved]
  unfold requestFunctions at hnumbers ⊢
  cases hslot : slots.read request.slot with
  | none =>
      rw [hslot] at hnumbers
      obtain ⟨func, rfl⟩ := List.length_eq_one_iff.mp hnumbers
      rfl
  | some func =>
      rw [hslot] at hnumbers
      obtain ⟨generic, resolved, rfl⟩ := List.length_eq_two.mp hnumbers
      rfl

/-- A laid-out chain names every function by the index that it was given. -/
theorem chainIndices_chain {slots : Slots} {requests : List Request} {numbers : List UInt32}
    (hnumbers : numbers.length = (chainFunctions slots requests).length) (prev address : Nat) :
    chainIndices slots requests (chain prev address (pendingItems slots requests numbers)) =
      (chainFunctions slots requests).zip numbers := by
  -- The requests before the first one at hand are kept in front of it.
  suffices hbehind : ∀ before : Bytes,
      (chainOffsets before.length requests).flatMap (requestIndices slots
        (before ++ chain prev address (pendingItems slots requests numbers))) =
      (chainFunctions slots requests).zip numbers from hbehind []
  induction requests generalizing prev address numbers with
  | nil =>
      intro before
      rfl
  | cons request rest ih =>
      intro before
      rw [chainFunctions_cons, List.length_append] at hnumbers
      obtain ⟨own, others, rfl, hown⟩ : ∃ own others, numbers = own ++ others ∧
          own.length = (requestFunctions slots request).length :=
        ⟨_, _, (List.take_append_drop _ numbers).symm, List.length_take_of_le (by omega)⟩
      have hothers : others.length = (chainFunctions slots rest).length := by
        rw [List.length_append] at hnumbers
        omega
      have hlength : ∀ next, (before ++ (pendingItem request own).encode address prev next).length =
          before.length + (RequestRecord.argOffset + Bytes.roundUp request.args.length) := by
        intro next
        rw [List.length_append, PendingItem.length_encode]
        rfl
      rw [chainFunctions_cons, List.zip_append hown.symm, chainOffsets_cons, List.flatMap_cons,
        pendingItems_append hown, chain, requestIndices_item hown, ← List.append_assoc before,
        ← hlength, ih hothers]

theorem recordIndices_lookupRecords {entries : List Entry} {numbers : List UInt32}
    (hnumbers : numbers.length = entries.length) (address : Nat) (front behind : Bytes) :
    recordIndices (front ++ (lookupRecords address entries numbers ++ behind)) front.length
        entries =
      (entries.map Entry.specialized).zip numbers := by
  induction entries generalizing address front numbers with
  | nil => rfl
  | cons entry rest ih =>
      obtain ⟨number, others, rfl⟩ := List.exists_cons_of_length_eq_add_one hnumbers
      have hrecord := LookupRecord.length_encode (lookupRecord address entry number)
      have hfunc : ((lookupRecord address entry number).encode ++
          (lookupRecords (address + Bytes.roundUp entry.args.length) rest others ++
            behind)).wordAt 12 = number := by
        rw [Bytes.wordAt_append_left _ (by rw [hrecord]; decide)]
        exact congrArg LookupRecord.specialized (LookupRecord.decode_encode _)
      have hfront : (front ++ (lookupRecord address entry number).encode).length =
          front.length + 16 := by
        rw [List.length_append, hrecord]
        rfl
      rw [recordIndices, lookupRecords_cons, List.append_assoc, Bytes.wordAt_append_right, hfunc,
        List.map_cons, List.zip_cons_cons, ← hfront, ← List.append_assoc front,
        ih (Nat.succ.inj hnumbers)]

/-- A laid-out table names every function by the index that it was given. -/
theorem tableIndices_tableBytes {entries : List Entry} {numbers : List UInt32}
    (hnumbers : numbers.length = entries.length) (base : Nat) :
    tableIndices entries (tableBytes base entries numbers) =
      (entries.map Entry.specialized).zip numbers := by
  have hheader : (tableHeader base entries).encode.length = 8 := LookupHeader.length_encode _
  rw [tableIndices, tableBytes, List.append_assoc, ← hheader]
  exact recordIndices_lookupRecords hnumbers _ _ _

end Guest

open Guest

/-- Ways to ask a numbering for indices: for a function, or for all functions that an image
names. -/
inductive NumberingCommand where
  | assign (func : FuncRef)
  | writePending (slots : Slots) (requests : List Request) (base : UInt32)
  | writeTable (table : Table) (base : UInt32)

/-- What comes back: an index, or an image that holds the indices. -/
inductive NumberingReply where
  | assigned (result : Except Error UInt32)
  | pending (result : Except Error PendingImage)
  | table (result : Except Error Memory)

namespace NumberingCommand

/-- The functions that a command asks indices for, in this order. For an image without a place it
asks for none. -/
def functions : NumberingCommand → List FuncRef
  | assign func => [func]
  | writePending slots requests base =>
    if base ≠ 0 ∧ base.toNat + chainSize requests < 2 ^ 32 then chainFunctions slots requests
    else []
  | writeTable table base =>
    if base.toNat + tableSize table.entries.toList < 2 ^ 32 then
      table.entries.toList.map Entry.specialized
    else []

/-- The indices that a command got, each with its function. -/
def indices : NumberingCommand → NumberingReply → List (FuncRef × UInt32)
  | assign func, .assigned (.ok number) => [(func, number)]
  | writePending slots requests _, .pending (.ok image) =>
    chainIndices slots requests image.memory.data
  | writeTable table _, .table (.ok memory) => tableIndices table.entries.toList memory.data
  | _, _ => []

end NumberingCommand

namespace FuncIndex

/-- The answer to a command and the numbering after it. -/
def step (index : FuncIndex) : NumberingCommand → NumberingReply × FuncIndex
  | .assign func => (.assigned (FuncTable.assign index func).1, (FuncTable.assign index func).2)
  | .writePending slots requests base =>
    (.pending (Guest.writePending slots requests base index).1,
      (Guest.writePending slots requests base index).2)
  | .writeTable table base =>
    (.table (Guest.writeTable table base index).1, (Guest.writeTable table base index).2)

/-- The indices that a sequence of commands got, each with its function, and the numbering after
them. -/
def run (index : FuncIndex) : List NumberingCommand → List (FuncRef × UInt32) × FuncIndex
  | [] => ([], index)
  | command :: rest =>
    let (reply, next) := index.step command
    let (later, last) := next.run rest
    (command.indices reply ++ later, last)

theorem HasRoom.left {index : FuncIndex} {funcs rest : List FuncRef}
    (hroom : index.HasRoom (funcs ++ rest)) : index.HasRoom funcs := by
  refine Nat.lt_of_le_of_lt (Finset.card_le_card ?_) hroom
  intro func
  simp only [List.mem_toFinset, List.mem_append]
  exact Or.imp_right Or.inl

/-- With room for its functions, a command gets an index for each of them and leaves them
numbered. -/
theorem step_of_assignAll {index later : FuncIndex} {command : NumberingCommand}
    {numbers : List UInt32}
    (hassign : FuncTable.assignAll index command.functions = (.ok numbers, later)) :
    (index.step command).2 = later ∧
      command.indices (index.step command).1 = command.functions.zip numbers := by
  have hnumbers := FuncTable.length_of_assignAll hassign
  cases command with
  | assign func =>
      obtain ⟨number, middle, others, hfunc, hrest, rfl⟩ := FuncTable.assignAll_cons_eq_ok hassign
      cases hrest
      rw [step, hfunc]
      exact ⟨rfl, rfl⟩
  | writePending slots requests base =>
      rw [NumberingCommand.functions] at hassign hnumbers ⊢
      rw [step, writePending_eq]
      by_cases hplace : base ≠ 0 ∧ base.toNat + chainSize requests < 2 ^ 32
      · rw [if_pos hplace] at hassign hnumbers ⊢
        rw [if_neg hplace.1, if_neg (by omega), if_neg (by omega), hassign]
        exact ⟨rfl, chainIndices_chain hnumbers 0 base.toNat⟩
      · rw [if_neg hplace] at hassign ⊢
        cases hassign
        by_cases hbase : base = 0
        · rw [if_pos hbase]
          exact ⟨rfl, rfl⟩
        · rw [if_neg hbase]
          have hspace : 2 ^ 32 ≤ base.toNat + chainSize requests :=
            Nat.not_lt.mp fun hlt => hplace ⟨hbase, hlt⟩
          rw [if_pos hspace]
          split <;> exact ⟨rfl, rfl⟩
  | writeTable table base =>
      rw [NumberingCommand.functions] at hassign hnumbers ⊢
      rw [step, writeTable_eq]
      by_cases hplace : base.toNat + tableSize table.entries.toList < 2 ^ 32
      · rw [if_pos hplace] at hassign hnumbers ⊢
        rw [List.length_map] at hnumbers
        rw [if_neg (Nat.not_le.mpr hplace), hassign]
        exact ⟨rfl, tableIndices_tableBytes hnumbers base.toNat⟩
      · rw [if_neg hplace] at hassign ⊢
        cases hassign
        rw [if_pos (Nat.not_lt.mp hplace)]
        exact ⟨rfl, rfl⟩

/-- A run gets the indices of its functions, and numbers them one after the other. -/
theorem run_of_hasRoom {index : FuncIndex} {commands : List NumberingCommand}
    (hroom : index.HasRoom (commands.flatMap NumberingCommand.functions)) :
    ∃ numbers later,
      FuncTable.assignAll index (commands.flatMap NumberingCommand.functions) =
        (.ok numbers, later) ∧
      index.run commands = ((commands.flatMap NumberingCommand.functions).zip numbers, later) := by
  induction commands generalizing index with
  | nil => exact ⟨[], index, rfl, rfl⟩
  | cons command rest ih =>
      rw [List.flatMap_cons] at hroom ⊢
      obtain ⟨numbers, middle, hassign, hrest⟩ := assignAll_of_hasRoom hroom
      obtain ⟨hstep, hindices⟩ := step_of_assignAll hassign
      obtain ⟨others, later, hlater, hrun⟩ := ih hrest
      refine ⟨numbers ++ others, later, ?_, ?_⟩
      · rw [FuncTable.assignAll_append, hassign]
        dsimp only
        rw [hlater]
      · rw [run]
        dsimp only
        rw [hstep, hrun, hindices, List.zip_append (FuncTable.length_of_assignAll hassign).symm]

theorem run_append (index : FuncIndex) (earlier later : List NumberingCommand) :
    index.run (earlier ++ later) =
      ((index.run earlier).1 ++ ((index.run earlier).2.run later).1,
        ((index.run earlier).2.run later).2) := by
  induction earlier generalizing index with
  | nil => rfl
  | cons command rest ih =>
      rw [List.cons_append, run]
      dsimp only
      rw [ih, ← List.append_assoc]
      rfl

end FuncIndex

section FirstUses

variable {α β : Type} [DecidableEq α] [DecidableEq β]

theorem eraseDups_concat (items : List α) (item : α) :
    (items ++ [item]).eraseDups =
      if item ∈ items then items.eraseDups else items.eraseDups ++ [item] := by
  rw [List.eraseDups_append]
  by_cases hmem : item ∈ items
  · simp [List.removeAll, hmem]
  · simp [List.removeAll, hmem, List.eraseDups_cons]

theorem eraseDups_map {items : List α} {name : α → β}
    (hname : ∀ first ∈ items, ∀ second ∈ items, name first = name second → first = second) :
    (items.map name).eraseDups = items.eraseDups.map name := by
  induction items using List.reverseRecOn with
  | nil => rfl
  | append_singleton items item ih =>
      have hitems := ih fun first hfirst second hsecond =>
        hname first (List.mem_append_left _ hfirst) second (List.mem_append_left _ hsecond)
      have hmem : name item ∈ items.map name ↔ item ∈ items := by
        refine ⟨fun hmem => ?_, List.mem_map_of_mem⟩
        obtain ⟨known, hknown, heq⟩ := List.mem_map.mp hmem
        rw [← hname known (List.mem_append_left _ hknown) item (by simp) heq]
        exact hknown
      rw [List.map_append, List.map_singleton, eraseDups_concat, eraseDups_concat, hitems]
      simp only [hmem]
      split
      next => rfl
      next => rw [List.map_append, List.map_singleton]

end FirstUses

namespace FuncIndex

/-- Functions are listed by their first uses. -/
theorem refs_foldl_enroll (funcs : List FuncRef) :
    (funcs.foldl enroll empty).refs = funcs.eraseDups := by
  induction funcs using List.reverseRecOn with
  | nil => rfl
  | append_singleton funcs func ih =>
      have hmem : func ∈ (funcs.foldl enroll empty).refs ↔ func ∈ funcs := by
        rw [ih, List.mem_eraseDups]
      rw [List.foldl_concat, eraseDups_concat, ← ih, enroll]
      simp only [← hmem]
      split
      next => rfl
      next => rfl

theorem assignAll_eq_foldl {index later : FuncIndex} {funcs : List FuncRef} {numbers : List UInt32}
    (hassign : FuncTable.assignAll index funcs = (.ok numbers, later)) :
    later = funcs.foldl enroll index := by
  induction funcs generalizing index numbers with
  | nil =>
      cases hassign
      rfl
  | cons func rest ih =>
      obtain ⟨number, middle, others, hfunc, hrest, -⟩ := FuncTable.assignAll_cons_eq_ok hassign
      obtain ⟨rfl, -, -⟩ := assign_eq_ok hfunc
      exact ih hrest

theorem number_inj {index : FuncIndex} {first second : FuncRef} (hfirst : index.Numbered first)
    (hsecond : index.Numbered second) :
    index.number first = index.number second ↔ first = second := by
  refine ⟨fun heq => ?_, fun heq => by rw [heq]⟩
  have hget := get?_number hfirst
  rw [heq, get?_number hsecond] at hget
  exact (Option.some.inj hget).symm

/-- The functions of a dense numbering have the numbers from one on. -/
theorem map_number_refs {index : FuncIndex} (hnumbered : ∀ func ∈ index.refs, index.Numbered func) :
    (index.refs.map fun func => (index.number func).toNat) = List.range' 1 index.size := by
  apply List.ext_getElem
  · simp [size]
  · intro place hplace hsize
    rw [List.length_map] at hplace
    rw [List.getElem_map, toNat_number (hnumbered _ (List.getElem_mem hplace)), position,
      index.nodup.idxOf_getElem place hplace, List.getElem_range', Nat.one_mul, Nat.add_comm]

/-- The numbering after some functions were asked about: each got one index of its own, and in the
order of their first uses the indices are one, two, and so on up to the number of functions. -/
structure Numbers (index : FuncIndex) (funcs : List FuncRef) (calls : List (FuncRef × UInt32)) :
    Prop where
  answered : calls.map Prod.fst = funcs
  same_iff : ∀ first ∈ calls, ∀ second ∈ calls, first.2 = second.2 ↔ first.1 = second.1
  in_order : (calls.map Prod.snd).eraseDups.map UInt32.toNat = List.range' 1 index.size
  size_eq : index.size = funcs.toFinset.card

/-- Indices lead back to their functions, and other numbers lead nowhere. -/
structure LeadsBack (index : FuncIndex) (calls : List (FuncRef × UInt32)) : Prop where
  get?_of_mem : ∀ call ∈ calls, index.get? call.2 = some call.1
  get?_zero : index.get? 0 = none
  get?_beyond : ∀ number, index.size < number.toNat → index.get? number = none

/-- The indices that were given out are those that the functions have from then on. -/
theorem zip_of_assignAll {index later : FuncIndex} {funcs : List FuncRef} {numbers : List UInt32}
    (hassign : FuncTable.assignAll index funcs = (.ok numbers, later)) :
    (∀ func ∈ funcs, later.Numbered func) ∧
      funcs.zip numbers = funcs.map fun func => (func, later.number func) := by
  obtain ⟨-, hnumbered, rfl⟩ := assignAll_eq_ok hassign
  exact ⟨hnumbered, List.map_prod_left_eq_zip.symm⟩

theorem numbers_of_assignAll {funcs : List FuncRef} {index : FuncIndex} {numbers : List UInt32}
    (hassign : FuncTable.assignAll empty funcs = (.ok numbers, index)) :
    index.Numbers funcs (funcs.zip numbers) := by
  obtain ⟨hnumbered, hcalls⟩ := zip_of_assignAll hassign
  have hrefs : index.refs = funcs.eraseDups := by
    rw [assignAll_eq_foldl hassign, refs_foldl_enroll]
  have hmem : ∀ func, func ∈ index.refs ↔ func ∈ funcs := by
    intro func
    rw [hrefs, List.mem_eraseDups]
  have hinj : ∀ first ∈ funcs, ∀ second ∈ funcs,
      index.number first = index.number second ↔ first = second :=
    fun first hfirst second hsecond =>
      number_inj (hnumbered first hfirst) (hnumbered second hsecond)
  rw [hcalls]
  refine ⟨?_, ?_, ?_, ?_⟩
  · rw [List.map_map]
    exact List.map_id funcs
  · intro first hfirst second hsecond
    obtain ⟨func, hfunc, rfl⟩ := List.mem_map.mp hfirst
    obtain ⟨other, hother, rfl⟩ := List.mem_map.mp hsecond
    exact hinj func hfunc other hother
  · have hindices : (funcs.map fun func => (func, index.number func)).map Prod.snd =
        funcs.map index.number := by simp
    rw [hindices,
      eraseDups_map fun first hfirst second hsecond => (hinj first hfirst second hsecond).mp,
      ← hrefs, List.map_map]
    exact map_number_refs fun func hfunc => hnumbered func ((hmem func).mp hfunc)
  · rw [size, ← List.toFinset_card_of_nodup index.nodup]
    congr 1
    ext func
    simp [hmem]

theorem leadsBack_of_assignAll {funcs : List FuncRef} {index : FuncIndex} {numbers : List UInt32}
    (hassign : FuncTable.assignAll empty funcs = (.ok numbers, index)) :
    index.LeadsBack (funcs.zip numbers) := by
  obtain ⟨hnumbered, hcalls⟩ := zip_of_assignAll hassign
  refine ⟨?_, rfl, ?_⟩
  · intro call hcall
    rw [hcalls] at hcall
    obtain ⟨func, hfunc, rfl⟩ := List.mem_map.mp hcall
    exact get?_number (hnumbered func hfunc)
  · intro number hbeyond
    unfold get?
    split
    next => rfl
    next position hposition =>
      apply List.getElem?_eq_none
      rw [size] at hbeyond
      omega

end FuncIndex

/-- A dense numbering is a stable bijection. However many images share it, and whatever else is
asked of it, each function has one index, given out in the order of first uses and without gaps; and
in every later state each index that was given out leads back to its function, and no other number
leads anywhere. -/
theorem shared_numbering_is_dense_and_stable (earlier later : List NumberingCommand)
    (hfew : ((earlier ++ later).flatMap NumberingCommand.functions).toFinset.card < 2 ^ 32) :
    (FuncIndex.empty.run earlier).2.Numbers (earlier.flatMap NumberingCommand.functions)
        (FuncIndex.empty.run earlier).1 ∧
      (FuncIndex.empty.run (earlier ++ later)).2.LeadsBack (FuncIndex.empty.run earlier).1 := by
  have hroom : FuncIndex.empty.HasRoom
      ((earlier ++ later).flatMap NumberingCommand.functions) := hfew
  obtain ⟨allNumbers, last, hassignAll, hrunAll⟩ := FuncIndex.run_of_hasRoom hroom
  rw [List.flatMap_append] at hroom
  obtain ⟨numbers, index, hassign, hrun⟩ := FuncIndex.run_of_hasRoom hroom.left
  have hback := FuncIndex.leadsBack_of_assignAll hassignAll
  refine ⟨?_, ?_⟩
  · rw [hrun]
    exact FuncIndex.numbers_of_assignAll hassign
  · rw [hrunAll]
    refine ⟨?_, hback.get?_zero, hback.get?_beyond⟩
    -- The calls of the longer run begin with those of the shorter one.
    intro call hcall
    apply hback.get?_of_mem
    rw [FuncIndex.run_append] at hrunAll
    rw [← (Prod.mk.inj hrunAll).1]
    exact List.mem_append_left _ hcall

def reusedFunction : FuncRef := ⟨86, by decide⟩

def reusingRequest : Request := ⟨13, ⟨85, by decide⟩, [1], ⟨2⟩⟩

/-- A function on its own, and an image that names it again behind another one. -/
def repeatingCommands : List NumberingCommand :=
  [.assign reusedFunction,
    .writePending (Slots.empty.write ⟨2⟩ reusedFunction) [reusingRequest] 4096]

/-- A table that brings a third function, and the generic function of the request once more. -/
def furtherCommands : List NumberingCommand :=
  [.writeTable ⟨#[⟨13, [1], ⟨87, by decide⟩⟩]⟩ 4096, .assign reusingRequest.generic]

theorem shared_numbering_is_dense_and_stable_reused :
    ((repeatingCommands ++ furtherCommands).flatMap
      NumberingCommand.functions).toFinset.card < 2 ^ 32 ∧
    (FuncIndex.empty.run repeatingCommands).1 =
      [(reusedFunction, 1), (reusingRequest.generic, 2), (reusedFunction, 1)] ∧
    (FuncIndex.empty.run (repeatingCommands ++ furtherCommands)).2.get? 1 = some reusedFunction ∧
    (FuncIndex.empty.run (repeatingCommands ++ furtherCommands)).2.get? 2 =
      some reusingRequest.generic ∧
    (FuncIndex.empty.run (repeatingCommands ++ furtherCommands)).2.get? 0 = none := by
  have hfew : ((repeatingCommands ++ furtherCommands).flatMap
      NumberingCommand.functions).toFinset.card < 2 ^ 32 :=
    Nat.lt_of_le_of_lt (List.toFinset_card_le _) (by decide)
  have hcalls : (FuncIndex.empty.run repeatingCommands).1 =
      [(reusedFunction, 1), (reusingRequest.generic, 2), (reusedFunction, 1)] := by decide +kernel
  obtain ⟨-, hback⟩ :=
    shared_numbering_is_dense_and_stable repeatingCommands furtherCommands hfew
  rw [hcalls] at hback
  exact ⟨hfew, hcalls, hback.get?_of_mem (reusedFunction, 1) (by simp),
    hback.get?_of_mem (reusingRequest.generic, 2) (by simp), hback.get?_zero⟩

end Residual
