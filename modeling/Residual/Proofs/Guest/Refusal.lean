import Mathlib.Data.Finset.Card
import Residual.Proofs.Guest.LookupLayout
import Residual.Proofs.Guest.PendingChain

/-!
# When an image is refused

Filling an image takes many steps, and each of them can fail. Once the whole image is known to end
within the address space, none of them does but that of giving a function its index. So an image is
refused exactly for its place or for a function, and a refusal leaves the numbering as it was.
-/

namespace Residual

namespace FuncIndex

theorem toFinset_enroll (index : FuncIndex) (func : FuncRef) (rest : List FuncRef) :
    ((index.enroll func).refs ++ rest).toFinset = (index.refs ++ func :: rest).toFinset := by
  unfold enroll
  split
  next hmem =>
    ext known
    simp only [List.mem_toFinset, List.mem_append, List.mem_cons]
    constructor
    · rintro (hknown | hknown)
      · exact .inl hknown
      · exact .inr (.inr hknown)
    · rintro (hknown | rfl | hknown)
      · exact .inl hknown
      · exact .inl hmem
      · exact .inr hknown
  next => rw [List.append_assoc, List.singleton_append]

theorem size_le_card (index : FuncIndex) (rest : List FuncRef) :
    index.size ≤ (index.refs ++ rest).toFinset.card := by
  rw [size, ← List.toFinset_card_of_nodup index.nodup]
  apply Finset.card_le_card
  rw [List.toFinset_append]
  exact Finset.subset_union_left

theorem position_lt_size_enroll (index : FuncIndex) (func : FuncRef) :
    index.position func < (index.enroll func).size := by
  rw [← position_enroll]
  exact List.idxOf_lt_length_of_mem (index.mem_refs_enroll func)

/-- The functions that have a number and some more are fewer than `2 ^ 32`. -/
def HasRoom (index : FuncIndex) (funcs : List FuncRef) : Prop :=
  (index.refs ++ funcs).toFinset.card < 2 ^ 32

theorem assign_of_hasRoom {index : FuncIndex} {func : FuncRef} {rest : List FuncRef}
    (hroom : index.HasRoom (func :: rest)) :
    FuncTable.assign index func = (.ok (index.number func), index.enroll func) ∧
      (index.enroll func).HasRoom rest := by
  rw [HasRoom, ← toFinset_enroll] at hroom
  have hfits : index.position func + 1 < 2 ^ 32 := by
    have hposition := index.position_lt_size_enroll func
    have hsize := (index.enroll func).size_le_card rest
    omega
  exact ⟨Prod.ext (if_pos hfits) rfl, hroom⟩

/-- Room for all functions is room for the first of them, and then for the others. -/
theorem assignAll_of_hasRoom {index : FuncIndex} {funcs rest : List FuncRef}
    (hroom : index.HasRoom (funcs ++ rest)) :
    ∃ numbers later, FuncTable.assignAll index funcs = (.ok numbers, later) ∧
      later.HasRoom rest := by
  induction funcs generalizing index with
  | nil => exact ⟨[], index, rfl, hroom⟩
  | cons func others ih =>
      obtain ⟨hassign, hothers⟩ := assign_of_hasRoom hroom
      obtain ⟨numbers, later, hnumbers, hrest⟩ := ih hothers
      refine ⟨index.number func :: numbers, later, ?_, hrest⟩
      rw [FuncTable.assignAll, hassign]
      dsimp only
      rw [hnumbers]

end FuncIndex

/-- References get their indices unless one of them is no 32-bit number. -/
theorem DirectIndex.assignAll_cases (funcs : List FuncRef) :
    (∃ func ∈ funcs, 2 ^ 32 ≤ func.raw.toNat ∧
      (FuncTable.assignAll DirectIndex.mk funcs).1 = .error (.malformed (.wideFunction func))) ∨
    (∀ func ∈ funcs, func.raw.toNat < 2 ^ 32) ∧
      ∃ numbers, (FuncTable.assignAll DirectIndex.mk funcs).1 = .ok numbers := by
  induction funcs with
  | nil => exact .inr ⟨fun _ hmem => absurd hmem List.not_mem_nil, [], rfl⟩
  | cons func rest ih =>
      rw [FuncTable.assignAll]
      by_cases hfits : func.raw.toNat < 2 ^ 32
      · have hassign : FuncTable.assign DirectIndex.mk func = (.ok func.raw.toUInt32, .mk) :=
          Prod.ext (if_pos hfits) rfl
        rw [hassign]
        dsimp only
        rcases hrest : FuncTable.assignAll DirectIndex.mk rest with ⟨error | numbers, later⟩
        · rw [hrest] at ih
          rcases ih with ⟨wide, hmem, hwide, herror⟩ | ⟨-, numbers, hnumbers⟩
          · exact .inl ⟨wide, List.mem_cons_of_mem _ hmem, hwide, herror⟩
          · cases hnumbers
        · rw [hrest] at ih
          rcases ih with ⟨wide, -, -, herror⟩ | ⟨hnarrow, -⟩
          · cases herror
          · exact .inr ⟨List.forall_mem_cons.mpr ⟨hfits, hnarrow⟩, _, rfl⟩
      · have hassign : FuncTable.assign DirectIndex.mk func =
            (.error (.malformed (.wideFunction func)), .mk) := Prod.ext (if_neg hfits) rfl
        rw [hassign]
        exact .inl ⟨func, List.mem_cons_self, Nat.not_lt.mp hfits, rfl⟩

namespace Numbering

/-- If functions are numbered densely, there is room for some more. -/
def HasRoom (numbering : Numbering) (funcs : List FuncRef) : Prop :=
  ∀ index, numbering = .dense index → index.HasRoom funcs

/-- A function should be its own index but is no 32-bit number. -/
def Wide (numbering : Numbering) (func : FuncRef) : Prop :=
  numbering = .direct ∧ 2 ^ 32 ≤ func.raw.toNat

/-- With room for them all, functions get their indices unless one is too wide, and then nothing has
changed. -/
theorem assignAll_cases {numbering : Numbering} {funcs : List FuncRef}
    (hroom : numbering.HasRoom funcs) :
    (∃ func ∈ funcs, numbering.Wide func ∧
      FuncTable.assignAll numbering funcs =
        (.error (.malformed (.wideFunction func)), numbering)) ∨
    (∀ func ∈ funcs, ¬ numbering.Wide func) ∧
      ∃ numbers later, FuncTable.assignAll numbering funcs = (.ok numbers, later) := by
  cases numbering with
  | direct =>
      rw [assignAll_direct]
      rcases DirectIndex.assignAll_cases funcs with ⟨func, hmem, hwide, herror⟩ | ⟨hfits, hok⟩
      · exact .inl ⟨func, hmem, ⟨rfl, hwide⟩, by rw [herror]⟩
      · obtain ⟨numbers, hnumbers⟩ := hok
        refine .inr ⟨?_, numbers, direct, by rw [hnumbers]⟩
        rintro func hmem ⟨-, hwide⟩
        exact absurd (hfits func hmem) (Nat.not_lt.mpr hwide)
  | dense index =>
      have hfuncs := hroom index rfl
      rw [← List.append_nil funcs] at hfuncs
      obtain ⟨numbers, later, hassign, -⟩ := FuncIndex.assignAll_of_hasRoom hfuncs
      rw [assignAll_dense, hassign]
      refine .inr ⟨?_, numbers, dense later, rfl⟩
      rintro func - ⟨hdirect, -⟩
      cases hdirect

end Numbering

namespace Guest

/-- Writing fails exactly if there is a reason to, with an error for a reason that there is, and
then leaves the numbering as it was. Otherwise there is an image of the given size. -/
structure FailsExactly {α : Type} (outcome : Except Error α × Numbering) (numbering : Numbering)
    (bytes : α → Bytes) (size : Nat) (reason : Error → Prop) : Prop where
  fails_iff : (∃ error, outcome.1 = .error error) ↔ ∃ error, reason error
  reason_of_error : ∀ error, outcome.1 = .error error → reason error
  numbering_eq : ∀ error, outcome.1 = .error error → outcome.2 = numbering
  length_eq : ∀ image, outcome.1 = .ok image → (bytes image).length = size

namespace FailsExactly

variable {α : Type} {numbering : Numbering} {bytes : α → Bytes} {size : Nat}

/-- A check in front of a writer adds a reason of its own. -/
theorem guarded {outcome : Except Error α × Numbering} {reason : Error → Prop}
    (houtcome : FailsExactly outcome numbering bytes size reason) (blocked : Prop)
    [Decidable blocked] (refusal : Error) :
    FailsExactly (if blocked then (.error refusal, numbering) else outcome) numbering bytes size
      fun error => blocked ∧ error = refusal ∨ reason error := by
  by_cases hblocked : blocked
  · rw [if_pos hblocked]
    refine ⟨?_, ?_, ?_, ?_⟩
    · exact ⟨fun _ => ⟨refusal, .inl ⟨hblocked, rfl⟩⟩, fun _ => ⟨refusal, rfl⟩⟩
    · rintro error herror
      cases herror
      exact .inl ⟨hblocked, rfl⟩
    · exact fun _ _ => rfl
    · rintro image himage
      cases himage
  · rw [if_neg hblocked]
    refine ⟨?_, fun error herror => .inr (houtcome.reason_of_error error herror),
      houtcome.numbering_eq, houtcome.length_eq⟩
    rw [houtcome.fails_iff]
    constructor
    · rintro ⟨error, hreason⟩
      exact ⟨error, .inr hreason⟩
    · rintro ⟨error, ⟨hreason, -⟩ | hreason⟩
      · exact absurd hreason hblocked
      · exact ⟨error, hreason⟩

/-- Where only functions without an index are in the way, the reasons are those that are too
wide. -/
theorem of_assignAll {funcs : List FuncRef} (hroom : numbering.HasRoom funcs)
    {image : List UInt32 → α}
    (hlength : ∀ numbers, numbers.length = funcs.length → (bytes (image numbers)).length = size) :
    FailsExactly
      ((FuncTable.assignAll numbering funcs).1.map image, (FuncTable.assignAll numbering funcs).2)
      numbering bytes size
      fun error =>
        ∃ func ∈ funcs, numbering.Wide func ∧ error = .malformed (.wideFunction func) := by
  rcases Numbering.assignAll_cases hroom with
    ⟨func, hmem, hwide, hassign⟩ | ⟨hnarrow, numbers, later, hassign⟩
  · rw [hassign]
    refine ⟨⟨fun _ => ⟨_, func, hmem, hwide, rfl⟩, fun _ => ⟨_, rfl⟩⟩, ?_, fun _ _ => rfl, ?_⟩
    · rintro error herror
      cases herror
      exact ⟨func, hmem, hwide, rfl⟩
    · rintro written hwritten
      cases hwritten
  · rw [hassign]
    refine ⟨⟨?_, ?_⟩, ?_, ?_, ?_⟩
    · rintro ⟨error, herror⟩
      cases herror
    · rintro ⟨error, func, hmem, hwide, -⟩
      exact absurd hwide (hnarrow func hmem)
    · rintro error herror
      cases herror
    · rintro error herror
      cases herror
    · rintro written hwritten
      cases hwritten
      exact hlength numbers (FuncTable.length_of_assignAll hassign)

end FailsExactly

theorem length_padded_args (entries : List Entry) :
    (entries.flatMap fun entry => Bytes.padded entry.args).length = argumentsSize entries := by
  induction entries with
  | nil => rfl
  | cons entry rest ih =>
      rw [List.flatMap_cons, List.length_append, Bytes.length_padded, ih, argumentsSize_cons]

theorem length_tableBytes {entries : List Entry} {numbers : List UInt32}
    (hnumbers : numbers.length = entries.length) (base : Nat) :
    (tableBytes base entries numbers).length = tableSize entries := by
  rw [tableBytes, List.length_append, List.length_append, LookupHeader.length_encode,
    length_lookupRecords hnumbers, length_padded_args]
  rfl

/-- Whatever is pending and whatever the table holds, an image of it is refused exactly if it would
not end within the address space, or if a function named in it has no index; and a chain also if it
would start at the null address. The image of a chain takes 40 bytes for each request and its
arguments, padded; that of a table takes eight bytes for the header, 16 for each entry and its
arguments, padded. A refusal leaves the numbering as it was. -/
theorem images_are_refused_exactly_for_space_or_index (slots : Slots) (requests : List Request)
    (table : Table) (base : UInt32) (numbering : Numbering) :
    (numbering.HasRoom (chainFunctions slots requests) →
      FailsExactly (writePending slots requests base numbering) numbering
        (fun image => image.memory.data) (chainSize requests) fun error =>
          base = 0 ∧ error = .malformed .nullBase ∨
          2 ^ 64 ≤ chainSize requests ∧ error = .malformed .hostSpace ∨
          2 ^ 32 ≤ base.toNat + chainSize requests ∧ error = .malformed .addressSpace ∨
          ∃ func ∈ chainFunctions slots requests,
            numbering.Wide func ∧ error = .malformed (.wideFunction func)) ∧
    (numbering.HasRoom (table.entries.toList.map Entry.specialized) →
      FailsExactly (writeTable table base numbering) numbering
        (fun image => image.data) (tableSize table.entries.toList) fun error =>
          2 ^ 32 ≤ base.toNat + tableSize table.entries.toList ∧ error = .malformed .addressSpace ∨
          ∃ func ∈ table.entries.toList.map Entry.specialized,
            numbering.Wide func ∧ error = .malformed (.wideFunction func)) := by
  refine ⟨?_, ?_⟩
  · intro hroom
    rw [writePending_eq]
    refine .guarded (.guarded (.guarded (.of_assignAll hroom ?_) _ _) _ _) _ _
    intro numbers _
    rw [length_chain, itemsSize_pendingItems]
  · intro hroom
    rw [writeTable_eq]
    refine .guarded (.of_assignAll hroom ?_) _ _
    intro numbers hnumbers
    rw [List.length_map] at hnumbers
    exact length_tableBytes hnumbers base.toNat

/-- A request that takes 48 bytes. -/
def lastRequest : Request := ⟨9, ⟨81, by decide⟩, [5], ⟨2⟩⟩

/-- The request is written if its image ends with the address space, and refused one byte further
on. -/
theorem images_are_refused_exactly_for_space_or_index_at_the_end :
    (Numbering.dense .empty).HasRoom (chainFunctions .empty [lastRequest]) ∧
    (∃ image, (writePending .empty [lastRequest] 0xFFFFFFCF (Numbering.dense .empty)).1 =
        .ok image ∧ image.memory.data.length = 48) ∧
    ∃ error, writePending .empty [lastRequest] 0xFFFFFFD0 (Numbering.dense .empty) =
      (.error error, .dense .empty) := by
  have hroom : (Numbering.dense .empty).HasRoom (chainFunctions .empty [lastRequest]) := by
    rintro index hdense
    cases hdense
    exact Nat.lt_of_le_of_lt (List.toFinset_card_le _) (by decide)
  have hfits := (images_are_refused_exactly_for_space_or_index .empty [lastRequest] .empty
    0xFFFFFFCF (.dense .empty)).1 hroom
  have hpast := (images_are_refused_exactly_for_space_or_index .empty [lastRequest] .empty
    0xFFFFFFD0 (.dense .empty)).1 hroom
  refine ⟨hroom, ?_, ?_⟩
  · rcases hwrite : (writePending .empty [lastRequest] 0xFFFFFFCF (Numbering.dense .empty)).1
      with error | image
    · rcases hfits.reason_of_error error hwrite with ⟨hbase, -⟩ | ⟨hhost, -⟩ | ⟨hspace, -⟩ |
        ⟨func, -, ⟨hdirect, -⟩, -⟩
      · exact absurd hbase (by decide)
      · exact absurd hhost (by decide)
      · exact absurd hspace (by decide)
      · cases hdirect
    · exact ⟨image, rfl, hfits.length_eq image hwrite⟩
  · obtain ⟨error, herror⟩ := hpast.fails_iff.mpr ⟨_, .inr (.inr (.inl ⟨by decide, rfl⟩))⟩
    exact ⟨error, Prod.ext herror (hpast.numbering_eq error herror)⟩

end Guest

end Residual
