import Mathlib.Data.Finset.Card
import Mathlib.Order.Bounds.Basic
import Residual.Proofs.Store.Generations

/-!
# No cell is lost, none is freed twice

A store keeps its cells in view by three numbers: how many there are, how many are free and how many
are retired. An empty cell is free until it has been filled in its last generation, and retired
after that. Cells are added only when none is free, so there are never more than were once in use or
retired at the same time.
-/

namespace Residual

variable {α : Type}

/-- The cell has been filled in its last generation. A cell that has only reached it can still be
filled. -/
def Exhausted (handles : List Handle) (index : Nat) : Prop := ⟨index, 0xFFFFFFFF⟩ ∈ handles

instance (handles : List Handle) (index : Nat) : Decidable (Exhausted handles index) :=
  inferInstanceAs (Decidable (_ ∈ handles))

namespace Store

/-- The cells that hold a value. -/
def occupied (store : Store α) : Finset Nat :=
  (Finset.range store.cells.length).filter fun index => (store.node? index).isSome

/-- The cells that hold none. -/
def vacant (store : Store α) : Finset Nat :=
  (Finset.range store.cells.length).filter fun index => ¬ (store.node? index).isSome

theorem mem_occupied_iff (store : Store α) (index : Nat) :
    index ∈ store.occupied ↔
      ∃ generation held, store.contents[index]? = some (generation, some held) := by
  rw [occupied, Finset.mem_filter, Finset.mem_range, contents, List.getElem?_map, node?]
  constructor
  · rintro ⟨hlt, hnode⟩
    rw [List.getElem?_eq_getElem hlt] at hnode ⊢
    obtain ⟨node, hsome⟩ := Option.isSome_iff_exists.mp hnode
    simp [Cell.content, hsome]
  · rintro ⟨generation, held, hcontent⟩
    obtain ⟨cell, hcell, hcontent⟩ := Option.map_eq_some_iff.mp hcontent
    refine ⟨(List.getElem?_eq_some_iff.mp hcell).1, ?_⟩
    rw [hcell]
    simp only [Cell.content, Prod.mk.injEq, Option.map_eq_some_iff] at hcontent
    obtain ⟨-, node, hnode, -⟩ := hcontent
    simp [hnode]

theorem mem_vacant_iff (store : Store α) (index : Nat) :
    index ∈ store.vacant ↔ ∃ generation, store.contents[index]? = some (generation, none) := by
  rw [vacant, Finset.mem_filter, Finset.mem_range, contents, List.getElem?_map, node?]
  constructor
  · rintro ⟨hlt, hnode⟩
    rw [List.getElem?_eq_getElem hlt] at hnode ⊢
    simpa [Cell.content] using hnode
  · rintro ⟨generation, hcontent⟩
    obtain ⟨cell, hcell, hcontent⟩ := Option.map_eq_some_iff.mp hcontent
    refine ⟨(List.getElem?_eq_some_iff.mp hcell).1, ?_⟩
    rw [hcell]
    simpa [Cell.content] using (congrArg Prod.snd hcontent)

theorem card_occupied_add_card_vacant (store : Store α) :
    store.occupied.card + store.vacant.card = store.cells.length := by
  rw [occupied, vacant, Finset.card_filter_add_card_filter_not, Finset.card_range]

theorem lists_of_mem_keys {ledger : Ledger α} {handle : Handle}
    (hkey : handle ∈ ledger.detached.keys) :
    ∃ value, ledger.Lists handle value false :=
  Finmap.mem_iff.mp (Finmap.mem_keys.mp hkey)

/-- The cells that hold a value are those of the handles that the ledger has values under. -/
theorem occupied_eq {store : Store α} {ledger : Ledger α} (hrepresents : Represents store ledger) :
    store.occupied =
      (indices ledger.pending).toFinset ∪ ledger.detached.keys.image Handle.index := by
  ext index
  rw [mem_occupied_iff, Finset.mem_union, List.mem_toFinset, Finset.mem_image]
  constructor
  · rintro ⟨generation, ⟨value, pending⟩, hcontent⟩
    have hlists := (hrepresents.records ⟨index, generation⟩ value pending).mpr hcontent
    cases pending with
    | true => exact Or.inl (List.mem_map_of_mem hlists)
    | false =>
        exact Or.inr
          ⟨⟨index, generation⟩, Finmap.mem_keys.mpr (Finmap.mem_iff.mpr ⟨value, hlists⟩), rfl⟩
  · rintro (hpending | ⟨handle, hkey, rfl⟩)
    · obtain ⟨⟨handle, value⟩, hentry, rfl⟩ := List.mem_map.mp hpending
      exact ⟨_, _, (hrepresents.records handle value true).mp hentry⟩
    · obtain ⟨value, hlists⟩ := lists_of_mem_keys hkey
      exact ⟨_, _, (hrepresents.records handle value false).mp hlists⟩

theorem card_occupied {store : Store α} {ledger : Ledger α}
    (hrepresents : Represents store ledger) :
    store.occupied.card = ledger.pending.length + ledger.detached.keys.card := by
  have hdisjoint : Disjoint (indices ledger.pending).toFinset
      (ledger.detached.keys.image Handle.index) := by
    rw [Finset.disjoint_left]
    intro index hpending himage
    obtain ⟨⟨handle, value⟩, hentry, rfl⟩ := List.mem_map.mp (List.mem_toFinset.mp hpending)
    obtain ⟨other, hkey, hindex⟩ := Finset.mem_image.mp himage
    obtain ⟨held, hlists⟩ := lists_of_mem_keys hkey
    obtain ⟨-, -, hbool⟩ :=
      hrepresents.records.eq_of_index_eq handle other value held true false hentry hlists hindex
    cases hbool
  have hinjective : Set.InjOn Handle.index (ledger.detached.keys : Set Handle) := by
    intro handle hkey other hother hindex
    obtain ⟨value, hlists⟩ := lists_of_mem_keys hkey
    obtain ⟨held, hheld⟩ := lists_of_mem_keys hother
    exact (hrepresents.records.eq_of_index_eq other handle held value false false hheld hlists
      hindex).1
  rw [occupied_eq hrepresents, Finset.card_union_of_disjoint hdisjoint,
    Finset.card_image_of_injOn hinjective, List.toFinset_card_of_nodup hrepresents.distinct,
    indices, List.length_map]

/-- What is known of the cells from the handles that were handed out: a cell that holds a value does
so under one of them, an empty one is free until it is exhausted, and none was handed out ahead of
its cell. -/
structure Accounted (store : Store α) (handles : List Handle) : Prop where
  live : ∀ index generation held,
    store.contents[index]? = some (generation, some held) → ⟨index, generation⟩ ∈ handles
  free : ∀ index generation, store.contents[index]? = some (generation, none) →
    (index ∈ store.free ↔ ¬ Exhausted handles index)
  behind : ∀ handle ∈ handles, ∃ generation held,
    store.contents[handle.index]? = some (generation, held) ∧ handle.generation ≤ generation

theorem accounted_empty : Accounted (empty : Store α) [] := by
  refine ⟨?_, ?_, ?_⟩
  · intro index generation held hcontent
    simp [contents, empty] at hcontent
  · intro index generation hcontent
    simp [contents, empty] at hcontent
  · simp

section Turn

variable {store after : Store α} {reply : StoreReply α} {handles : List Handle} {index : Nat}

theorem Turn.live (hturn : Turn store after reply index) (haccounted : Accounted store handles)
    {generation : UInt32} {held : α × Bool}
    (hcontent : after.contents[index]? = some (generation, some held)) :
    ⟨index, generation⟩ ∈ handles ++ reply.issued?.toList := by
  cases hturn with
  | keep hsame =>
      exact List.mem_append_left _
        (haccounted.live index generation held (hsame.symm.trans hcontent))
  | fill current value hissued _ hfilled =>
      rw [hfilled] at hcontent
      cases hcontent
      simp [hissued]
  | vacate _ _ _ _ _ _ hvacated => simp [hvacated] at hcontent
  | retire _ _ _ _ hretired => simp [hretired] at hcontent

/-- A cell is exhausted by its own last handle, not by one of another cell. -/
theorem exhausted_append_iff
    (hother : ∀ handle, reply.issued? = some handle → handle.index ≠ index) :
    Exhausted (handles ++ reply.issued?.toList) index ↔ Exhausted handles index := by
  unfold Exhausted
  rw [List.mem_append, or_iff_left]
  intro hissued
  exact hother _ (Option.mem_toList.mp hissued) rfl

theorem Turn.free (hturn : Turn store after reply index) (haccounted : Accounted store handles)
    {generation : UInt32} (hcontent : after.contents[index]? = some (generation, none)) :
    index ∈ after.free ↔ ¬ Exhausted (handles ++ reply.issued?.toList) index := by
  cases hturn with
  | keep hsame hfree hother =>
      rw [hfree, exhausted_append_iff hother]
      exact haccounted.free index generation (hsame.symm.trans hcontent)
  | fill _ _ _ _ hfilled => simp [hfilled] at hcontent
  | vacate current later held hissued hlive hlater _ hfree =>
      rw [hissued, Option.toList_none, List.append_nil]
      refine ⟨fun _ hexhausted => ?_, fun _ => hfree⟩
      -- The last generation would be behind one that still has a later one.
      obtain ⟨generation, held, hcell, hle⟩ := haccounted.behind _ hexhausted
      rw [hlive] at hcell
      cases hcell
      have hmax := later.toNat_lt
      rw [UInt32.lt_iff_toNat_lt] at hlater
      have hlast : 0xFFFFFFFF ≤ current.toNat := hle
      omega
  | retire current held hissued hlive _ hfree hlast =>
      have hhandle := haccounted.live index current held hlive
      rw [hlast] at hhandle
      rw [hissued, Option.toList_none, List.append_nil]
      exact ⟨fun hmem => absurd hmem hfree, fun hnot => absurd hhandle hnot⟩

theorem Turn.behind {handle : Handle} (hturn : Turn store after reply handle.index)
    (haccounted : Accounted store handles) (hhandle : handle ∈ handles ++ reply.issued?.toList) :
    ∃ generation held, after.contents[handle.index]? = some (generation, held) ∧
      handle.generation ≤ generation := by
  rcases List.mem_append.mp hhandle with hold | hissued
  · obtain ⟨generation, held, hcell, hle⟩ := haccounted.behind handle hold
    cases hturn with
    | keep hsame => exact ⟨generation, held, hsame.trans hcell, hle⟩
    | fill current value _ hempty hfilled =>
        rcases hempty with ⟨hempty, -⟩ | hnone
        · rw [hempty] at hcell
          cases hcell
          exact ⟨_, _, hfilled, hle⟩
        · simp [hnone] at hcell
    | vacate current later value _ hlive hlater hvacated =>
        rw [hlive] at hcell
        cases hcell
        exact ⟨_, _, hvacated, UInt32.le_of_lt (UInt32.lt_of_le_of_lt hle hlater)⟩
    | retire current value _ hlive hretired =>
        rw [hlive] at hcell
        cases hcell
        exact ⟨_, _, hretired, hle⟩
  · have hissued := Option.mem_toList.mp hissued
    cases hturn with
    | keep _ _ hother => exact absurd rfl (hother handle hissued)
    | fill current value hfilled _ hcontent =>
        rw [hissued, Option.some.injEq] at hfilled
        refine ⟨_, _, hcontent, ?_⟩
        rw [hfilled]
        exact UInt32.le_refl _
    | vacate _ _ _ hnone => simp [hnone] at hissued
    | retire _ _ hnone => simp [hnone] at hissued

end Turn

theorem accounted_step {store : Store α} {ledger : Ledger α} {handles : List Handle}
    (hrepresents : Represents store ledger) (haccounted : Accounted store handles)
    (command : StoreCommand α) :
    Accounted (store.step command).2 (handles ++ (store.step command).1.issued?.toList) := by
  have hturn := turn_step hrepresents command
  refine ⟨?_, ?_, ?_⟩
  · intro index generation held hcontent
    exact (hturn index).live haccounted hcontent
  · intro index generation hcontent
    exact (hturn index).free haccounted hcontent
  · intro handle hhandle
    exact (hturn handle.index).behind haccounted hhandle

theorem accounted_run {store : Store α} {ledger : Ledger α} {handles : List Handle}
    (hrepresents : Represents store ledger) (haccounted : Accounted store handles)
    (commands : List (StoreCommand α)) :
    Accounted (store.run commands).2 (handles ++ issued (store.run commands).1) := by
  induction commands generalizing store ledger handles with
  | nil => simpa [run, issued] using haccounted
  | cons command rest ih =>
      obtain ⟨middle, -, hmiddle⟩ := step_refines store ledger command hrepresents
      rw [run, issued_cons, ← List.append_assoc]
      exact ih hmiddle (accounted_step hrepresents haccounted command)

/-- The counters of a store agree with what its cells hold, given the handles that it has handed
out. -/
structure Tidy (store : Store α) (handles : List Handle) : Prop where
  free_nodup : store.free.Nodup
  /-- The free cells are the empty ones that can be filled again. -/
  mem_free_iff : ∀ index, index ∈ store.free ↔ index ∈ store.vacant ∧ ¬ Exhausted handles index
  /-- The retired cells are the other empty ones. -/
  retired_eq : store.retired = (store.vacant.filter fun index => Exhausted handles index).card
  /-- An exhausted cell stays at its last generation. -/
  last_generation : ∀ index, Exhausted handles index →
    ∃ node, store.cells[index]? = some ⟨0xFFFFFFFF, node⟩
  /-- What is taken off the number of cells is never more than there are. -/
  counters_le : store.free.length + store.retired ≤ store.cells.length
  liveCount_eq : store.liveCount = store.occupied.card
  index_lt : ∀ handle ∈ handles, handle.index < store.cells.length

theorem tidy_of_accounted {store : Store α} {ledger : Ledger α} {handles : List Handle}
    (hrepresents : Represents store ledger) (haccounted : Accounted store handles) :
    store.Tidy handles := by
  have hcount := hrepresents.count
  have hlive := card_occupied hrepresents
  have hcells := store.card_occupied_add_card_vacant
  have hfree : ∀ index, index ∈ store.free ↔ index ∈ store.vacant ∧ ¬ Exhausted handles index := by
    intro index
    constructor
    · intro hmem
      obtain ⟨generation, hcontent⟩ := hrepresents.free_empty index hmem
      exact ⟨(store.mem_vacant_iff index).mpr ⟨generation, hcontent⟩,
        (haccounted.free index generation hcontent).mp hmem⟩
    · rintro ⟨hvacant, hnot⟩
      obtain ⟨generation, hcontent⟩ := (store.mem_vacant_iff index).mp hvacant
      exact (haccounted.free index generation hcontent).mpr hnot
  have hlength : (store.vacant.filter fun index => ¬ Exhausted handles index).card =
      store.free.length := by
    rw [← List.toFinset_card_of_nodup hrepresents.free_nodup]
    congr 1
    ext index
    rw [Finset.mem_filter, List.mem_toFinset, hfree]
  have hvacant := store.vacant.card_filter_add_card_filter_not fun index => Exhausted handles index
  refine ⟨hrepresents.free_nodup, hfree, by omega, ?_, by omega, ?_, ?_⟩
  · intro index hexhausted
    obtain ⟨generation, held, hcontent, hle⟩ := haccounted.behind _ hexhausted
    have hlast : generation = 0xFFFFFFFF :=
      eq_last_generation (Nat.succ_le_succ (UInt32.le_iff_toNat_le.mp hle))
    rw [contents, List.getElem?_map] at hcontent
    obtain ⟨⟨current, node⟩, hcell, hcontent⟩ := Option.map_eq_some_iff.mp hcontent
    have hcurrent : current = generation := congrArg Prod.fst hcontent
    exact ⟨node, by rw [hcell, hcurrent, hlast]⟩
  · rw [liveCount]
    omega
  · intro handle hhandle
    obtain ⟨generation, held, hcontent, -⟩ := haccounted.behind handle hhandle
    have hlt := (List.getElem?_eq_some_iff.mp hcontent).1
    rwa [contents, List.length_map] at hlt

theorem liveCount_add_retired {store : Store α} {ledger : Ledger α}
    (hrepresents : Represents store ledger) :
    store.liveCount + store.retired + store.free.length = store.cells.length := by
  have hcount := hrepresents.count
  rw [liveCount]
  omega

/-- A cell is added only when none is free, and then there is still none. -/
theorem Effect.length_cells {store after : Store α} {command : StoreCommand α}
    {reply : StoreReply α} (heffect : Effect store command reply after) :
    after.cells.length = store.cells.length ∨
      after.cells.length = store.cells.length + 1 ∧ after.free = [] := by
  have hlength : ∀ other : Store α, other.cells.length = other.contents.length := by
    intro other
    rw [contents, List.length_map]
  rw [hlength, hlength]
  cases heffect with
  | reuse _ _ _ _ _ _ hcontents => exact Or.inl (by rw [hcontents, List.length_set])
  | extend _ _ _ hafter hcontents => exact Or.inr ⟨by simp [hcontents], hafter⟩
  | vacate _ _ _ _ _ _ hcontents => exact Or.inl (by rw [hcontents, List.length_set])
  | retire _ _ _ _ _ _ hcontents => exact Or.inl (by rw [hcontents, List.length_set])
  | refuse => exact Or.inl rfl

/-- There are as many cells as were once in use or retired at the same time. -/
theorem isGreatest_length_cells (commands : List (StoreCommand α)) :
    IsGreatest {total | ∃ earlier, earlier <+: commands ∧
        total = (empty.run earlier).2.liveCount + (empty.run earlier).2.retired}
      (empty.run commands).2.cells.length := by
  induction commands using List.reverseRecOn with
  | nil =>
      refine ⟨⟨[], List.prefix_rfl, rfl⟩, ?_⟩
      rintro total ⟨earlier, hearlier, rfl⟩
      rw [List.prefix_nil.mp hearlier]
      rfl
  | append_singleton commands command ih =>
      obtain ⟨ledger, -, hrepresents⟩ := run_refines empty Ledger.empty commands represents_empty
      obtain ⟨after, -, hafter⟩ := step_refines _ ledger command hrepresents
      have hrun : (empty.run (commands ++ [command])).2 =
          ((empty.run commands).2.step command).2 := run_append _ _ _
      have htotal := liveCount_add_retired hafter
      have hlength := (effect_step hrepresents command).length_cells
      rw [← hrun] at htotal hlength
      constructor
      · rcases hlength with hsame | ⟨-, hfree⟩
        · obtain ⟨earlier, hearlier, hpeak⟩ := ih.1
          rw [hsame]
          exact ⟨earlier, hearlier.trans (List.prefix_append _ _), hpeak⟩
        · -- With no cell free, all of them are in use or retired right now.
          refine ⟨_, List.prefix_rfl, ?_⟩
          rw [hfree, List.length_nil] at htotal
          omega
      · rintro total ⟨earlier, hearlier, rfl⟩
        rcases List.prefix_concat_iff.mp hearlier with rfl | hearlier
        · omega
        · have hle := ih.2 ⟨earlier, hearlier, rfl⟩
          omega

/-- A store neither loses a cell nor frees one twice. After any sequence of commands, with any
handles released at all, the free cells and the counters agree with what the cells hold, and there
are exactly as many cells as were once in use or retired at the same time. -/
theorem cells_are_accounted_for (commands : List (StoreCommand α)) :
    (empty.run commands).2.Tidy (issued (empty.run commands).1) ∧
      IsGreatest {total | ∃ earlier, earlier <+: commands ∧
          total = (empty.run earlier).2.liveCount + (empty.run earlier).2.retired}
        (empty.run commands).2.cells.length := by
  obtain ⟨ledger, -, hrepresents⟩ := run_refines empty Ledger.empty commands represents_empty
  have haccounted := accounted_run represents_empty accounted_empty commands
  rw [List.nil_append] at haccounted
  exact ⟨tidy_of_accounted hrepresents haccounted, isGreatest_length_cells commands⟩

end Store

end Residual
