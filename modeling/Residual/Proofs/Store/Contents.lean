import Residual.Proofs.Store.Ledger
import Residual.Proofs.Store.Segment

/-!
# What the cells hold

Relinking cannot disturb what the cells hold apart from their links. This view
of a store is changed in two ways only: a value enters a cell that held none,
or a cell is emptied. Each change puts one value on the record of the ledger or
takes one off it.
-/

namespace Residual

variable {α : Type}

/-- What a cell holds, apart from its links: its generation, and the value with
whether it is pending. -/
def Cell.content (cell : Cell α) : UInt32 × Option (α × Bool) :=
  (cell.generation, cell.node.map fun node => (node.value, decide (node.links ≠ .detached)))

namespace Store

/-- What the cells hold, apart from links. -/
def contents (store : Store α) : List (UInt32 × Option (α × Bool)) := store.cells.map Cell.content

theorem content_setPrev (prev : Option Nat) (cell : Cell α) :
    (cell.setPrev prev).content = cell.content := by
  unfold Cell.setPrev
  split
  next value before next hnode => simp [Cell.content, hnode]
  next => rfl

theorem content_setNext (next : Option Nat) (cell : Cell α) :
    (cell.setNext next).content = cell.content := by
  unfold Cell.setNext
  split
  next value prev after hnode => simp [Cell.content, hnode]
  next => rfl

theorem map_content_withPrev (cells : List (Cell α)) (target prev : Option Nat) :
    (withPrev cells target prev).map Cell.content = cells.map Cell.content := by
  apply List.ext_getElem?
  intro index
  rw [List.getElem?_map, List.getElem?_map, getElem?_withPrev]
  split
  · rw [Option.map_map]
    exact Option.map_congr fun cell _ => content_setPrev prev cell
  · rfl

theorem map_content_withNext (cells : List (Cell α)) (target next : Option Nat) :
    (withNext cells target next).map Cell.content = cells.map Cell.content := by
  apply List.ext_getElem?
  intro index
  rw [List.getElem?_map, List.getElem?_map, getElem?_withNext]
  split
  · rw [Option.map_map]
    exact Option.map_congr fun cell _ => content_setNext next cell
  · rfl

theorem live?_eq_some_iff (store : Store α) (handle : Handle) (node : Node α) :
    store.live? handle = some node ↔
      store.cells[handle.index]? = some ⟨handle.generation, some node⟩ := by
  unfold live?
  cases hcell : store.cells[handle.index]? with
  | none => simp
  | some cell =>
      obtain ⟨generation, held⟩ := cell
      dsimp only
      split
      next hgeneration => simp [hgeneration]
      next hgeneration => simp [hgeneration]

theorem contents_of_cell (store : Store α) (index : Nat) (cell : Cell α)
    (hcell : store.cells[index]? = some cell) : store.contents[index]? = some cell.content := by
  rw [contents, List.getElem?_map, hcell]
  rfl

theorem contents_congr (store other : Store α) (index : Nat)
    (hcell : other.cells[index]? = store.cells[index]?) :
    other.contents[index]? = store.contents[index]? := by
  rw [contents, contents, List.getElem?_map, List.getElem?_map, hcell]

theorem contents_eq_some_iff (store : Store α) (handle : Handle) (value : α) (pending : Bool) :
    store.contents[handle.index]? = some (handle.generation, some (value, pending)) ↔
      ∃ links, store.live? handle = some ⟨value, links⟩ ∧ decide (links ≠ .detached) = pending := by
  simp only [live?_eq_some_iff]
  constructor
  · intro hcontent
    rw [contents, List.getElem?_map, Option.map_eq_some_iff] at hcontent
    obtain ⟨⟨generation, held⟩, hcell, hcontent⟩ := hcontent
    cases held with
    | none => simp [Cell.content] at hcontent
    | some node =>
        obtain ⟨held, links⟩ := node
        simp only [Cell.content, Option.map_some, Prod.mk.injEq, Option.some.injEq] at hcontent
        obtain ⟨rfl, rfl, hlinks⟩ := hcontent
        exact ⟨links, hcell, hlinks⟩
  · rintro ⟨links, hcell, rfl⟩
    exact contents_of_cell store handle.index _ hcell

/-- Whatever the state of the store, a node that is stored is found under its handle. -/
theorem cell_insert (store : Store α) (node : Node α) :
    (store.insert node).2.cells[(store.insert node).1.index]? =
      some ⟨(store.insert node).1.generation, some node⟩ := by
  unfold insert
  split
  next => simp [extend]
  next index free hfree =>
    split
    next cell hcell => rw [List.getElem?_set_self (List.getElem?_eq_some_iff.mp hcell).1]
    next => simp [extend]

theorem get?_of_content {store : Store α} {handle : Handle} {value : α} {pending : Bool}
    (hcontent : store.contents[handle.index]? = some (handle.generation, some (value, pending))) :
    store.get? handle = some value := by
  obtain ⟨links, hlive, -⟩ := (contents_eq_some_iff store handle value pending).mp hcontent
  rw [get?, hlive, Option.map_some]

theorem get?_insertDetached (store : Store α) (value : α) :
    (store.insertDetached value).2.get? (store.insertDetached value).1 = some value :=
  get?_of_content (contents_of_cell _ _ _ (cell_insert store _))

theorem get?_pushFront (store : Store α) (value : α) :
    (store.pushFront value).2.get? (store.pushFront value).1 = some value := by
  have hinsert := contents_of_cell _ _ _ (cell_insert store ⟨value, .linked none store.head⟩)
  apply get?_of_content
  -- The links of the old head change, and no cell loses its value by that.
  rw [contents, pushFront, map_content_withPrev]
  exact hinsert

/-- What storing a node does to a store. -/
structure Inserted (store stored : Store α) (handle : Handle) (node : Node α) : Prop where
  empty : ∀ generation held, store.contents[handle.index]? = some (generation, held) → held = none
  cell : stored.cells[handle.index]? = some ⟨handle.generation, some node⟩
  frame : ∀ index, index ≠ handle.index → stored.cells[index]? = store.cells[index]?
  free : stored.free.Sublist store.free
  free_ne : ∀ index ∈ stored.free, index ≠ handle.index
  count : stored.cells.length + store.free.length = store.cells.length + stored.free.length + 1
  retired : stored.retired = store.retired
  head : stored.head = store.head
  linked : stored.linked = store.linked

theorem inserted_insert (store : Store α) (node : Node α) (hnodup : store.free.Nodup)
    (hempty : ∀ index ∈ store.free,
      ∃ generation, store.contents[index]? = some (generation, none)) :
    Inserted store (store.insert node).2 (store.insert node).1 node := by
  unfold insert
  split
  next hfree =>
    refine ⟨?_, ?_, ?_, List.Sublist.refl _, ?_, ?_, rfl, rfl, rfl⟩
    · intro generation held hcontent
      have hlt := (List.getElem?_eq_some_iff.mp hcontent).1
      simp [extend, contents] at hlt
    · simp [extend]
    · intro index hindex
      simp only [extend] at hindex ⊢
      rcases Nat.lt_or_ge index store.cells.length with hlt | hge
      · rw [List.getElem?_append_left hlt]
      · rw [List.getElem?_eq_none hge, List.getElem?_eq_none]
        simp
        omega
    · simp [extend, hfree]
    · simp only [extend, List.length_append, List.length_singleton]
      omega
  next index free hfree =>
    obtain ⟨generation, hcontent⟩ := hempty index (by simp [hfree])
    rw [contents, List.getElem?_map, Option.map_eq_some_iff] at hcontent
    obtain ⟨cell, hcell, hcontent⟩ := hcontent
    have hlt := (List.getElem?_eq_some_iff.mp hcell).1
    rw [hfree, List.nodup_cons] at hnodup
    simp only [hcell]
    refine ⟨?_, ?_, ?_, ?_, ?_, ?_, rfl, rfl, rfl⟩
    · intro generation held hheld
      rw [contents_of_cell store index cell hcell, hcontent] at hheld
      cases hheld
      rfl
    · rw [List.getElem?_set_self hlt]
    · intro other hother
      rw [List.getElem?_set_ne (Ne.symm hother)]
    · rw [hfree]
      exact List.sublist_cons_self index free
    · rintro other hother rfl
      exact hnodup.1 hother
    · simp only [List.length_set, hfree, List.length_cons]
      omega

namespace Inserted

variable {store stored : Store α} {handle : Handle} {node : Node α}

theorem content (hinserted : Inserted store stored handle node) :
    stored.contents[handle.index]? =
      some (handle.generation, some (node.value, decide (node.links ≠ .detached))) :=
  contents_of_cell stored handle.index _ hinserted.cell

theorem contents_frame (hinserted : Inserted store stored handle node) (index : Nat)
    (hindex : index ≠ handle.index) : stored.contents[index]? = store.contents[index]? :=
  contents_congr store stored index (hinserted.frame index hindex)

theorem free_empty (hinserted : Inserted store stored handle node)
    (hempty : ∀ index ∈ store.free,
      ∃ generation, store.contents[index]? = some (generation, none)) :
    ∀ index ∈ stored.free, ∃ generation, stored.contents[index]? = some (generation, none) := by
  intro index hindex
  rw [hinserted.contents_frame index (hinserted.free_ne index hindex)]
  exact hempty index (hinserted.free.subset hindex)

end Inserted

/-- What emptying a cell does to a store. -/
structure Vacated (store after : Store α) (index : Nat) : Prop where
  cell : ∃ generation, after.cells[index]? = some ⟨generation, none⟩
  frame : ∀ other, other ≠ index → after.cells[other]? = store.cells[other]?
  length : after.cells.length = store.cells.length
  free : after.free = index :: store.free ∨ after.free = store.free
  count : after.free.length + after.retired = store.free.length + store.retired + 1
  head : after.head = store.head
  linked : after.linked = store.linked

theorem vacated_vacate (store : Store α) (index : Nat) (generation : UInt32)
    (hlt : index < store.cells.length) : Vacated store (store.vacate index generation) index := by
  unfold vacate
  split
  next =>
    refine
      ⟨⟨generation + 1, List.getElem?_set_self hlt⟩, ?_, List.length_set, Or.inl rfl, ?_, rfl, rfl⟩
    · intro other hother
      exact List.getElem?_set_ne (Ne.symm hother)
    · simp only [List.length_cons]
      omega
  next =>
    refine ⟨⟨generation, List.getElem?_set_self hlt⟩, ?_, List.length_set, Or.inr rfl, ?_, rfl, rfl⟩
    · intro other hother
      exact List.getElem?_set_ne (Ne.symm hother)
    · dsimp only
      omega

namespace Vacated

variable {store after : Store α} {index : Nat}

theorem content (hvacated : Vacated store after index) :
    ∃ generation, after.contents[index]? = some (generation, none) := by
  obtain ⟨generation, hcell⟩ := hvacated.cell
  exact ⟨generation, contents_of_cell after index _ hcell⟩

theorem contents_frame (hvacated : Vacated store after index) (other : Nat)
    (hother : other ≠ index) :
    after.contents[other]? = store.contents[other]? :=
  contents_congr store after other (hvacated.frame other hother)

theorem free_nodup (hvacated : Vacated store after index) (hnodup : store.free.Nodup)
    (hindex : index ∉ store.free) : after.free.Nodup := by
  rcases hvacated.free with hfree | hfree
  · rw [hfree]
    exact List.nodup_cons.mpr ⟨hindex, hnodup⟩
  · rw [hfree]
    exact hnodup

theorem free_empty (hvacated : Vacated store after index)
    (hempty : ∀ other ∈ store.free,
      ∃ generation, store.contents[other]? = some (generation, none)) :
    ∀ other ∈ after.free, ∃ generation, after.contents[other]? = some (generation, none) := by
  intro other hother
  by_cases heq : other = index
  · rw [heq]
    exact hvacated.content
  · rw [hvacated.contents_frame other heq]
    apply hempty
    rcases hvacated.free with hfree | hfree
    · rw [hfree] at hother
      exact (List.mem_cons.mp hother).resolve_left heq
    · rw [hfree] at hother
      exact hother

end Vacated

/-- The values that the cells hold are those of the ledger. -/
def Records (contents : List (UInt32 × Option (α × Bool))) (ledger : Ledger α) : Prop :=
  ∀ handle value pending, ledger.Lists handle value pending ↔
    contents[handle.index]? = some (handle.generation, some (value, pending))

namespace Records

variable {contents changed : List (UInt32 × Option (α × Bool))} {ledger after : Ledger α}

theorem holds_iff (hrecords : Records contents ledger) (handle : Handle) (value : α) :
    ledger.Holds handle value ↔
      ∃ pending, contents[handle.index]? = some (handle.generation, some (value, pending)) := by
  rw [Bool.exists_bool, ← hrecords handle value false, ← hrecords handle value true, or_comm]
  rfl

theorem unused_of_empty (hrecords : Records contents ledger) (handle : Handle)
    (hempty : ∀ generation held, contents[handle.index]? = some (generation, held) → held = none) :
    ledger.Unused handle := by
  intro value hholds
  obtain ⟨pending, hcontent⟩ := (hrecords.holds_iff handle value).mp hholds
  cases hempty _ _ hcontent

/-- A value is listed once: a cell has one generation and holds one value. -/
theorem eq_of_index_eq (hrecords : Records contents ledger) (handle other : Handle)
    (value held : α) (pending linked : Bool) (hlists : ledger.Lists handle value pending)
    (hother : ledger.Lists other held linked) (hindex : other.index = handle.index) :
    other = handle ∧ held = value ∧ linked = pending := by
  have hcontent := (hrecords handle value pending).mp hlists
  have hheld := (hrecords other held linked).mp hother
  rw [hindex, hcontent] at hheld
  cases handle
  cases other
  cases hheld
  cases hindex
  exact ⟨rfl, rfl, rfl⟩

/-- A value in a cell that held none is recorded beside all others. -/
theorem insert (hrecords : Records contents ledger) (handle : Handle) (value : α) (pending : Bool)
    (hempty : ∀ generation held, contents[handle.index]? = some (generation, held) → held = none)
    (hcontent : changed[handle.index]? = some (handle.generation, some (value, pending)))
    (hframe : ∀ index, index ≠ handle.index → changed[index]? = contents[index]?)
    (hlists : ∀ other held linked, after.Lists other held linked ↔
      (other = handle ∧ held = value ∧ linked = pending) ∨ ledger.Lists other held linked) :
    Records changed after := by
  intro other held linked
  rw [hlists]
  by_cases hindex : other.index = handle.index
  · constructor
    · rintro (⟨rfl, rfl, rfl⟩ | hold)
      · exact hcontent
      · have hold := (hrecords other held linked).mp hold
        rw [hindex] at hold
        cases hempty _ _ hold
    · intro hnew
      rw [hindex, hcontent] at hnew
      cases handle
      cases other
      cases hnew
      cases hindex
      exact Or.inl ⟨rfl, rfl, rfl⟩
  · rw [hframe _ hindex, ← hrecords other held linked]
    constructor
    · rintro (⟨rfl, -, -⟩ | hold)
      · exact absurd rfl hindex
      · exact hold
    · exact Or.inr

/-- Emptying the cell of a value takes it off the record and no other. -/
theorem remove (hrecords : Records contents ledger) (handle : Handle) (value : α) (pending : Bool)
    (hlisted : ledger.Lists handle value pending) (generation : UInt32)
    (hcontent : changed[handle.index]? = some (generation, none))
    (hframe : ∀ index, index ≠ handle.index → changed[index]? = contents[index]?)
    (hlists : ∀ other held linked, after.Lists other held linked ↔
      other ≠ handle ∧ ledger.Lists other held linked) :
    Records changed after := by
  intro other held linked
  rw [hlists]
  by_cases hindex : other.index = handle.index
  · constructor
    · rintro ⟨hne, hold⟩
      exact absurd (hrecords.eq_of_index_eq _ _ _ _ _ _ hlisted hold hindex).1 hne
    · intro hnew
      rw [hindex, hcontent] at hnew
      cases hnew
  · rw [hframe _ hindex, ← hrecords other held linked]
    constructor
    · exact And.right
    · intro hold
      exact ⟨fun heq => hindex (congrArg Handle.index heq), hold⟩

end Records

end Store

end Residual
