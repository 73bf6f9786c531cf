import Residual.Store.Handle

/-!
# Request stores

A store owns values through handles. A value is stored in a cell; releasing it empties the cell for
reuse under the next generation, so a handle never names a later occupant. A cell whose generations
are used up is retired.

A stored value is either detached or a member of the pending list. The pending list runs through the
cells, newest first, by links in both directions, so that a member can be taken out without walking
the list.
-/

namespace Residual

/-- How a stored value takes part in the pending list. -/
inductive Links where
  | detached
  | linked (prev next : Option Nat)
  deriving DecidableEq

/-- The next older pending value. -/
def Links.next : Links → Option Nat
  | detached => none
  | linked _ next => next

/-- A stored value with its links. -/
structure Node (α : Type) where
  value : α
  links : Links
  deriving DecidableEq

/-- A place for one value, and how often it has been emptied. -/
structure Cell (α : Type) where
  generation : UInt32
  node : Option (Node α)
  deriving DecidableEq

/-- A store of values. -/
structure Store (α : Type) where
  cells : List (Cell α)
  /-- The empty cells that may be used again, the most recently emptied first. -/
  free : List Nat
  /-- The number of empty cells that may not be used again. -/
  retired : Nat
  /-- The cell of the newest pending value. -/
  head : Option Nat
  /-- The number of pending values. -/
  linked : Nat
  deriving DecidableEq

namespace Cell

/-- The cell with another predecessor for its value. -/
def setPrev {α : Type} (prev : Option Nat) (cell : Cell α) : Cell α :=
  match cell.node with
  | some ⟨value, .linked _ next⟩ => { cell with node := some ⟨value, .linked prev next⟩ }
  | _ => cell

/-- The cell with another successor for its value. -/
def setNext {α : Type} (next : Option Nat) (cell : Cell α) : Cell α :=
  match cell.node with
  | some ⟨value, .linked prev _⟩ => { cell with node := some ⟨value, .linked prev next⟩ }
  | _ => cell

end Cell

namespace Store

variable {α : Type}

/-- The store without cells. -/
def empty : Store α := ⟨[], [], 0, none, 0⟩

/-- The node in a cell. -/
def node? (store : Store α) (index : Nat) : Option (Node α) :=
  match store.cells[index]? with
  | some cell => cell.node
  | none => none

/-- The node that a handle names; none if it has been released. -/
def live? (store : Store α) (handle : Handle) : Option (Node α) :=
  match store.cells[handle.index]? with
  | some cell => if cell.generation = handle.generation then cell.node else none
  | none => none

/-- The value that a handle names; none if it has been released. -/
def get? (store : Store α) (handle : Handle) : Option α := (store.live? handle).map Node.value

/-- Whether a handle names a pending value. -/
def isPending (store : Store α) (handle : Handle) : Bool :=
  match store.live? handle with
  | some ⟨_, .linked _ _⟩ => true
  | _ => false

/-- The handle of the value in a cell. -/
def handleAt? (store : Store α) (index : Nat) : Option Handle :=
  match store.cells[index]? with
  | some ⟨generation, some _⟩ => some ⟨index, generation⟩
  | _ => none

/-- The handle of the newest pending value. -/
def head? (store : Store α) : Option Handle := store.head.bind store.handleAt?

/-- The pending values from a cell on, at most `count` of them. -/
def pendingFrom (store : Store α) : (count : Nat) → Option Nat → List (Handle × α)
  | 0, _ => []
  | _ + 1, none => []
  | count + 1, some index =>
    match store.cells[index]? with
    | some ⟨generation, some ⟨value, links⟩⟩ =>
      (⟨index, generation⟩, value) :: store.pendingFrom count links.next
    | _ => []

/-- The pending values with their handles, newest first. -/
def pending (store : Store α) : List (Handle × α) := store.pendingFrom store.linked store.head

/-- Whether no value is pending. -/
def isEmpty (store : Store α) : Bool := store.head.isNone

/-- The number of values owned through a handle, pending or detached. -/
def liveCount (store : Store α) : Nat := store.cells.length - store.free.length - store.retired

/-- The store with a node in a new cell. -/
def extend (store : Store α) (node : Node α) : Handle × Store α :=
  (⟨store.cells.length, 0⟩, { store with cells := store.cells ++ [⟨0, some node⟩] })

/-- The store with a node in the most recently emptied cell, or in a new one. -/
def insert (store : Store α) (node : Node α) : Handle × Store α :=
  match store.free with
  | [] => store.extend node
  | index :: free =>
    match store.cells[index]? with
    | some cell =>
      (⟨index, cell.generation⟩,
        { store with cells := store.cells.set index { cell with node := some node }, free := free })
    | none => { store with free := free }.extend node

/-- The cells after an optional cell got another predecessor. -/
def withPrev (cells : List (Cell α)) (index prev : Option Nat) : List (Cell α) :=
  match index with
  | some index => cells.modify index (Cell.setPrev prev)
  | none => cells

/-- The cells after an optional cell got another successor. -/
def withNext (cells : List (Cell α)) (index next : Option Nat) : List (Cell α) :=
  match index with
  | some index => cells.modify index (Cell.setNext next)
  | none => cells

/-- Stores a value as the newest pending one. -/
def pushFront (store : Store α) (value : α) : Handle × Store α :=
  let (handle, stored) := store.insert ⟨value, .linked none store.head⟩
  (handle,
    { stored with
      cells := withPrev stored.cells store.head (some handle.index)
      head := some handle.index
      linked := stored.linked + 1 })

/-- Stores a value outside the pending list. -/
def insertDetached (store : Store α) (value : α) : Handle × Store α :=
  store.insert ⟨value, .detached⟩

/-- The store with a cell emptied: free under its next generation, or retired after its last. -/
def vacate (store : Store α) (index : Nat) (generation : UInt32) : Store α :=
  if generation.toNat + 1 < 0x100000000 then
    { store with
      cells := store.cells.set index ⟨generation + 1, none⟩
      free := index :: store.free }
  else
    { store with cells := store.cells.set index ⟨generation, none⟩, retired := store.retired + 1 }

/-- The store with the neighbours of a former member of the pending list linked to each other. -/
def unlink (store : Store α) (index : Nat) (prev next : Option Nat) : Store α :=
  { store with
    cells := withPrev (withNext store.cells prev next) next prev
    head := if prev = none ∧ store.head = some index then next else store.head
    linked := store.linked - 1 }

/-- Releases the value that a handle names. A handle that names nothing changes nothing. -/
def release (store : Store α) (handle : Handle) : Option α × Store α :=
  match store.live? handle with
  | none => (none, store)
  | some ⟨value, .detached⟩ => (some value, store.vacate handle.index handle.generation)
  | some ⟨value, .linked prev next⟩ =>
    (some value, (store.vacate handle.index handle.generation).unlink handle.index prev next)

end Store

end Residual
