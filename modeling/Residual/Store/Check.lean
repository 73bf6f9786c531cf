import Residual.Error
import Residual.Store.Basic

/-!
# Checking a store

A walk over the pending list that confirms its structure: it ends, it visits pending values only,
every link back names the cell that the walk came from, and the walk, the cells and the counter
agree on the number of pending values.
-/

namespace Residual.Store

variable {α : Type}

/-- The number of values that a walk from `cursor` visits, or the first fault it meets. The walk
came from `prev` and may take `count` more steps. -/
def walk (store : Store α) : (count : Nat) → (prev cursor : Option Nat) → Except Malformation Nat
  | _, _, none => .ok 0
  | 0, _, some _ => .error .pendingCycle
  | count + 1, prev, some index =>
    match store.node? index with
    | none => .error (.freeCellLinked index)
    | some ⟨_, .detached⟩ => .error (.detachedLinked index)
    | some ⟨_, .linked back next⟩ =>
      if back = prev then (store.walk count (some index) next).map (· + 1)
      else .error (.pendingBackLink index back prev)

/-- Whether a cell holds a pending value. -/
def holdsPending (cell : Cell α) : Bool :=
  match cell.node with
  | some ⟨_, .linked _ _⟩ => true
  | _ => false

/-- Confirms the structure of the pending list, or reports the first fault. -/
def check (store : Store α) : Except Error Unit :=
  match store.walk (store.cells.length + 1) none store.head with
  | .error fault => .error (.malformed fault)
  | .ok reachable =>
    let linked := store.cells.countP holdsPending
    if reachable = linked ∧ linked = store.linked then .ok ()
    else .error (.malformed (.pendingCounts reachable linked store.linked))

end Residual.Store
