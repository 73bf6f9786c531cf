import Residual.Store.Check
import Mathlib.Data.Finmap

/-!
# What a store means

A ledger is a store without cells, links, generations and counters: the list
of pending values under their handles, newest first, and a finite map of the
detached ones. It does not choose handles; a handle is any name that is not in
use. Histories of a store are sequences of commands, where values can be
released under any handle at all.
-/

namespace Residual

variable {α : Type}

/-- The pending values, newest first, and the detached values. -/
structure Ledger (α : Type) where
  pending : List (Handle × α)
  detached : Finmap fun _ : Handle => α

/-- What changes a store. -/
inductive StoreCommand (α : Type) where
  | pushFront (value : α)
  | insertDetached (value : α)
  | release (handle : Handle)

/-- What a store answers. -/
inductive StoreReply (α : Type) where
  | stored (handle : Handle)
  | released (value : Option α)

namespace Ledger

def empty : Ledger α := ⟨[], ∅⟩

/-- The ledger has this value under this handle, pending or detached. -/
def Lists (ledger : Ledger α) (handle : Handle) (value : α) (pending : Bool) : Prop :=
  match pending with
  | true => (handle, value) ∈ ledger.pending
  | false => ledger.detached.lookup handle = some value

/-- The ledger has this value under this handle. -/
def Holds (ledger : Ledger α) (handle : Handle) (value : α) : Prop :=
  (handle, value) ∈ ledger.pending ∨ ledger.detached.lookup handle = some value

/-- The handle is not in use. -/
def Unused (ledger : Ledger α) (handle : Handle) : Prop := ∀ value, ¬ ledger.Holds handle value

/-- What a command may answer and where it leads. A released value leaves all
others as they are and in their order, an unused handle leaves everything. -/
inductive Step : Ledger α → StoreCommand α → StoreReply α → Ledger α → Prop
  | pushFront (ledger : Ledger α) (handle : Handle) (value : α) (hunused : ledger.Unused handle) :
      Step ledger (.pushFront value) (.stored handle)
        { ledger with pending := (handle, value) :: ledger.pending }
  | insertDetached (ledger : Ledger α) (handle : Handle) (value : α)
      (hunused : ledger.Unused handle) :
      Step ledger (.insertDetached value) (.stored handle)
        { ledger with detached := ledger.detached.insert handle value }
  | releasePending (ledger : Ledger α) (handle : Handle) (value : α)
      (front back : List (Handle × α))
      (hpending : ledger.pending = front ++ (handle, value) :: back) :
      Step ledger (.release handle) (.released (some value))
        { ledger with pending := front ++ back }
  | releaseDetached (ledger : Ledger α) (handle : Handle) (value : α)
      (hdetached : ledger.detached.lookup handle = some value) :
      Step ledger (.release handle) (.released (some value))
        { ledger with detached := ledger.detached.erase handle }
  | releaseUnused (ledger : Ledger α) (handle : Handle) (hunused : ledger.Unused handle) :
      Step ledger (.release handle) (.released none) ledger

/-- A sequence of commands with its answers. -/
inductive Run : Ledger α → List (StoreCommand α) → List (StoreReply α) → Ledger α → Prop
  | nil (ledger : Ledger α) : Run ledger [] [] ledger
  | cons {ledger middle last : Ledger α} {command : StoreCommand α} {reply : StoreReply α}
      {commands : List (StoreCommand α)} {replies : List (StoreReply α)}
      (hstep : Step ledger command reply middle) (hrest : Run middle commands replies last) :
      Run ledger (command :: commands) (reply :: replies) last

theorem lists_pushFront (ledger : Ledger α) (handle other : Handle) (value held : α)
    (linked : Bool) :
    Lists { ledger with pending := (handle, value) :: ledger.pending } other held linked ↔
      (other = handle ∧ held = value ∧ linked = true) ∨ ledger.Lists other held linked := by
  cases linked <;> simp [Lists]

theorem lists_insertDetached (ledger : Ledger α) (handle other : Handle) (value held : α)
    (linked : Bool) (hunused : ledger.Unused handle) :
    Lists { ledger with detached := ledger.detached.insert handle value } other held linked ↔
      (other = handle ∧ held = value ∧ linked = false) ∨ ledger.Lists other held linked := by
  cases linked with
  | true => simp [Lists]
  | false =>
      by_cases hother : other = handle
      · subst other
        have hnone : ledger.detached.lookup handle ≠ some held := fun h => hunused held (Or.inr h)
        simp [Lists, Finmap.lookup_insert, hnone, eq_comm]
      · simp [Lists, Finmap.lookup_insert_of_ne, hother]

theorem card_insertDetached (ledger : Ledger α) (handle : Handle) (value : α)
    (hunused : ledger.Unused handle) :
    (ledger.detached.insert handle value).keys.card = ledger.detached.keys.card + 1 := by
  have hkeys : (ledger.detached.insert handle value).keys = insert handle ledger.detached.keys := by
    ext other
    simp [Finmap.mem_keys]
  have hfresh : handle ∉ ledger.detached.keys := by
    rw [Finmap.mem_keys, ← Finmap.lookup_isSome]
    intro hsome
    obtain ⟨value, hvalue⟩ := Option.isSome_iff_exists.mp hsome
    exact hunused value (Or.inr hvalue)
  rw [hkeys, Finset.card_insert_of_notMem hfresh]

theorem card_releaseDetached (ledger : Ledger α) (handle : Handle) (value : α)
    (hdetached : ledger.detached.lookup handle = some value) :
    (ledger.detached.erase handle).keys.card + 1 = ledger.detached.keys.card := by
  have hmem : handle ∈ ledger.detached.keys := by
    rw [Finmap.mem_keys, ← Finmap.lookup_isSome, hdetached]
    rfl
  rw [Finmap.keys_erase, Finset.card_erase_add_one hmem]

theorem lists_releaseDetached (ledger : Ledger α) (handle other : Handle) (held : α) (linked : Bool)
    (hpending : ∀ value, (handle, value) ∉ ledger.pending) :
    Lists { ledger with detached := ledger.detached.erase handle } other held linked ↔
      other ≠ handle ∧ ledger.Lists other held linked := by
  by_cases hother : other = handle
  · subst other
    cases linked <;> simp [Lists, hpending]
  · cases linked <;> simp [Lists, hother, Finmap.lookup_erase_ne]

theorem lists_releasePending (ledger : Ledger α) (handle other : Handle) (value held : α)
    (linked : Bool) (front back : List (Handle × α))
    (hpending : ledger.pending = front ++ (handle, value) :: back)
    (hrest : ∀ value, (handle, value) ∉ front ++ back)
    (hdetached : ∀ value, ledger.detached.lookup handle ≠ some value) :
    Lists { ledger with pending := front ++ back } other held linked ↔
      other ≠ handle ∧ ledger.Lists other held linked := by
  by_cases hother : other = handle
  · subst other
    cases linked <;> simp_all [Lists]
  · cases linked <;> simp [Lists, hother, hpending]

end Ledger

namespace Store

/-- The answer to a command and the store after it. -/
def step (store : Store α) : StoreCommand α → StoreReply α × Store α
  | .pushFront value => (.stored (store.pushFront value).1, (store.pushFront value).2)
  | .insertDetached value =>
    (.stored (store.insertDetached value).1, (store.insertDetached value).2)
  | .release handle => (.released (store.release handle).1, (store.release handle).2)

/-- The answers to a sequence of commands and the store after them. -/
def run (store : Store α) : List (StoreCommand α) → List (StoreReply α) × Store α
  | [] => ([], store)
  | command :: rest =>
    let (reply, next) := store.step command
    let (replies, last) := next.run rest
    (reply :: replies, last)

/-- Nothing that can be seen of the store tells it from the ledger. -/
structure Shows (store : Store α) (ledger : Ledger α) : Prop where
  pending : store.pending = ledger.pending
  linked : store.linked = ledger.pending.length
  isEmpty : store.isEmpty = true ↔ ledger.pending = []
  head? : store.head? = ledger.pending.head?.map Prod.fst
  liveCount : store.liveCount = ledger.pending.length + ledger.detached.keys.card
  get? : ∀ handle value, store.get? handle = some value ↔ ledger.Holds handle value
  isPending : ∀ handle, store.isPending handle = true ↔ handle ∈ ledger.pending.map Prod.fst
  /-- A handle that is not in use changes nothing at all. -/
  release_unused : ∀ handle, ledger.Unused handle → store.release handle = (none, store)
  /-- A handle in use gives its value back. -/
  release_used : ∀ handle value, ledger.Holds handle value → (store.release handle).1 = some value
  check : store.check = .ok ()

end Store

end Residual
