import Residual.Error
import Residual.Lookup.Key

/-!
# Lookup tables

A lookup table holds the specialized function of every known key. A strictly sorted table is
searched by halving; a table may also be taken over unchecked, and then a search can miss entries
but never returns an entry with another key.
-/

namespace Residual

/-- The specialized function of one key. -/
structure Entry where
  funcId : UInt32
  args : Bytes
  specialized : FuncRef
  deriving DecidableEq

/-- The key of an entry. -/
def Entry.key (entry : Entry) : Key := ⟨entry.funcId, entry.args⟩

/-- A table of specialized functions. -/
structure Table where
  entries : Array Entry
  deriving DecidableEq

namespace Table

/-- The table without entries. -/
def empty : Table := ⟨#[]⟩

/-- The number of entries. -/
def size (table : Table) : Nat := table.entries.size

/-- The position of the first entry that is not strictly above its predecessor. -/
def firstUnsorted? : List Entry → Option Nat
  | first :: second :: rest =>
    if first.key.order second.key = .lt then (firstUnsorted? (second :: rest)).map (· + 1)
    else some 1
  | _ => none

/-- Refuses a table that is not strictly sorted. -/
def check (table : Table) : Except Error Unit :=
  match firstUnsorted? table.entries.toList with
  | some index => .error (.unsortedTable index)
  | none => .ok ()

/-- The table of the given entries in the given order, unchecked. -/
def ofUnchecked (entries : List Entry) : Table := ⟨entries.toArray⟩

/-- The table of entries that are strictly sorted already. -/
def ofSorted (entries : List Entry) : Except Error Table :=
  match (ofUnchecked entries).check with
  | .error error => .error error
  | .ok () => .ok (ofUnchecked entries)

/-- The table of entries in any order; no two may have the same key. -/
def ofUnsorted (entries : List Entry) : Except Error Table :=
  ofSorted (entries.mergeSort fun left right => (left.key.order right.key).isLE)

/-- Whether there is an entry at a place and it is above `key`. -/
def isAbove (table : Table) (key : Key) (place : Nat) : Bool :=
  table.entries[place]?.any fun entry => entry.key.order key = .gt

/-- The place of `key` if it is among the `size` entries from `start` on, found by at most `steps`
halvings. A halving goes on with the upper half unless that begins above the key; it does not stop
at the key, so the number of halvings follows from the number of entries. -/
def search (table : Table) (key : Key) : (steps start size : Nat) → Nat
  | 0, start, _ => start
  | steps + 1, start, size =>
    if size ≤ 1 then start
    else
      let middle := start + size / 2
      search table key steps (if table.isAbove key middle then start else middle) (size - size / 2)

/-- The entry for `key`. Every halving discards an entry, so as many as there are entries are
enough. -/
def find (table : Table) (key : Key) : Option Entry :=
  table.entries[table.search key table.size 0 table.size]?.filter fun entry =>
    entry.key.order key = .eq

end Table

end Residual
