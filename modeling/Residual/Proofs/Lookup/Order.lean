import Residual.Lookup.Table

/-!
# Sorted tables and their search

The order of keys is a lawful linear order, a table is accepted when every key is below all later
ones, sorting gives such a table whenever no two keys agree, and the search by halving finds the
entry of a key exactly when there is one.
-/

namespace Residual

namespace Key

instance : Std.TransCmp Key.order :=
  inferInstanceAs (Std.TransCmp (compareLex (compareOn Key.funcId) (compareOn Key.args)))

instance : Std.LawfulEqCmp Key.order where
  compare_self := Std.ReflCmp.compare_self
  eq_of_compare := by
    intro left right horder
    obtain ⟨hfunc, hargs⟩ := Ordering.then_eq_eq.mp horder
    cases left
    cases right
    rw [Key.mk.injEq]
    exact ⟨Std.LawfulEqOrd.eq_of_compare hfunc, Std.LawfulEqOrd.eq_of_compare hargs⟩

theorem order_self (key : Key) : key.order key = .eq := Std.ReflCmp.compare_self

theorem order_swap (left right : Key) : left.order right = (right.order left).swap :=
  Std.OrientedCmp.eq_swap

theorem order_eq_iff {left right : Key} : left.order right = .eq ↔ left = right :=
  Std.LawfulEqCmp.compare_eq_iff_eq

end Key

namespace Table

/-- Every key is below all later ones. -/
def StrictlySorted (entries : List Entry) : Prop :=
  entries.Pairwise fun left right => left.key.order right.key = .lt

theorem firstUnsorted?_eq_none_iff (entries : List Entry) :
    firstUnsorted? entries = none ↔ StrictlySorted entries := by
  fun_induction firstUnsorted? entries with
  | case1 first second rest hlt ih =>
      -- Only neighbours are compared; transitivity carries the order to all later entries.
      rw [Option.map_eq_none_iff, ih]
      constructor
      · intro hsorted
        refine List.pairwise_cons.mpr ⟨?_, hsorted⟩
        intro later hlater
        rcases List.mem_cons.mp hlater with hsecond | hrest
        · rw [hsecond]
          exact hlt
        · exact Std.TransCmp.lt_trans hlt (List.rel_of_pairwise_cons hsorted hrest)
      · intro hsorted
        exact List.Pairwise.of_cons hsorted
  | case2 first second rest hnot =>
      constructor
      · intro hnone
        cases hnone
      · intro hsorted
        exact absurd (List.rel_of_pairwise_cons hsorted List.mem_cons_self) hnot
  | case3 entries hshort =>
      match entries, hshort with
      | [], _ => simp [StrictlySorted]
      | [_], _ => simp [StrictlySorted]
      | first :: second :: rest, hshort => exact absurd rfl (hshort first second rest)

/-- Only the keys are looked at. -/
theorem firstUnsorted?_congr {left right : List Entry}
    (hkeys : left.map Entry.key = right.map Entry.key) :
    firstUnsorted? left = firstUnsorted? right := by
  fun_induction firstUnsorted? left generalizing right with
  | case1 first second rest hlt ih =>
      obtain ⟨lead, tail, rfl, hfirst, htail⟩ := List.map_eq_cons_iff.mp hkeys.symm
      obtain ⟨next, later, rfl, hsecond, -⟩ := List.map_eq_cons_iff.mp htail
      rw [ih htail.symm, firstUnsorted?, hfirst, hsecond, if_pos hlt]
  | case2 first second rest hnot =>
      obtain ⟨lead, tail, rfl, hfirst, htail⟩ := List.map_eq_cons_iff.mp hkeys.symm
      obtain ⟨next, later, rfl, hsecond, -⟩ := List.map_eq_cons_iff.mp htail
      rw [firstUnsorted?, hfirst, hsecond, if_neg hnot]
  | case3 left hshort =>
      have hlength := congrArg List.length hkeys
      rw [List.length_map, List.length_map] at hlength
      match left, right, hlength, hshort with
      | [], [], _, _ => rfl
      | [_], [_], _, _ => rfl
      | first :: second :: rest, _, _, hshort => exact absurd rfl (hshort first second rest)

theorem check_eq_ok {table : Table} (hsorted : StrictlySorted table.entries.toList) :
    table.check = .ok () := by
  simp [check, (firstUnsorted?_eq_none_iff _).mpr hsorted]

theorem check_ofUnchecked {entries : List Entry} (hsorted : StrictlySorted entries) :
    (ofUnchecked entries).check = .ok () := check_eq_ok hsorted

theorem exists_check_eq_error {table : Table} (hunsorted : ¬ StrictlySorted table.entries.toList) :
    ∃ index, firstUnsorted? table.entries.toList = some index ∧
      table.check = .error (.unsortedTable index) := by
  rw [← firstUnsorted?_eq_none_iff] at hunsorted
  obtain ⟨index, hindex⟩ := Option.ne_none_iff_exists'.mp hunsorted
  exact ⟨index, hindex, by simp [check, hindex]⟩

theorem ofSorted_eq_ok {entries : List Entry} (hsorted : StrictlySorted entries) :
    ofSorted entries = .ok (ofUnchecked entries) := by
  simp [ofSorted, check_ofUnchecked hsorted]

/-- No key is below an earlier one. -/
def Ascending (entries : List Entry) : Prop :=
  entries.Pairwise fun left right => (left.key.order right.key).isLE

theorem ascending_mergeSort (entries : List Entry) :
    Ascending (entries.mergeSort fun left right => (left.key.order right.key).isLE) := by
  apply List.pairwise_mergeSort
  · intro left middle right
    exact Std.TransCmp.isLE_trans
  · intro left right
    rw [Key.order_swap right.key left.key]
    cases left.key.order right.key <;> rfl

/-- Sorting puts no key below an earlier one; that it puts none beside it is where distinctness
counts. -/
theorem strictlySorted_of_ascending {entries : List Entry} (hascending : Ascending entries)
    (hkeys : (entries.map Entry.key).Nodup) : StrictlySorted entries := by
  have hne : entries.Pairwise fun left right => left.key ≠ right.key := List.pairwise_map.mp hkeys
  refine (hascending.and hne).imp ?_
  intro left right hboth
  rcases Ordering.isLE_iff_eq_lt_or_eq_eq.mp hboth.1 with hlt | heq
  · exact hlt
  · exact absurd (Key.order_eq_iff.mp heq) hboth.2

/-- Entries in any order have a table as soon as their keys are distinct. -/
theorem exists_ofUnsorted_eq_ok {entries : List Entry} (hkeys : (entries.map Entry.key).Nodup) :
    ∃ sorted : List Entry, sorted.Perm entries ∧ StrictlySorted sorted ∧
      ofUnsorted entries = .ok (ofUnchecked sorted) := by
  have hperm := List.mergeSort_perm entries fun left right => (left.key.order right.key).isLE
  have hsorted := strictlySorted_of_ascending (ascending_mergeSort entries)
    ((hperm.map Entry.key).nodup_iff.mpr hkeys)
  exact ⟨_, hperm, hsorted, ofSorted_eq_ok hsorted⟩

theorem order_of_index_lt {entries : List Entry} (hsorted : StrictlySorted entries)
    {low high : Nat} {left right : Entry} (hleft : entries[low]? = some left)
    (hright : entries[high]? = some right) (hlt : low < high) :
    left.key.order right.key = .lt := by
  obtain ⟨hlow, rfl⟩ := List.getElem?_eq_some_iff.mp hleft
  obtain ⟨hhigh, rfl⟩ := List.getElem?_eq_some_iff.mp hright
  exact List.pairwise_iff_getElem.mp hsorted low high hlow hhigh hlt

/-- Whatever a search ends at, only an entry with the key is returned. -/
theorem find_sound {table : Table} {key : Key} {entry : Entry}
    (hfound : table.find key = some entry) :
    entry ∈ table.entries.toList ∧ entry.key = key := by
  obtain ⟨hentry, horder⟩ := Option.filter_eq_some_iff.mp hfound
  rw [← Array.getElem?_toList] at hentry
  exact ⟨List.mem_of_getElem? hentry, Key.order_eq_iff.mp (of_decide_eq_true horder)⟩

/-- In a sorted table, the entries above a key are those behind its place. -/
theorem isAbove_iff {table : Table} (hsorted : StrictlySorted table.entries.toList)
    {index : Nat} {entry : Entry} (hentry : table.entries.toList[index]? = some entry)
    {place : Nat} (hplace : place < table.size) :
    table.isAbove entry.key place = true ↔ index < place := by
  have hread : table.entries.toList[place]? = some table.entries[place] := by
    rw [Array.getElem?_toList, Array.getElem?_eq_getElem hplace]
  rw [isAbove, Array.getElem?_eq_getElem hplace, Option.any_some, decide_eq_true_iff]
  rcases Nat.lt_trichotomy place index with hlt | rfl | hgt
  · have horder := order_of_index_lt hsorted hread hentry hlt
    simp [horder, Nat.not_lt_of_lt hlt]
  · rw [hentry] at hread
    rw [← Option.some.inj hread]
    simp [Key.order_self]
  · have horder := order_of_index_lt hsorted hentry hread hgt
    rw [Key.order_swap, Ordering.swap_eq_lt] at horder
    simp [horder, hgt]

/-- The entries that are left never lose the place of the key, and in the end it is the only one. -/
theorem search_eq_index {table : Table} (hsorted : StrictlySorted table.entries.toList)
    {index : Nat} {entry : Entry} (hentry : table.entries.toList[index]? = some entry)
    {steps start size : Nat} (hstart : start ≤ index) (hindex : index < start + size)
    (hsize : start + size ≤ table.size) (hsteps : size ≤ steps + 1) :
    table.search entry.key steps start size = index := by
  induction steps generalizing start size with
  | zero =>
      rw [search]
      omega
  | succ steps ih =>
      rw [search]
      by_cases hone : size ≤ 1
      · rw [if_pos hone]
        omega
      · rw [if_neg hone]
        dsimp only
        have habove := isAbove_iff hsorted hentry
          (show start + size / 2 < table.size by omega)
        -- The half that is kept is the one that has the place in it.
        split
        next hgt =>
          rw [habove] at hgt
          exact ih hstart (by omega) (by omega) (by omega)
        next hle =>
          rw [habove] at hle
          exact ih (by omega) (by omega) (by omega) (by omega)

theorem find_eq_some_iff {table : Table} (hsorted : StrictlySorted table.entries.toList)
    (key : Key) (entry : Entry) :
    table.find key = some entry ↔ entry ∈ table.entries.toList ∧ entry.key = key := by
  constructor
  · exact find_sound
  · rintro ⟨hmem, rfl⟩
    obtain ⟨index, hentry⟩ := List.getElem?_of_mem hmem
    have hlt : index < table.size := (List.getElem?_eq_some_iff.mp hentry).1
    have hplace : table.search entry.key table.size 0 table.size = index :=
      search_eq_index hsorted hentry (Nat.zero_le _) (by omega) (by omega) (by omega)
    rw [find, hplace, ← Array.getElem?_toList, hentry]
    simp

theorem find_eq_none_iff {table : Table} (hsorted : StrictlySorted table.entries.toList)
    (key : Key) : table.find key = none ↔ ∀ entry ∈ table.entries.toList, entry.key ≠ key := by
  constructor
  · intro hnone entry hmem hkey
    rw [(find_eq_some_iff hsorted key entry).mpr ⟨hmem, hkey⟩] at hnone
    cases hnone
  · intro habsent
    cases hfind : table.find key with
    | none => rfl
    | some entry =>
        obtain ⟨hmem, hkey⟩ := find_sound hfind
        exact absurd hkey (habsent entry hmem)

theorem check_eq_ok_iff (table : Table) :
    table.check = .ok () ↔ StrictlySorted table.entries.toList := by
  refine ⟨?_, check_eq_ok⟩
  intro hcheck
  by_cases hsorted : StrictlySorted table.entries.toList
  · exact hsorted
  · obtain ⟨index, -, herror⟩ := exists_check_eq_error hsorted
    rw [hcheck] at herror
    cases herror

/-- The tables that pass the check are the strictly sorted ones. In these a search returns the entry
of the key if there is one and nothing otherwise. In any other table it can miss an entry, but what
it returns is an entry of the table and has the key. -/
theorem find_returns_exactly_entries (table : Table) (key : Key) :
    (table.check = .ok () ↔ StrictlySorted table.entries.toList) ∧
      (StrictlySorted table.entries.toList →
        (∀ entry, table.find key = some entry ↔
          entry ∈ table.entries.toList ∧ entry.key = key) ∧
        (table.find key = none ↔ ∀ entry ∈ table.entries.toList, entry.key ≠ key)) ∧
      ∀ entry, table.find key = some entry → entry ∈ table.entries.toList ∧ entry.key = key := by
  refine ⟨check_eq_ok_iff table, ?_, ?_⟩
  · intro hsorted
    exact ⟨find_eq_some_iff hsorted key, find_eq_none_iff hsorted key⟩
  · intro entry hfound
    exact find_sound hfound

/-- Three entries, the arguments of the first a prefix of the second's. -/
def prefixedEntries : List Entry :=
  [⟨1, [5], ⟨74, by decide⟩⟩, ⟨1, [5, 0], ⟨75, by decide⟩⟩, ⟨2, [], ⟨76, by decide⟩⟩]

/-- A key between two entries is not taken for either, and in the reversed table a present key is
missed. -/
theorem find_returns_exactly_entries_prefixes :
    StrictlySorted prefixedEntries ∧
      ((ofUnchecked prefixedEntries).find ⟨1, [5, 0]⟩ = prefixedEntries[1]?) ∧
      (∀ entry ∈ prefixedEntries, entry.key ≠ ⟨1, [5, 0, 0]⟩) ∧
      ¬ StrictlySorted prefixedEntries.reverse ∧
      (ofUnchecked prefixedEntries.reverse).find ⟨2, []⟩ = none := by
  obtain ⟨-, hexact, -⟩ := find_returns_exactly_entries (ofUnchecked prefixedEntries) ⟨1, [5, 0]⟩
  obtain ⟨-, hbetween, -⟩ :=
    find_returns_exactly_entries (ofUnchecked prefixedEntries) ⟨1, [5, 0, 0]⟩
  have hsorted : StrictlySorted prefixedEntries := (firstUnsorted?_eq_none_iff _).mp (by decide)
  refine ⟨hsorted, ?_, (hbetween hsorted).2.mp (by decide), ?_, by decide⟩
  · exact ((hexact hsorted).1 _).mpr (by decide)
  · rw [← firstUnsorted?_eq_none_iff]
    decide

end Table

end Residual
