import Mathlib.Order.Bounds.Basic
import Residual.Proofs.Lookup.Order

/-!
# Building tables

What becomes of a list of entries that is made a table, as it is or sorted first. The order in which
entries are handed in does not matter, nor does it matter how a sort arranges entries with the same
key: with distinct keys there is one sorted arrangement, and with repeated keys only the keys reach
the report.
-/

namespace Residual

namespace Key

/-- The key is at this place, counted from zero, among some keys in ascending order: at most that
many are below it, and more than that many are not above it. -/
def HasRank (keys : List Key) (rank : Nat) (key : Key) : Prop :=
  keys.countP (fun other => other.order key = .lt) ≤ rank ∧
    rank < keys.countP fun other => (other.order key).isLE

/-- The keys at `index` and right before it, in ascending order, are the same. -/
def RepeatsAt (keys : List Key) (index : Nat) : Prop :=
  ∃ rank key, index = rank + 1 ∧ HasRank keys rank key ∧ HasRank keys (rank + 1) key

theorem HasRank.perm {keys others : List Key} {rank : Nat} {key : Key}
    (hrank : HasRank keys rank key) (hperm : others.Perm keys) : HasRank others rank key := by
  unfold HasRank
  rw [hperm.countP_eq, hperm.countP_eq]
  exact hrank

theorem repeatsAt_iff_of_perm {keys others : List Key} (hperm : others.Perm keys) (index : Nat) :
    RepeatsAt others index ↔ RepeatsAt keys index := by
  constructor
  · rintro ⟨rank, key, hindex, hbefore, hat⟩
    exact ⟨rank, key, hindex, hbefore.perm hperm.symm, hat.perm hperm.symm⟩
  · rintro ⟨rank, key, hindex, hbefore, hat⟩
    exact ⟨rank, key, hindex, hbefore.perm hperm, hat.perm hperm⟩

/-- Among ascending keys, those below a threshold are a front part, so that their number tells which
places have them. -/
theorem lt_countP_iff {keys : List Key}
    (hascending : keys.Pairwise fun left right => (left.order right).isLE)
    {below : Key → Bool}
    (hbelow : ∀ left right : Key, (left.order right).isLE → below right = true → below left = true)
    {rank : Nat} {key : Key} (hkey : keys[rank]? = some key) :
    rank < keys.countP below ↔ below key = true := by
  induction keys generalizing rank with
  | nil => cases hkey
  | cons first rest ih =>
      obtain ⟨hfirst, hrest⟩ := List.pairwise_cons.mp hascending
      by_cases hholds : below first = true
      · rw [List.countP_cons_of_pos hholds]
        cases rank with
        | zero =>
            cases hkey
            simp [hholds]
        | succ rank =>
            rw [List.getElem?_cons_succ] at hkey
            rw [Nat.succ_lt_succ_iff]
            exact ih hrest hkey
      · have hnone : ∀ other ∈ first :: rest, ¬ below other = true := by
          intro other hother hbelowOther
          rcases List.mem_cons.mp hother with rfl | hmem
          · exact hholds hbelowOther
          · exact hholds (hbelow first other (hfirst other hmem) hbelowOther)
        rw [List.countP_eq_zero.mpr hnone]
        simp [hnone key (List.mem_of_getElem? hkey)]

/-- The key with a given rank stands at that place once the keys are sorted. -/
theorem getElem?_eq_some_iff_hasRank {keys : List Key}
    (hascending : keys.Pairwise fun left right => (left.order right).isLE) (rank : Nat)
    (key : Key) :
    keys[rank]? = some key ↔ HasRank keys rank key := by
  have hbelow : ∀ left right : Key, (left.order right).isLE →
      decide (right.order key = .lt) = true → decide (left.order key = .lt) = true := by
    intro left right hle hlt
    exact decide_eq_true (Std.TransCmp.lt_of_isLE_of_lt hle (of_decide_eq_true hlt))
  have hupto : ∀ left right : Key, (left.order right).isLE → (right.order key).isLE →
      (left.order key).isLE := fun _ _ => Std.TransCmp.isLE_trans
  constructor
  · intro hkey
    constructor
    · rw [← Nat.not_lt, lt_countP_iff hascending hbelow hkey]
      simp [order_self]
    · rw [lt_countP_iff hascending hupto hkey, order_self]
      rfl
  · rintro ⟨hlow, hhigh⟩
    have hlength : rank < keys.length := Nat.lt_of_lt_of_le hhigh List.countP_le_length
    have hfound := List.getElem?_eq_getElem hlength
    -- Whatever stands there is neither below nor above the key, so it is the key.
    rw [← Nat.not_lt, lt_countP_iff hascending hbelow hfound, decide_eq_true_iff] at hlow
    rw [lt_countP_iff hascending hupto hfound] at hhigh
    rcases Ordering.isLE_iff_eq_lt_or_eq_eq.mp hhigh with hlt | heq
    · exact absurd hlt hlow
    · rw [hfound, order_eq_iff.mp heq]

end Key

namespace Table

/-- The entry at `index` is not strictly above the one before it. -/
def OutOfOrder (entries : List Entry) (index : Nat) : Prop :=
  ∃ place left right, index = place + 1 ∧ entries[place]? = some left ∧
    entries[place + 1]? = some right ∧ left.key.order right.key ≠ .lt

theorem outOfOrder_cons_iff {first second : Entry} {rest : List Entry}
    (hlt : first.key.order second.key = .lt) (index : Nat) :
    OutOfOrder (first :: second :: rest) index ↔
      ∃ later, index = later + 1 ∧ OutOfOrder (second :: rest) later := by
  constructor
  · rintro ⟨place, left, right, rfl, hleft, hright, hnot⟩
    cases place with
    | zero =>
        cases hleft
        cases hright
        exact absurd hlt hnot
    | succ place => exact ⟨place + 1, rfl, place, left, right, rfl, hleft, hright, hnot⟩
  · rintro ⟨later, rfl, place, left, right, rfl, hleft, hright, hnot⟩
    exact ⟨place + 1, left, right, rfl, hleft, hright, hnot⟩

/-- What the check reports is the first entry that is out of order. -/
theorem firstUnsorted?_eq_some_iff (entries : List Entry) (index : Nat) :
    firstUnsorted? entries = some index ↔ IsLeast {place | OutOfOrder entries place} index := by
  fun_induction firstUnsorted? entries generalizing index with
  | case1 first second rest hlt ih =>
      rw [Option.map_eq_some_iff]
      constructor
      · rintro ⟨later, hlater, rfl⟩
        obtain ⟨hout, hleast⟩ := (ih later).mp hlater
        refine ⟨(outOfOrder_cons_iff hlt _).mpr ⟨later, rfl, hout⟩, ?_⟩
        intro other hother
        obtain ⟨behind, rfl, hbehind⟩ := (outOfOrder_cons_iff hlt other).mp hother
        exact Nat.succ_le_succ (hleast hbehind)
      · rintro ⟨hout, hleast⟩
        obtain ⟨later, rfl, hlater⟩ := (outOfOrder_cons_iff hlt index).mp hout
        refine ⟨later, (ih later).mpr ⟨hlater, ?_⟩, rfl⟩
        intro other hother
        exact Nat.le_of_succ_le_succ (hleast ((outOfOrder_cons_iff hlt _).mpr ⟨other, rfl, hother⟩))
  | case2 first second rest hnot =>
      have hout : OutOfOrder (first :: second :: rest) 1 := ⟨0, first, second, rfl, rfl, rfl, hnot⟩
      have hpos : ∀ other, OutOfOrder (first :: second :: rest) other → 1 ≤ other := by
        rintro other ⟨place, left, right, rfl, -⟩
        exact Nat.le_add_left 1 place
      constructor
      · intro hindex
        cases hindex
        exact ⟨hout, hpos⟩
      · rintro ⟨hindex, hleast⟩
        exact congrArg some (Nat.le_antisymm (hpos index hindex) (hleast hout))
  | case3 entries hshort =>
      constructor
      · intro hindex
        cases hindex
      · rintro ⟨⟨place, left, right, -, hleft, hright, -⟩, -⟩
        cases entries with
        | nil => cases hleft
        | cons first tail =>
            cases tail with
            | nil => simp at hright
            | cons second rest => exact absurd rfl (hshort first second rest)

/-- A list is strictly sorted as soon as every entry is above the one before it. -/
theorem strictlySorted_iff_forall_not_outOfOrder (entries : List Entry) :
    StrictlySorted entries ↔ ∀ index, ¬ OutOfOrder entries index := by
  constructor
  · rintro hsorted index ⟨place, left, right, -, hleft, hright, hnot⟩
    exact hnot (order_of_index_lt hsorted hleft hright (Nat.lt_succ_self place))
  · intro hordered
    rw [← firstUnsorted?_eq_none_iff, Option.eq_none_iff_forall_ne_some]
    intro index hindex
    exact hordered index ((firstUnsorted?_eq_some_iff entries index).mp hindex).1

theorem outOfOrder_take_iff (entries : List Entry) (count index : Nat) :
    OutOfOrder (entries.take count) index ↔ index < count ∧ OutOfOrder entries index := by
  constructor
  · rintro ⟨place, left, right, rfl, hleft, hright, hnot⟩
    obtain ⟨hlength, -⟩ := List.getElem?_eq_some_iff.mp hright
    rw [List.length_take] at hlength
    have hcount : place + 1 < count := Nat.lt_of_lt_of_le hlength (Nat.min_le_left _ _)
    rw [List.getElem?_take_of_lt (Nat.lt_of_succ_lt hcount)] at hleft
    rw [List.getElem?_take_of_lt hcount] at hright
    exact ⟨hcount, place, left, right, rfl, hleft, hright, hnot⟩
  · rintro ⟨hcount, place, left, right, rfl, hleft, hright, hnot⟩
    refine ⟨place, left, right, rfl, ?_, ?_, hnot⟩
    · rw [List.getElem?_take_of_lt (Nat.lt_of_succ_lt hcount), hleft]
    · rw [List.getElem?_take_of_lt hcount, hright]

/-- The first entry that is out of order ends the shortest front part that is not strictly
sorted. -/
theorem isLeast_not_strictlySorted_take {entries : List Entry} {index : Nat}
    (hleast : IsLeast {place | OutOfOrder entries place} index) :
    IsLeast {place | ¬ StrictlySorted (entries.take (place + 1))} index := by
  constructor
  · intro hsorted
    refine (strictlySorted_iff_forall_not_outOfOrder _).mp hsorted index ?_
    exact (outOfOrder_take_iff entries _ index).mpr ⟨Nat.lt_succ_self index, hleast.1⟩
  · intro place hunsorted
    by_contra hlt
    apply hunsorted
    rw [strictlySorted_iff_forall_not_outOfOrder]
    intro other hother
    obtain ⟨hle, hout⟩ := (outOfOrder_take_iff entries _ other).mp hother
    exact hlt ((hleast.2 hout).trans (Nat.le_of_lt_succ hle))

theorem ofSorted_eq_ok_iff (entries : List Entry) (table : Table) :
    ofSorted entries = .ok table ↔ StrictlySorted entries ∧ table = ofUnchecked entries := by
  rw [← firstUnsorted?_eq_none_iff]
  unfold ofSorted check ofUnchecked
  cases firstUnsorted? entries with
  | none => simp [eq_comm]
  | some index => simp

theorem ofSorted_eq_error_iff (entries : List Entry) (error : Error) :
    ofSorted entries = .error error ↔
      ∃ index, error = .unsortedTable index ∧ IsLeast {place | OutOfOrder entries place} index := by
  simp only [← firstUnsorted?_eq_some_iff]
  unfold ofSorted check ofUnchecked
  cases firstUnsorted? entries with
  | none => simp
  | some index => simp [eq_comm]

theorem Ascending.keys {entries : List Entry} (hascending : Ascending entries) :
    (entries.map Entry.key).Pairwise fun left right => (left.order right).isLE :=
  List.pairwise_map.mpr hascending

/-- In ascending entries, the one that is out of order repeats the key before it. -/
theorem outOfOrder_iff_repeatsAt {entries : List Entry} (hascending : Ascending entries)
    (index : Nat) :
    OutOfOrder entries index ↔ Key.RepeatsAt (entries.map Entry.key) index := by
  unfold Key.RepeatsAt
  simp only [← Key.getElem?_eq_some_iff_hasRank hascending.keys, List.getElem?_map,
    Option.map_eq_some_iff]
  constructor
  · rintro ⟨place, left, right, rfl, hleft, hright, hnot⟩
    obtain ⟨hlow, rfl⟩ := List.getElem?_eq_some_iff.mp hleft
    obtain ⟨hhigh, rfl⟩ := List.getElem?_eq_some_iff.mp hright
    have hle := List.pairwise_iff_getElem.mp hascending _ _ hlow hhigh (Nat.lt_succ_self place)
    have heq := (Ordering.isLE_iff_eq_lt_or_eq_eq.mp hle).resolve_left hnot
    exact ⟨place, _, rfl, ⟨_, hleft, rfl⟩, _, hright, (Key.order_eq_iff.mp heq).symm⟩
  · rintro ⟨place, key, rfl, ⟨left, hleft, rfl⟩, right, hright, hsame⟩
    refine ⟨place, left, right, rfl, hleft, hright, ?_⟩
    rw [hsame, Key.order_self]
    exact Ordering.noConfusion

/-- Two ascending arrangements of the same entries have the same outcome. -/
theorem ofSorted_eq_of_perm {left right : List Entry} (hperm : left.Perm right)
    (hleft : Ascending left) (hright : Ascending right) : ofSorted left = ofSorted right := by
  have hkeys : left.map Entry.key = right.map Entry.key := by
    refine List.Perm.eq_of_pairwise ?_ hleft.keys hright.keys (hperm.map Entry.key)
    intro first second _ _ hle hge
    exact Key.order_eq_iff.mp (Std.OrientedCmp.isLE_antisymm hle hge)
  have hsame := firstUnsorted?_congr hkeys
  cases hfirst : firstUnsorted? left with
  | some index =>
      rw [hfirst] at hsame
      simp [ofSorted, check, ofUnchecked, hfirst, ← hsame]
  | none =>
      -- Without repeated keys there is nothing left to arrange in two ways.
      have hsorted := (firstUnsorted?_eq_none_iff left).mp hfirst
      have hother := (firstUnsorted?_eq_none_iff right).mp (hsame.symm.trans hfirst)
      have heq : left = right := by
        refine List.Perm.eq_of_pairwise ?_ hsorted hother hperm
        intro first second _ _ hlt hgt
        rw [Key.order_swap, hlt] at hgt
        cases hgt
      rw [heq]

theorem ofUnsorted_eq_ofSorted {entries sorted : List Entry} (hperm : sorted.Perm entries)
    (hascending : Ascending sorted) : ofUnsorted entries = ofSorted sorted := by
  refine ofSorted_eq_of_perm ?_ (ascending_mergeSort entries) hascending
  exact (List.mergeSort_perm entries _).trans hperm.symm

theorem ofUnsorted_eq_ok_iff (entries : List Entry) (table : Table) :
    ofUnsorted entries = .ok table ↔
      table.entries.toList.Perm entries ∧ StrictlySorted table.entries.toList := by
  constructor
  · intro hok
    obtain ⟨hsorted, rfl⟩ := (ofSorted_eq_ok_iff _ table).mp hok
    exact ⟨List.mergeSort_perm entries _, hsorted⟩
  · rintro ⟨hperm, hsorted⟩
    have hascending : Ascending table.entries.toList :=
      hsorted.imp fun hlt => Ordering.isLE_iff_eq_lt_or_eq_eq.mpr (Or.inl hlt)
    rw [ofUnsorted_eq_ofSorted hperm hascending, ofSorted_eq_ok hsorted]
    rfl

theorem exists_ofUnsorted_eq_ok_iff (entries : List Entry) :
    (∃ table, ofUnsorted entries = .ok table) ↔ (entries.map Entry.key).Nodup := by
  constructor
  · rintro ⟨table, hok⟩
    obtain ⟨hperm, hsorted⟩ := (ofUnsorted_eq_ok_iff entries table).mp hok
    rw [← (hperm.map Entry.key).nodup_iff]
    refine List.pairwise_map.mpr (hsorted.imp ?_)
    intro left right hlt heq
    rw [heq, Key.order_self] at hlt
    cases hlt
  · intro hkeys
    obtain ⟨sorted, -, -, hok⟩ := exists_ofUnsorted_eq_ok hkeys
    exact ⟨_, hok⟩

/-- With repeated keys, the report names the first repetition in ascending order, in which the
functions of the entries have no part. -/
theorem exists_ofUnsorted_eq_error {entries : List Entry}
    (hkeys : ¬ (entries.map Entry.key).Nodup) :
    ∃ index, ofUnsorted entries = .error (.unsortedTable index) ∧
      IsLeast {place | Key.RepeatsAt (entries.map Entry.key) place} index := by
  rw [← exists_ofUnsorted_eq_ok_iff] at hkeys
  cases hresult : ofUnsorted entries with
  | ok table => exact absurd ⟨table, hresult⟩ hkeys
  | error error =>
      obtain ⟨index, rfl, hleast⟩ := (ofSorted_eq_error_iff _ error).mp hresult
      have hperm := (List.mergeSort_perm entries
        fun left right => (left.key.order right.key).isLE).map Entry.key
      refine ⟨index, rfl, ?_⟩
      simp only [outOfOrder_iff_repeatsAt (ascending_mergeSort entries),
        Key.repeatsAt_iff_of_perm hperm] at hleast
      exact hleast

/-- A table is built from entries in any order. Sorting succeeds if and only if no two entries have
the same key, and then gives the one strictly sorted arrangement; otherwise it reports the least
index at which the keys, in ascending order, repeat. Neither depends on the order of the entries or
on how a sort arranges entries with the same key. Entries that are taken as they are have to be
strictly sorted, or the shortest front part that is not is reported. -/
theorem ofUnsorted_ignores_order (entries : List Entry) :
    ((∃ table, ofUnsorted entries = .ok table) ↔ (entries.map Entry.key).Nodup) ∧
      (∀ table, ofUnsorted entries = .ok table →
        table.entries.toList.Perm entries ∧ StrictlySorted table.entries.toList) ∧
      (¬ (entries.map Entry.key).Nodup → ∃ index,
        ofUnsorted entries = .error (.unsortedTable index) ∧
          IsLeast {place | Key.RepeatsAt (entries.map Entry.key) place} index) ∧
      (∀ other : List Entry, other.Perm entries →
        ofUnsorted other = ofUnsorted entries ∧
          (Ascending other → ofSorted other = ofUnsorted entries)) ∧
      (∀ table, ofSorted entries = .ok table ↔
        StrictlySorted entries ∧ table = ofUnchecked entries) ∧
      (¬ StrictlySorted entries → ∃ index,
        ofSorted entries = .error (.unsortedTable index) ∧
          IsLeast {place | ¬ StrictlySorted (entries.take (place + 1))} index) := by
  refine ⟨exists_ofUnsorted_eq_ok_iff entries, ?_, exists_ofUnsorted_eq_error, ?_,
    ofSorted_eq_ok_iff entries, ?_⟩
  · intro table hok
    exact (ofUnsorted_eq_ok_iff entries table).mp hok
  · intro other hperm
    constructor
    · apply ofUnsorted_eq_ofSorted _ (ascending_mergeSort entries)
      exact (List.mergeSort_perm entries _).trans hperm.symm
    · intro hascending
      exact (ofUnsorted_eq_ofSorted hperm hascending).symm
  · intro hunsorted
    cases hresult : ofSorted entries with
    | ok table => exact absurd ((ofSorted_eq_ok_iff entries table).mp hresult).1 hunsorted
    | error error =>
        obtain ⟨index, rfl, hleast⟩ := (ofSorted_eq_error_iff entries error).mp hresult
        exact ⟨index, rfl, isLeast_not_strictlySorted_take hleast⟩

end Table

end Residual
