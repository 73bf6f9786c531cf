import Residual.Function.Numbering

/-!
# Function tables

What a function table answers to several functions in a row, and what the two tables have in common:
zero is no index, and an index leads back to its function. A dense numbering only grows at its end,
so a number that was given out keeps its function in every later numbering.
-/

namespace Residual

/-- Every index but zero is a reference. -/
theorem FuncRef.exists_ofRaw?_toUInt64 {number : UInt32} (hnumber : number ≠ 0) :
    ∃ func, ofRaw? number.toUInt64 = some func := by
  have hwide : number.toUInt64 ≠ 0 := by
    intro hzero
    apply hnumber
    rw [← UInt32.toUInt32_toUInt64 number, hzero]
    rfl
  exact ⟨⟨number.toUInt64, hwide⟩, dif_pos hwide⟩

/-- A reference with a 32-bit value is its own index. -/
theorem FuncRef.ofRaw?_toUInt32 {func : FuncRef} (hfits : func.raw.toNat < 0x100000000) :
    ofRaw? func.raw.toUInt32.toUInt64 = some func := by
  have hraw : func.raw.toUInt32.toUInt64 = func.raw := by
    apply UInt64.toNat_inj.mp
    rw [UInt32.toNat_toUInt64, UInt64.toNat_toUInt32, Nat.mod_eq_of_lt hfits]
  rw [hraw, ofRaw?_raw]

theorem FuncRef.toUInt32_ne_zero {func : FuncRef} (hfits : func.raw.toNat < 0x100000000) :
    func.raw.toUInt32 ≠ 0 := by
  intro hzero
  have hback := ofRaw?_toUInt32 hfits
  rw [hzero] at hback
  cases hback

namespace FuncTable

variable {Funcs : Type} [FuncTable Funcs]

/-- Gives several functions their indices, up to the first failure. -/
def assignAll (funcs : Funcs) : List FuncRef → Except Error (List UInt32) × Funcs
  | [] => (.ok [], funcs)
  | func :: rest =>
    match assign funcs func with
    | (.error error, later) => (.error error, later)
    | (.ok number, later) =>
      match assignAll later rest with
      | (.error error, last) => (.error error, last)
      | (.ok numbers, last) => (.ok (number :: numbers), last)

theorem assignAll_append (funcs : Funcs) (first second : List FuncRef) :
    assignAll funcs (first ++ second) =
      match assignAll funcs first with
      | (.error error, later) => (.error error, later)
      | (.ok numbers, later) =>
        match assignAll later second with
        | (.error error, last) => (.error error, last)
        | (.ok others, last) => (.ok (numbers ++ others), last) := by
  induction first generalizing funcs with
  | nil =>
      rw [List.nil_append, assignAll]
      dsimp only
      rcases assignAll funcs second with ⟨error | others, last⟩
      · rfl
      · rfl
  | cons func rest ih =>
      rw [List.cons_append, assignAll, assignAll]
      rcases assign funcs func with ⟨error | number, middle⟩
      · rfl
      · dsimp only
        rw [ih]
        rcases assignAll middle rest with ⟨error | numbers, later⟩
        · rfl
        · dsimp only
          rcases assignAll later second with ⟨error | others, last⟩
          · rfl
          · rfl

theorem assignAll_cons_eq_ok {funcs later : Funcs} {func : FuncRef} {rest : List FuncRef}
    {numbers : List UInt32} (hassign : assignAll funcs (func :: rest) = (.ok numbers, later)) :
    ∃ number middle others, assign funcs func = (.ok number, middle) ∧
      assignAll middle rest = (.ok others, later) ∧ numbers = number :: others := by
  rw [assignAll] at hassign
  split at hassign
  next => cases hassign
  next number middle hfunc =>
    split at hassign
    next => cases hassign
    next others last hrest =>
      cases hassign
      exact ⟨number, middle, others, hfunc, hrest, rfl⟩

/-- Every function gets one index. -/
theorem length_of_assignAll {funcs later : Funcs} {list : List FuncRef} {numbers : List UInt32}
    (hassign : assignAll funcs list = (.ok numbers, later)) : numbers.length = list.length := by
  induction list generalizing funcs numbers with
  | nil =>
      cases hassign
      rfl
  | cons func rest ih =>
      obtain ⟨number, middle, others, -, hrest, rfl⟩ := assignAll_cons_eq_ok hassign
      rw [List.length_cons, List.length_cons, ih hrest]

/-- What is made of the indices of some functions is made only if all of them got theirs. -/
theorem exists_of_map_assignAll {Made : Type} {make : List UInt32 → Made} {made : Made}
    {funcs later : Funcs} {list : List FuncRef}
    (hmade : ((assignAll funcs list).1.map make, (assignAll funcs list).2) = (.ok made, later)) :
    ∃ numbers, assignAll funcs list = (.ok numbers, later) ∧ made = make numbers := by
  rcases hassign : assignAll funcs list with ⟨error | numbers, last⟩
  · rw [hassign] at hmade
    cases hmade
  · rw [hassign] at hmade
    cases hmade
    exact ⟨numbers, rfl, rfl⟩

end FuncTable

theorem DirectIndex.assignAll_eq_ok {index later : DirectIndex} {funcs : List FuncRef}
    {numbers : List UInt32} (hassign : FuncTable.assignAll index funcs = (.ok numbers, later)) :
    (∀ func ∈ funcs, func.raw.toNat < 0x100000000) ∧
      numbers = funcs.map fun func => func.raw.toUInt32 := by
  induction funcs generalizing index numbers with
  | nil =>
      cases hassign
      exact ⟨fun _ hmem => absurd hmem List.not_mem_nil, rfl⟩
  | cons func rest ih =>
      obtain ⟨number, middle, others, hfunc, hrest, rfl⟩ := FuncTable.assignAll_cons_eq_ok hassign
      obtain ⟨hfits, rfl⟩ := ih hrest
      obtain ⟨hnumber, -⟩ := Prod.mk.inj hfunc
      split at hnumber
      next hfirst =>
        cases hnumber
        exact ⟨List.forall_mem_cons.mpr ⟨hfirst, hfits⟩, rfl⟩
      next => cases hnumber

namespace FuncIndex

/-- A function has a number, and the number fits into a word. -/
def Numbered (index : FuncIndex) (func : FuncRef) : Prop :=
  func ∈ index.refs ∧ index.position func + 1 < 0x100000000

theorem mem_refs_enroll (index : FuncIndex) (func : FuncRef) : func ∈ (index.enroll func).refs := by
  unfold enroll
  split
  next hmem => exact hmem
  next => simp

theorem enroll_of_mem {index : FuncIndex} {func : FuncRef} (hmem : func ∈ index.refs) :
    index.enroll func = index := by
  rw [enroll, dif_pos hmem]

theorem refs_prefix_enroll (index : FuncIndex) (func : FuncRef) :
    index.refs <+: (index.enroll func).refs := by
  unfold enroll
  split
  next => exact List.prefix_rfl
  next => exact List.prefix_append _ _

theorem position_enroll (index : FuncIndex) (func : FuncRef) :
    (index.enroll func).position func = index.position func := by
  -- A function without a number is looked for up to the end, and the end is where it is put.
  unfold enroll position
  split
  next => rfl
  next hmem =>
    rw [List.idxOf_append, if_neg hmem, List.idxOf_eq_length hmem, List.idxOf_cons_self,
      Nat.zero_add]

theorem position_later {earlier later : FuncIndex} (hgrows : earlier.refs <+: later.refs)
    {func : FuncRef} (hmem : func ∈ earlier.refs) :
    later.position func = earlier.position func := by
  obtain ⟨added, hadded⟩ := hgrows
  rw [position, ← hadded, List.idxOf_append, if_pos hmem, position]

theorem Numbered.later {earlier later : FuncIndex} (hgrows : earlier.refs <+: later.refs)
    {func : FuncRef} (hnumbered : earlier.Numbered func) : later.Numbered func := by
  refine ⟨hgrows.subset hnumbered.1, ?_⟩
  rw [position_later hgrows hnumbered.1]
  exact hnumbered.2

theorem number_later {earlier later : FuncIndex} (hgrows : earlier.refs <+: later.refs)
    {func : FuncRef} (hmem : func ∈ earlier.refs) : later.number func = earlier.number func := by
  rw [number, number, position_later hgrows hmem]

theorem toNat_number {index : FuncIndex} {func : FuncRef} (hnumbered : index.Numbered func) :
    (index.number func).toNat = index.position func + 1 :=
  UInt32.toNat_ofNat_of_lt' hnumbered.2

theorem number_ne_zero {index : FuncIndex} {func : FuncRef} (hnumbered : index.Numbered func) :
    index.number func ≠ 0 := by
  intro hzero
  have hnumber := toNat_number hnumbered
  rw [hzero] at hnumber
  cases hnumber

/-- The number of a function leads back to it. -/
theorem get?_number {index : FuncIndex} {func : FuncRef} (hnumbered : index.Numbered func) :
    index.get? (index.number func) = some func := by
  have hlt : index.position func < index.refs.length := List.idxOf_lt_length_of_mem hnumbered.1
  unfold get?
  rw [toNat_number hnumbered]
  change index.refs[index.position func]? = some func
  rw [List.getElem?_eq_getElem hlt]
  exact congrArg some (List.getElem_idxOf hlt)

theorem assign_eq_ok {index later : FuncIndex} {func : FuncRef} {number : UInt32}
    (hassign : FuncTable.assign index func = (.ok number, later)) :
    later = index.enroll func ∧ later.Numbered func ∧ number = later.number func := by
  obtain ⟨hnumber, rfl⟩ := Prod.mk.inj hassign
  split at hnumber
  next hfits =>
    cases hnumber
    refine ⟨rfl, ⟨index.mem_refs_enroll func, ?_⟩, ?_⟩
    · rw [position_enroll]
      exact hfits
    · rw [FuncIndex.number, FuncIndex.number, position_enroll]
  next => cases hnumber

/-- Numbering several functions keeps the numbers given out before and numbers them all. -/
theorem assignAll_eq_ok {index later : FuncIndex} {funcs : List FuncRef} {numbers : List UInt32}
    (hassign : FuncTable.assignAll index funcs = (.ok numbers, later)) :
    index.refs <+: later.refs ∧ (∀ func ∈ funcs, later.Numbered func) ∧
      numbers = funcs.map later.number := by
  induction funcs generalizing index numbers with
  | nil =>
      cases hassign
      exact ⟨List.prefix_rfl, fun _ hmem => absurd hmem List.not_mem_nil, rfl⟩
  | cons func rest ih =>
      obtain ⟨number, middle, others, hfunc, hrest, rfl⟩ := FuncTable.assignAll_cons_eq_ok hassign
      obtain ⟨rfl, hnumbered, rfl⟩ := assign_eq_ok hfunc
      obtain ⟨hgrows, hothers, rfl⟩ := ih hrest
      refine ⟨(index.refs_prefix_enroll func).trans hgrows,
        List.forall_mem_cons.mpr ⟨hnumbered.later hgrows, hothers⟩, ?_⟩
      rw [List.map_cons, number_later hgrows hnumbered.1]

end FuncIndex

namespace Numbering

theorem assignAll_direct (funcs : List FuncRef) :
    FuncTable.assignAll direct funcs = ((FuncTable.assignAll DirectIndex.mk funcs).1, direct) := by
  induction funcs with
  | nil => rfl
  | cons func rest ih =>
      have hfunc : FuncTable.assign direct func =
          ((FuncTable.assign DirectIndex.mk func).1, direct) := rfl
      rw [FuncTable.assignAll, FuncTable.assignAll, hfunc]
      rcases FuncTable.assign DirectIndex.mk func with ⟨error | number, middle⟩
      · rfl
      · dsimp only
        rw [ih]
        rcases FuncTable.assignAll DirectIndex.mk rest with ⟨error | numbers, later⟩
        · rfl
        · rfl

theorem assignAll_dense (index : FuncIndex) (funcs : List FuncRef) :
    FuncTable.assignAll (dense index) funcs =
      ((FuncTable.assignAll index funcs).1, dense (FuncTable.assignAll index funcs).2) := by
  induction funcs generalizing index with
  | nil => rfl
  | cons func rest ih =>
      have hfunc : FuncTable.assign (dense index) func =
          ((FuncTable.assign index func).1, dense (FuncTable.assign index func).2) := rfl
      rw [FuncTable.assignAll, FuncTable.assignAll, hfunc]
      rcases FuncTable.assign index func with ⟨error | number, middle⟩
      · rfl
      · dsimp only
        rw [ih]
        rcases FuncTable.assignAll middle rest with ⟨error | numbers, later⟩
        · rfl
        · rfl

/-- The function with a given index. -/
def function? (numbering : Numbering) (number : UInt32) : Option FuncRef :=
  match numbering with
  | direct => FuncRef.ofRaw? number.toUInt64
  | dense index => index.get? number

/-- The numbering has given a function this index. Asked again it answers the same and stays as it
is, and the index leads back to the function. -/
structure Assigned (numbering : Numbering) (func : FuncRef) (number : UInt32) : Prop where
  again : numbering.assign func = (.ok number, numbering)
  back : numbering.function? number = some func

theorem assigned_direct {func : FuncRef} (hfits : func.raw.toNat < 0x100000000) :
    direct.Assigned func (direct.index func) := by
  have hassign : FuncTable.assign DirectIndex.mk func = (.ok func.raw.toUInt32, DirectIndex.mk) :=
    Prod.ext (if_pos hfits) rfl
  refine ⟨?_, ?_⟩
  · rw [assign, hassign]
    rfl
  · rw [function?, index, FuncRef.ofRaw?_toUInt32 hfits]

theorem assigned_dense {index : FuncIndex} {func : FuncRef} (hnumbered : index.Numbered func) :
    (dense index).Assigned func ((dense index).index func) := by
  have hassign : FuncTable.assign index func = (.ok (index.number func), index) :=
    Prod.ext (if_pos hnumbered.2) (FuncIndex.enroll_of_mem hnumbered.1)
  refine ⟨?_, FuncIndex.get?_number hnumbered⟩
  rw [assign, hassign]
  rfl

/-- A numbering that has numbered several functions has given each its index. -/
theorem assignAll_eq_ok {numbering later : Numbering} {funcs : List FuncRef} {numbers : List UInt32}
    (hassign : FuncTable.assignAll numbering funcs = (.ok numbers, later)) :
    numbers = funcs.map later.index ∧ ∀ func ∈ funcs, later.Assigned func (later.index func) := by
  cases numbering with
  | direct =>
      rw [assignAll_direct] at hassign
      rcases hdirect : FuncTable.assignAll DirectIndex.mk funcs with ⟨error | found, middle⟩
      · rw [hdirect] at hassign
        cases hassign
      · rw [hdirect] at hassign
        cases hassign
        obtain ⟨hfits, hnumbers⟩ := DirectIndex.assignAll_eq_ok hdirect
        exact ⟨hnumbers, fun func hmem => assigned_direct (hfits func hmem)⟩
  | dense index =>
      rw [assignAll_dense] at hassign
      rcases hdense : FuncTable.assignAll index funcs with ⟨error | found, last⟩
      · rw [hdense] at hassign
        cases hassign
      · rw [hdense] at hassign
        cases hassign
        obtain ⟨-, hnumbered, hnumbers⟩ := FuncIndex.assignAll_eq_ok hdense
        exact ⟨hnumbers, fun func hmem => assigned_dense (hnumbered func hmem)⟩

end Numbering

end Residual
