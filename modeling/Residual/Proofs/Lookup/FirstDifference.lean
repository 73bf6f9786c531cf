import Residual.Proofs.Lookup.Order

/-!
# Where two keys are told apart

The rule behind the order of keys, said without a comparison that walks through the bytes: the
function ids decide if they differ, else the first byte that differs, else the lengths. The order
gives the verdict of the rule and no other, for argument bytes of any lengths.
-/

namespace Residual

/-- What differs first settles a comparison. -/
theorem compare_then_of_ne {α : Type} [Ord α] [Std.LawfulEqOrd α] {low high : α}
    (hdiffer : low ≠ high) (later : Ordering) :
    (compare low high).then later = compare low high := by
  cases hcompare : compare low high with
  | lt => rfl
  | eq => exact absurd (Std.LawfulEqOrd.eq_of_compare hcompare) hdiffer
  | gt => rfl

namespace Bytes

/-- How two byte strings compare. -/
inductive Verdict (left right : Bytes) : Ordering → Prop where
  /-- Both strings have a byte at some place, the two bytes differ, and all earlier ones agree. -/
  | byte {place : Nat} {low high : UInt8} (hleft : left[place]? = some low)
      (hright : right[place]? = some high) (hdiffer : low ≠ high)
      (hearlier : ∀ earlier < place, left[earlier]? = right[earlier]?) :
      Verdict left right (compare low.toNat high.toNat)
  /-- All bytes of the shorter string agree with the other string. -/
  | length (hagree : ∀ place < min left.length right.length, left[place]? = right[place]?) :
      Verdict left right (compare left.length right.length)

theorem compare_byte (low high : UInt8) : compare low high = compare low.toNat high.toNat := by
  simp only [compare, compareOfLessAndEq, UInt8.lt_iff_toNat_lt, UInt8.toNat_inj]

namespace Verdict

variable {left right : Bytes} {verdict other : Ordering}

theorem differ_at {place : Nat} {low high : UInt8} (hleft : left[place]? = some low)
    (hright : right[place]? = some high) (hdiffer : low ≠ high) :
    place < min left.length right.length ∧ left[place]? ≠ right[place]? := by
  obtain ⟨hinLeft, -⟩ := List.getElem?_eq_some_iff.mp hleft
  obtain ⟨hinRight, -⟩ := List.getElem?_eq_some_iff.mp hright
  refine ⟨Nat.lt_min.mpr ⟨hinLeft, hinRight⟩, ?_⟩
  rw [hleft, hright]
  exact fun heq => hdiffer (Option.some.inj heq)

/-- There is one verdict: no place is before the first, and strings that agree have none. -/
theorem unique (hverdict : left.Verdict right verdict) (hother : left.Verdict right other) :
    verdict = other := by
  cases hverdict with
  | @byte place low high hleft hright hdiffer hearlier =>
      obtain ⟨hplace, hne⟩ := differ_at hleft hright hdiffer
      cases hother with
      | @byte place' low' high' hleft' hright' hdiffer' hearlier' =>
          rcases Nat.lt_trichotomy place place' with hlt | rfl | hgt
          · exact absurd (hearlier' place hlt) hne
          · rw [hleft] at hleft'
            rw [hright] at hright'
            rw [Option.some.inj hleft', Option.some.inj hright']
          · exact absurd (hearlier place' hgt) (differ_at hleft' hright' hdiffer').2
      | length hagree => exact absurd (hagree place hplace) hne
  | length hagree =>
      cases hother with
      | @byte place low high hleft hright hdiffer hearlier =>
          obtain ⟨hplace, hne⟩ := differ_at hleft hright hdiffer
          exact absurd (hagree place hplace) hne
      | length hagree' => rfl

/-- A common first byte has no part in the verdict. -/
theorem cons (hverdict : left.Verdict right verdict) (first : UInt8) :
    Verdict (first :: left) (first :: right) verdict := by
  cases hverdict with
  | byte hleft hright hdiffer hearlier =>
      refine .byte (List.getElem?_cons_succ.trans hleft) (List.getElem?_cons_succ.trans hright)
        hdiffer ?_
      intro earlier hlt
      cases earlier with
      | zero => rfl
      | succ earlier => exact hearlier earlier (Nat.lt_of_succ_lt_succ hlt)
  | length hagree =>
      have hlengths : compare (first :: left).length (first :: right).length =
          compare left.length right.length := by
        simp only [List.length_cons, compare, compareOfLessAndEq, Nat.add_lt_add_iff_right,
          Nat.add_right_cancel_iff]
      rw [← hlengths]
      refine .length ?_
      intro place hlt
      cases place with
      | zero => rfl
      | succ place =>
          simp only [List.length_cons, Nat.lt_min, Nat.add_lt_add_iff_right] at hlt
          exact hagree place (Nat.lt_min.mpr hlt)

end Verdict

theorem verdict_compare (left right : Bytes) : left.Verdict right (compare left right) := by
  induction left generalizing right with
  | nil =>
      cases right with
      | nil => exact .length fun _ _ => rfl
      | cons second behind =>
          rw [List.compare_nil_cons, ← Nat.compare_eq_lt.mpr (Nat.succ_pos behind.length)]
          exact .length fun place hlt => absurd (Nat.lt_min.mp hlt).1 (Nat.not_lt_zero place)
  | cons first rest ih =>
      cases right with
      | nil =>
          rw [List.compare_cons_nil, ← Nat.compare_eq_gt.mpr (Nat.succ_pos rest.length)]
          exact .length fun place hlt => absurd (Nat.lt_min.mp hlt).2 (Nat.not_lt_zero place)
      | cons second behind =>
          rw [List.compare_cons_cons]
          by_cases hfirst : first = second
          · rw [hfirst, Std.ReflOrd.compare_self, Ordering.eq_then]
            exact (ih behind).cons second
          · rw [compare_then_of_ne hfirst, compare_byte]
            exact .byte List.getElem?_cons_zero List.getElem?_cons_zero hfirst
              fun earlier hlt => absurd hlt (Nat.not_lt_zero earlier)

theorem compare_eq_iff_verdict (left right : Bytes) (verdict : Ordering) :
    compare left right = verdict ↔ left.Verdict right verdict := by
  constructor
  · rintro rfl
    exact verdict_compare left right
  · intro hverdict
    exact (verdict_compare left right).unique hverdict

end Bytes

namespace Key

/-- How two keys compare. -/
inductive Verdict (left right : Key) : Ordering → Prop where
  /-- The function ids differ. -/
  | funcId (hdiffer : left.funcId ≠ right.funcId) :
      Verdict left right (compare left.funcId.toNat right.funcId.toNat)
  /-- The function ids are the same, and the argument bytes decide. -/
  | args {verdict : Ordering} (hsame : left.funcId = right.funcId)
      (hargs : left.args.Verdict right.args verdict) : Verdict left right verdict

theorem compare_funcId (low high : UInt32) : compare low high = compare low.toNat high.toNat := by
  simp only [compare, compareOfLessAndEq, UInt32.lt_iff_toNat_lt, UInt32.toNat_inj]

theorem order_of_funcId_ne {left right : Key} (hdiffer : left.funcId ≠ right.funcId) :
    left.order right = compare left.funcId.toNat right.funcId.toNat := by
  rw [order, compare_then_of_ne hdiffer, compare_funcId]

theorem order_of_funcId_eq {left right : Key} (hsame : left.funcId = right.funcId) :
    left.order right = compare left.args right.args := by
  rw [order, hsame, Std.ReflOrd.compare_self, Ordering.eq_then]

theorem order_eq_iff_verdict (left right : Key) (verdict : Ordering) :
    left.order right = verdict ↔ left.Verdict right verdict := by
  constructor
  · rintro rfl
    by_cases hfunc : left.funcId = right.funcId
    · rw [order_of_funcId_eq hfunc]
      exact .args hfunc (Bytes.verdict_compare left.args right.args)
    · rw [order_of_funcId_ne hfunc]
      exact .funcId hfunc
  · intro hverdict
    cases hverdict with
    | funcId hdiffer => exact order_of_funcId_ne hdiffer
    | args hsame hargs =>
        rw [order_of_funcId_eq hsame]
        exact (Bytes.compare_eq_iff_verdict _ _ _).mpr hargs

/-- The order of keys is the strict total order that the rule describes: it gives the verdict of the
rule, takes two keys for equal only if both parts are, turns around with its arguments, and is
transitive. -/
theorem order_follows_first_difference (left middle right : Key) :
    (∀ verdict, left.order right = verdict ↔ left.Verdict right verdict) ∧
      (left.order right = .eq ↔ left.funcId = right.funcId ∧ left.args = right.args) ∧
      right.order left = (left.order right).swap ∧
      (left.order middle = .lt → middle.order right = .lt → left.order right = .lt) := by
  refine ⟨order_eq_iff_verdict left right, ?_, order_swap right left, ?_⟩
  · cases left
    cases right
    rw [order_eq_iff, Key.mk.injEq]
  · intro hfirst hsecond
    exact Std.TransCmp.lt_trans hfirst hsecond

/-- A string comes before its extensions, and bytes compare without a sign. -/
theorem order_follows_first_difference_extension :
    (⟨1, [5]⟩ : Key).order ⟨1, [5, 0x7F]⟩ = .lt ∧
      (⟨1, [5, 0x7F]⟩ : Key).order ⟨1, [5, 0x80]⟩ = .lt ∧
      (⟨1, [5]⟩ : Key).order ⟨1, [5, 0x80]⟩ = .lt := by
  obtain ⟨-, -, -, htrans⟩ :=
    order_follows_first_difference ⟨1, [5]⟩ ⟨1, [5, 0x7F]⟩ ⟨1, [5, 0x80]⟩
  have hshorter : (⟨1, [5]⟩ : Key).order ⟨1, [5, 0x7F]⟩ = .lt := by decide
  have hbyte : (⟨1, [5, 0x7F]⟩ : Key).order ⟨1, [5, 0x80]⟩ = .lt := by decide
  exact ⟨hshorter, hbyte, htrans hshorter hbyte⟩

end Key

end Residual
