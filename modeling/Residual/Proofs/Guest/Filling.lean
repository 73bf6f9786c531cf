import Residual.Guest.Filling
import Residual.Proofs.Guest.Layout

/-!
# Steps of filling an image

What a step of filling leads to, and what it does to an image in which the bytes that it writes
stand between some others. Inside the address space no step fails but that of giving a function its
index.
-/

namespace Residual

namespace Guest

theorem outcome_indexOf {Funcs : Type} [FuncTable Funcs] (func : FuncRef) (funcs : Funcs) :
    (indexOf func).outcome funcs = FuncTable.assign funcs func := rfl

theorem fits_iff (base : UInt32) (size : Nat) :
    fits base size = true ↔ base.toNat + size < 2 ^ 32 :=
  decide_eq_true_iff

theorem addressAt_of_lt {base : UInt32} {offset : Nat} (hspace : base.toNat + offset < 2 ^ 32) :
    addressAt base offset = .ok (.ofNat (base.toNat + offset)) := by
  rw [addressAt, if_pos ((fits_iff base offset).mpr hspace)]

theorem addressAt_of_not_lt {base : UInt32} {offset : Nat}
    (hspace : ¬ base.toNat + offset < 2 ^ 32) :
    addressAt base offset = .error (.malformed .addressSpace) := by
  rw [addressAt, if_neg fun hfits => hspace ((fits_iff base offset).mp hfits)]

theorem argPointer_of_lt {base : UInt32} {args : Bytes} {offset : Nat}
    (hspace : base.toNat + offset + args.length < 2 ^ 32) :
    argPointer base args offset =
      .ok (if args.isEmpty then 0 else .ofNat (base.toNat + offset)) := by
  rw [argPointer, addressAt_of_lt (by omega)]
  split <;> rfl

theorem argLength_of_lt {args : Bytes} (hlength : args.length < 2 ^ 32) :
    argLength args = .ok (.ofNat args.length) :=
  if_pos hlength

theorem writeAt_append {before old after : Bytes} {offset : Nat} (hoffset : before.length = offset)
    (hlength : old.length = 4) (word : UInt32) :
    Scalar.writeAt (before ++ (old ++ after)) offset (.u32 word) =
      .ok (before ++ (Bytes.word32 word ++ after), offset + 4) := by
  have hword : old.length = (Scalar.encode (.u32 word)).length := hlength
  subst offset
  rw [Scalar.writeAt, Bytes.overwrite?_append hword]
  rfl

/-- Words take the place of as many bytes. -/
theorem writeWords_append {before old after : Bytes} {offset : Nat}
    (hoffset : before.length = offset) {sequence : List UInt32}
    (hlength : old.length = 4 * sequence.length) :
    writeWords (before ++ (old ++ after)) offset sequence =
      .ok (before ++ (Bytes.words sequence ++ after), offset + 4 * sequence.length) := by
  induction sequence generalizing before old offset with
  | nil =>
      rw [List.eq_nil_of_length_eq_zero hlength]
      rfl
  | cons word rest ih =>
      rw [List.length_cons] at hlength
      have hfirst : (old.take 4).length = 4 := by
        rw [List.length_take]
        omega
      have hrest : (old.drop 4).length = 4 * rest.length := by
        rw [List.length_drop]
        omega
      have hbehind : (before ++ Bytes.word32 word).length = offset + 4 := by
        rw [List.length_append, Bytes.length_word32, hoffset]
      have hwords : Bytes.words (word :: rest) = Bytes.word32 word ++ Bytes.words rest :=
        List.flatMap_cons
      rw [← List.take_append_drop 4 old, List.append_assoc, writeWords,
        writeAt_append hoffset hfirst]
      dsimp only
      rw [← List.append_assoc before, ih hbehind hrest, hwords, List.length_cons]
      simp only [List.append_assoc, Nat.mul_succ, Nat.add_assoc, Nat.add_comm 4]

/-- Words are written into zeros behind a gap, and there are zeros left behind them. -/
theorem writeWords_zeros {before after : Bytes} {offset total : Nat} {sequence : List UInt32}
    (gap rest : Nat) (hoffset : before.length + gap = offset)
    (htotal : total = gap + (4 * sequence.length + rest)) :
    writeWords (before ++ (Bytes.zeros total ++ after)) offset sequence =
      .ok (before ++ Bytes.zeros gap ++ Bytes.words sequence ++ (Bytes.zeros rest ++ after),
        offset + 4 * sequence.length) := by
  have hbefore : (before ++ Bytes.zeros gap).length = offset := by
    rw [List.length_append, Bytes.length_zeros, hoffset]
  have hzeros : (Bytes.zeros (4 * sequence.length)).length = 4 * sequence.length :=
    Bytes.length_zeros _
  have hwrite := @writeWords_append _ _ (Bytes.zeros rest ++ after) _ hbefore sequence hzeros
  rw [htotal, Bytes.zeros_add, Bytes.zeros_add]
  simpa only [List.append_assoc] using hwrite

/-- Bytes are copied into zeros behind a gap, and there are zeros left behind them. -/
theorem copyAt_zeros {before after bytes : Bytes} {offset total : Nat} (gap rest : Nat)
    (hoffset : before.length + gap = offset) (htotal : total = gap + (bytes.length + rest)) :
    copyAt (before ++ (Bytes.zeros total ++ after)) offset bytes =
      .ok (before ++ Bytes.zeros gap ++ bytes ++ (Bytes.zeros rest ++ after)) := by
  have hbefore : (before ++ Bytes.zeros gap).length = offset := by
    rw [List.length_append, Bytes.length_zeros, hoffset]
  have hzeros : (Bytes.zeros bytes.length).length = bytes.length := Bytes.length_zeros _
  have hcopy := @Bytes.overwrite?_append (before ++ Bytes.zeros gap) _
    (Bytes.zeros rest ++ after) bytes hzeros
  rw [hbefore] at hcopy
  simp only [List.append_assoc] at hcopy
  simp only [htotal, Bytes.zeros_add, List.append_assoc, copyAt, hcopy]
  rfl

end Guest

end Residual
