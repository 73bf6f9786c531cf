import Residual.Proofs.Argument.Canonical

/-!
# What a decoder hands out

A decoder hands out the descriptors of the longest canonical beginning of its
data, then at most one failure, then nothing for ever. The failure is there
exactly when some bytes are left, and these do not start with a canonical form.
-/

namespace Residual

open Descriptor

namespace Decoder

/-- Asked again and again, the decoder hands out the listed items in order and
nothing after them. -/
def HandsOut (decoder : Decoder) (handed : List (Except Error Descriptor)) : Prop :=
  ∀ count, (decoder.skip count).next.1 = handed[count]?

/-- Some descriptors, and a failure if there is one. -/
def handed (descriptors : List Descriptor) (failure : Option Error) :
    List (Except Error Descriptor) :=
  descriptors.map Except.ok ++ (failure.map Except.error).toList

theorem skip_of_next_none (decoder : Decoder) (hnext : decoder.next = (none, decoder))
    (count : Nat) : decoder.skip count = decoder := by
  induction count with
  | zero => rfl
  | succ count ih => rw [skip, hnext, ih]

theorem HandsOut.nil (decoder : Decoder) (hnext : decoder.next = (none, decoder)) :
    decoder.HandsOut [] := by
  intro count
  rw [skip_of_next_none decoder hnext, hnext]
  rfl

theorem HandsOut.cons (decoder after : Decoder) (item : Except Error Descriptor)
    (rest : List (Except Error Descriptor)) (hnext : decoder.next = (some item, after))
    (hrest : after.HandsOut rest) : decoder.HandsOut (item :: rest) := by
  intro count
  cases count with
  | zero => rw [skip, hnext]; rfl
  | succ count =>
      rw [skip, hnext, List.getElem?_cons_succ]
      exact hrest count

/-- Enough steps collect everything that is handed out. -/
theorem items_eq_of_handsOut (decoder : Decoder) (handed : List (Except Error Descriptor))
    (count : Nat) (hhanded : decoder.HandsOut handed) (hcount : handed.length ≤ count) :
    decoder.items count = handed := by
  induction count generalizing decoder handed with
  | zero => rw [List.eq_nil_of_length_eq_zero (Nat.le_zero.mp hcount)]; rfl
  | succ count ih =>
      have hfirst : decoder.next.1 = handed[0]? := hhanded 0
      cases hnext : decoder.next with
      | mk item after =>
          rw [hnext] at hfirst
          rw [items, hnext]
          cases handed with
          | nil =>
              have hitem : item = none := hfirst
              rw [hitem]
          | cons first rest =>
              have hitem : item = some first := hfirst
              have hrest : after.HandsOut rest := by
                intro step
                have hstep := hhanded (step + 1)
                rwa [skip, hnext, List.getElem?_cons_succ] at hstep
              simp only [List.length_cons, Nat.add_le_add_iff_right] at hcount
              rw [hitem, ← ih after rest hrest hcount]

theorem next_of_done (cursor : Cursor) (failed : Bool) (hdone : failed = true ∨ cursor.rest = []) :
    next ⟨cursor, failed⟩ = (none, ⟨cursor, failed⟩) := by
  have hcondition : (failed || !cursor.hasMore) = true := by
    rcases hdone with hfailed | hrest
    · simp [hfailed]
    · simp [Cursor.hasMore, hrest]
  rw [next, if_pos hcondition]

theorem next_of_read_ok (cursor after : Cursor) (descriptor : Descriptor) (hrest : cursor.rest ≠ [])
    (hread : read cursor = .ok (descriptor, after)) :
    next ⟨cursor, false⟩ = (some (.ok descriptor), ⟨after, false⟩) := by
  simp [next, Cursor.hasMore, hrest, hread]

theorem next_of_read_error (cursor : Cursor) (error : Error) (hrest : cursor.rest ≠ [])
    (hread : read cursor = .error error) :
    next ⟨cursor, false⟩ = (some (.error error), ⟨cursor, true⟩) := by
  simp [next, Cursor.hasMore, hrest, hread]

/-- Canonical forms are handed out again, one by one. -/
theorem handsOut_canonicalAll (descriptors : List Descriptor) (position : Nat)
    (hrepresentable : ∀ descriptor ∈ descriptors, descriptor.Representable) :
    (⟨⟨position, canonicalAll descriptors⟩, false⟩ : Decoder).HandsOut
      (handed descriptors none) := by
  induction descriptors generalizing position with
  | nil => exact HandsOut.nil _ (next_of_done _ _ (Or.inr rfl))
  | cons descriptor rest ih =>
      obtain ⟨hfirst, hrest⟩ := List.forall_mem_cons.mp hrepresentable
      have hread : read ⟨position, canonicalAll (descriptor :: rest)⟩ =
          .ok (descriptor, ⟨position + descriptor.canonical.length, canonicalAll rest⟩) :=
        (read_eq_ok_iff _ _ _).mpr ⟨hfirst, rfl, rfl⟩
      have hmore : canonicalAll (descriptor :: rest) ≠ [] := by
        rw [canonicalAll_cons]
        exact List.append_ne_nil_of_left_ne_nil descriptor.canonical_ne_nil _
      exact HandsOut.cons _ _ _ _ (next_of_read_ok _ _ _ hmore hread) (ih _ hrest)

/-- The descriptors of the longest canonical beginning come first. Then a
failure is handed out exactly when bytes are left. -/
theorem exists_handsOut (data : Bytes) (position : Nat) :
    ∃ descriptors failure rest,
      (⟨⟨position, data⟩, false⟩ : Decoder).HandsOut (handed descriptors failure) ∧
        (∀ descriptor ∈ descriptors, descriptor.Representable) ∧
        data = canonicalAll descriptors ++ rest ∧ (failure = none ↔ rest = []) ∧
        (failure ≠ none → ∀ descriptor : Descriptor, descriptor.Representable →
          ¬ descriptor.canonical <+: rest) := by
  induction hlength : data.length using Nat.strongRecOn generalizing data position with
  | ind length ih =>
      subst length
      by_cases hdata : data = []
      · subst data
        exact ⟨[], none, [], HandsOut.nil _ (next_of_done _ _ (Or.inr rfl)), by simp, rfl, by simp,
          by simp⟩
      · cases hread : read ⟨position, data⟩ with
        | error error =>
            -- Nothing more is read after the failure, so all data is left over.
            have hstop := HandsOut.nil _ (next_of_done ⟨position, data⟩ true (Or.inl rfl))
            refine ⟨[], some error, data, HandsOut.cons _ _ _ _
              (next_of_read_error _ _ hdata hread) hstop, by simp, rfl, by simp [hdata], ?_⟩
            rintro - descriptor hrepresentable ⟨rest, hrest⟩
            have hok : read ⟨position, data⟩ =
                .ok (descriptor, ⟨position + descriptor.canonical.length, rest⟩) :=
              (read_eq_ok_iff _ _ _).mpr ⟨hrepresentable, hrest.symm, rfl⟩
            rw [hread] at hok
            cases hok
        | ok pair =>
            obtain ⟨descriptor, after⟩ := pair
            obtain ⟨hrepresentable, hsplit, -⟩ := (read_eq_ok_iff _ _ _).mp hread
            have hshorter : after.rest.length < data.length := by
              have hcanonical := descriptor.length_canonical
              rw [show data = descriptor.canonical ++ after.rest from hsplit, List.length_append]
              omega
            obtain ⟨descriptors, failure, rest, hhanded, hall, hrest, hfailure, hstuck⟩ :=
              ih _ hshorter after.rest after.position rfl
            refine ⟨descriptor :: descriptors, failure, rest, ?_, ?_, ?_, hfailure, hstuck⟩
            · exact HandsOut.cons _ _ _ _ (next_of_read_ok _ _ _ hdata hread) hhanded
            · exact List.forall_mem_cons.mpr ⟨hrepresentable, hall⟩
            · rw [show data = descriptor.canonical ++ after.rest from hsplit, hrest,
                canonicalAll_cons, List.append_assoc]

theorem mapM_handed (descriptors : List Descriptor) (failure : Option Error) :
    (handed descriptors failure).mapM id =
      match failure with
      | none => Except.ok descriptors
      | some error => Except.error error := by
  induction descriptors with
  | nil => cases failure <;> rfl
  | cons descriptor rest ih =>
      change ((Except.ok descriptor : Except Error Descriptor) :: handed rest failure).mapM id = _
      rw [List.mapM_cons, ih]
      cases failure <;> rfl

/-- Each item takes at least a byte, so a step per byte collects them all. -/
theorem length_handed_le (descriptors : List Descriptor) (failure : Option Error) (rest : Bytes)
    (hfailure : failure = none ↔ rest = []) :
    (handed descriptors failure).length ≤ (canonicalAll descriptors ++ rest).length := by
  induction descriptors with
  | nil =>
      cases failure with
      | none => exact Nat.zero_le _
      | some error => exact List.length_pos_iff.mpr fun hrest => nomatch hfailure.mpr hrest
  | cons descriptor descriptors ih =>
      have hcanonical := descriptor.length_canonical
      simp only [handed, List.map_cons, canonicalAll_cons, List.append_assoc, List.cons_append,
        List.length_cons, List.length_append] at ih ⊢
      omega

end Decoder

open Decoder

theorem decodeItems_eq_of_handsOut (data : Bytes) (descriptors : List Descriptor)
    (failure : Option Error) (rest : Bytes)
    (hhanded : (start data).HandsOut (handed descriptors failure))
    (hdata : data = canonicalAll descriptors ++ rest) (hfailure : failure = none ↔ rest = []) :
    decodeItems data = handed descriptors failure := by
  apply items_eq_of_handsOut _ _ _ hhanded
  rw [hdata]
  exact length_handed_le descriptors failure rest hfailure

theorem decodeAll_canonicalAll (descriptors : List Descriptor)
    (hrepresentable : ∀ descriptor ∈ descriptors, descriptor.Representable) :
    decodeAll (canonicalAll descriptors) = .ok descriptors := by
  have hhanded := handsOut_canonicalAll descriptors 0 hrepresentable
  rw [decodeAll, decodeItems_eq_of_handsOut _ descriptors none [] hhanded (by simp) (by simp),
    mapM_handed]

theorem decodeAll_eq_ok_iff (data : Bytes) (descriptors : List Descriptor) :
    decodeAll data = .ok descriptors ↔
      (∀ descriptor ∈ descriptors, descriptor.Representable) ∧ data = canonicalAll descriptors := by
  constructor
  · intro hdecode
    obtain ⟨found, failure, rest, hhanded, hall, hdata, hfailure, -⟩ := exists_handsOut data 0
    rw [decodeAll, decodeItems_eq_of_handsOut data found failure rest hhanded hdata hfailure,
      mapM_handed] at hdecode
    cases failure with
    | some error => cases hdecode
    | none =>
        cases hdecode
        rw [hfailure.mp rfl, List.append_nil] at hdata
        exact ⟨hall, hdata⟩
  · rintro ⟨hall, rfl⟩
    exact decodeAll_canonicalAll descriptors hall

/-- Canonical forms cannot be told apart wrongly: the bytes determine the sequence. -/
theorem canonicalAll_inj {first second : List Descriptor}
    (hfirst : ∀ descriptor ∈ first, descriptor.Representable)
    (hsecond : ∀ descriptor ∈ second, descriptor.Representable) :
    canonicalAll first = canonicalAll second ↔ first = second := by
  constructor
  · intro hbytes
    have hdecode := decodeAll_canonicalAll first hfirst
    rw [hbytes, decodeAll_canonicalAll second hsecond] at hdecode
    exact (Except.ok.inj hdecode).symm
  · exact congrArg canonicalAll

/-- Decoding accepts exactly the canonical format. The decoder hands out the
descriptors of the longest canonical beginning of the data, then at most one
failure, then nothing for ever. It fails exactly when bytes are left, and then
no canonical form comes next. So the data decodes to a sequence exactly when it
is the sequence's canonical form, and no two byte strings decode to the same. -/
theorem decoder_accepts_exactly_canonical (data : Bytes) :
    (∃ descriptors failure rest,
      (start data).HandsOut (handed descriptors failure) ∧
        decodeItems data = handed descriptors failure ∧
        (∀ descriptor ∈ descriptors, descriptor.Representable) ∧
        data = canonicalAll descriptors ++ rest ∧
        (failure = none ↔ canonicalAll descriptors = data) ∧
        (failure ≠ none → ∀ descriptor : Descriptor, descriptor.Representable →
          ¬ descriptor.canonical <+: rest)) ∧
      (∀ descriptors, decodeAll data = .ok descriptors ↔
        (∀ descriptor ∈ descriptors, descriptor.Representable) ∧
          data = canonicalAll descriptors) ∧
      ∀ other descriptors, decodeAll data = .ok descriptors → decodeAll other = .ok descriptors →
        data = other := by
  refine ⟨?_, decodeAll_eq_ok_iff data, ?_⟩
  · obtain ⟨descriptors, failure, rest, hhanded, hall, hdata, hfailure, hstuck⟩ :=
      exists_handsOut data 0
    have hwhole : rest = [] ↔ canonicalAll descriptors = data := by
      rw [hdata]
      exact List.self_eq_append_right.symm
    exact ⟨descriptors, failure, rest, hhanded,
      decodeItems_eq_of_handsOut data descriptors failure rest hhanded hdata hfailure, hall, hdata,
      hfailure.trans hwhole, hstuck⟩
  · intro other descriptors hdata hother
    rw [((decodeAll_eq_ok_iff data descriptors).mp hdata).2,
      ((decodeAll_eq_ok_iff other descriptors).mp hother).2]

end Residual
