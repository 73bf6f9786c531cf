import Residual.Bytes.Access
import Residual.Proofs.Bytes.Words

/-!
# Round trips through memory

Values of any types that are written one after the other are read back from where the writing began,
by offset or by cursor. An access that does not fit is refused and leaves everything as it was, and
so no write ever reaches a byte outside the range from the first offset to the last.
-/

namespace Residual

open InPlace

namespace InPlace

variable {State α : Type} {place : State → Nat} {total size : Nat} {step : InPlace State α}
  {state next : State}

/-- How an access to `size` bytes turns out that starts at `place state` in `total` bytes. -/
structure Settles (place : State → Nat) (total size : Nat) (step : InPlace State α)
    (state : State) : Prop where
  /-- It succeeds if and only if it ends inside the data. -/
  granted_iff : (∃ value, (step.outcome state).1 = .ok value) ↔ place state + size ≤ total
  /-- If it succeeds, the next access starts right behind it. -/
  advanced : ∀ value, (step.outcome state).1 = .ok value →
    place (step.outcome state).2 = place state + size
  /-- If it fails, nothing has changed. -/
  refused : ∀ error, (step.outcome state).1 = .error error →
    error = .outOfBounds ∧ (step.outcome state).2 = state

theorem settles_of_granted {value : α} (hinside : place state + size ≤ total)
    (houtcome : step.outcome state = (.ok value, next)) (hplace : place next = place state + size) :
    Settles place total size step state := by
  refine ⟨?_, ?_, ?_⟩
  · rw [houtcome]
    exact ⟨fun _ => hinside, fun _ => ⟨value, rfl⟩⟩
  · intro _ _
    rw [houtcome]
    exact hplace
  · intro error herror
    rw [houtcome] at herror
    cases herror

theorem settles_of_refused (houtside : total < place state + size)
    (houtcome : step.outcome state = (.error .outOfBounds, state)) :
    Settles place total size step state := by
  refine ⟨?_, ?_, ?_⟩
  · rw [houtcome]
    constructor
    · rintro ⟨value, hvalue⟩
      cases hvalue
    · intro hinside
      exact absurd hinside (Nat.not_le.mpr houtside)
  · intro value hvalue
    rw [houtcome] at hvalue
    cases hvalue
  · intro error herror
    rw [houtcome] at herror ⊢
    cases herror
    exact ⟨rfl, rfl⟩

/-- Every answer is that of its step, taken on what the steps before it have left. -/
theorem getElem?_outcomes (steps : List (InPlace State α)) (state : State) (index : Nat) :
    (outcomes steps state).1[index]? =
      steps[index]?.map fun step => (step.outcome (outcomes (steps.take index) state).2).1 := by
  induction steps generalizing state index with
  | nil => rfl
  | cons first rest ih =>
      rw [outcomes_cons]
      cases index with
      | zero => rfl
      | succ index => exact ih (first.outcome state).2 index

end InPlace

namespace Bytes

/-- The bytes around a patch stay. -/
theorem getElem?_patch {data patch : Bytes} {offset place : Nat}
    (hinside : offset + patch.length ≤ data.length)
    (houtside : place < offset ∨ offset + patch.length ≤ place) :
    (data.take offset ++ patch ++ data.drop (offset + patch.length))[place]? = data[place]? := by
  have hbefore : (data.take offset).length = offset := List.length_take_of_le (by omega)
  rcases houtside with hlow | hhigh
  · rw [List.append_assoc, List.getElem?_append_left (by omega), List.getElem?_take_of_lt hlow]
  · rw [List.getElem?_append_right (by rw [List.length_append]; omega), List.getElem?_drop,
      List.length_append, hbefore]
    congr 1
    omega

/-- The bytes of a patch are where it was put. -/
theorem take_drop_patch {data patch : Bytes} {offset : Nat}
    (hinside : offset + patch.length ≤ data.length) :
    ((data.take offset ++ patch ++ data.drop (offset + patch.length)).drop offset).take
      patch.length = patch := by
  have hbefore : (data.take offset).length = offset := List.length_take_of_le (by omega)
  rw [List.append_assoc, List.drop_left' hbefore, List.take_left]

end Bytes

namespace Scalar

theorem writeAt_of_le {data : Bytes} {offset : Nat} {value : Scalar}
    (hinside : offset + value.type.size ≤ data.length) :
    writeAt data offset value =
      .ok (data.take offset ++ value.encode ++ data.drop (offset + value.type.size),
        offset + value.type.size) := by
  rw [writeAt, Bytes.overwrite?, length_encode, if_pos hinside]
  rfl

theorem writeAt_of_lt {data : Bytes} {offset : Nat} {value : Scalar}
    (houtside : data.length < offset + value.type.size) :
    writeAt data offset value = .error .outOfBounds := by
  rw [writeAt, Bytes.overwrite?, length_encode, if_neg (Nat.not_le.mpr houtside)]
  rfl

theorem readAt_of_le {data : Bytes} {offset : Nat} {type : ScalarType}
    (hinside : offset + type.size ≤ data.length) :
    readAt type data offset =
      .ok (type.ofPattern (LittleEndian.decode ((data.drop offset).take type.size)),
        offset + type.size) := by
  rw [readAt, Bytes.slice?_eq, if_pos hinside]
  rfl

theorem readAt_of_lt {data : Bytes} {offset : Nat} {type : ScalarType}
    (houtside : data.length < offset + type.size) :
    readAt type data offset = .error .outOfBounds := by
  rw [readAt, Bytes.slice?_eq, if_neg (Nat.not_le.mpr houtside)]
  rfl

end Scalar

namespace Window

variable {window next last : Window} {value : Scalar} {type : ScalarType}

/-- An end inside the data is never too large for a word. -/
theorem behind_of_le {size : Nat} (hinside : window.offset.toNat + size ≤ window.data.length) :
    ∃ stop, window.behind size = .ok stop ∧ stop.toNat = window.offset.toNat + size := by
  have hword : window.offset.toNat + size < 2 ^ 64 :=
    Nat.lt_of_le_of_lt hinside window.addressable
  exact ⟨_, if_pos hword, UInt64.toNat_ofNat_of_lt' hword⟩

theorem behind_cases (window : Window) (size : Nat) :
    (∃ stop, window.behind size = .ok stop) ∨ window.behind size = .error .outOfBounds := by
  unfold behind
  split
  next => exact .inl ⟨_, rfl⟩
  next => exact .inr rfl

theorem read_of_le (hinside : window.offset.toNat + type.size ≤ window.data.length) :
    ∃ stop : UInt64, stop.toNat = window.offset.toNat + type.size ∧
      (read type).outcome window =
        (.ok (type.ofPattern (LittleEndian.decode
          ((window.data.drop window.offset.toNat).take type.size))),
        { window with offset := stop }) := by
  obtain ⟨stop, hbehind, hstop⟩ := behind_of_le hinside
  refine ⟨stop, hstop, ?_⟩
  rw [read, outcome_get_bind, hbehind, outcome_ok_bind, Scalar.readAt_of_le hinside,
    outcome_ok_bind]
  rfl

theorem read_of_lt (houtside : window.data.length < window.offset.toNat + type.size) :
    (read type).outcome window = (.error .outOfBounds, window) := by
  rw [read, outcome_get_bind]
  rcases behind_cases window type.size with ⟨stop, hbehind⟩ | hbehind
  · rw [hbehind, outcome_ok_bind, Scalar.readAt_of_lt houtside, outcome_error_bind]
  · rw [hbehind, outcome_error_bind]

theorem settles_read (window : Window) (type : ScalarType) :
    Settles (·.offset.toNat) window.data.length type.size (read type) window := by
  rcases Nat.lt_or_ge window.data.length (window.offset.toNat + type.size) with houtside | hinside
  · exact settles_of_refused houtside (read_of_lt houtside)
  · obtain ⟨stop, hstop, houtcome⟩ := read_of_le hinside
    exact settles_of_granted hinside houtcome hstop

/-- The window after a value was written. -/
structure Wrote (window : Window) (value : Scalar) (next : Window) : Prop where
  inside : window.offset.toNat + value.type.size ≤ window.data.length
  data_eq : next.data = window.data.take window.offset.toNat ++ value.encode ++
    window.data.drop (window.offset.toNat + value.type.size)
  offset_eq : next.offset.toNat = window.offset.toNat + value.type.size

theorem patched_of_le (hinside : window.offset.toNat + value.type.size ≤ window.data.length) :
    ∃ filled, window.patched value = .ok filled ∧
      filled.data = window.data.take window.offset.toNat ++ value.encode ++
        window.data.drop (window.offset.toNat + value.type.size) := by
  have hwrite := Scalar.writeAt_of_le hinside
  unfold patched
  split
  next error herror =>
    rw [hwrite] at herror
    cases herror
  next data stop hok =>
    rw [hwrite] at hok
    cases hok
    exact ⟨_, rfl, rfl⟩

theorem patched_of_lt (houtside : window.data.length < window.offset.toNat + value.type.size) :
    window.patched value = .error .outOfBounds := by
  have hwrite := Scalar.writeAt_of_lt houtside
  unfold patched
  split
  next error herror =>
    rw [hwrite] at herror
    cases herror
    rfl
  next data stop hok =>
    rw [hwrite] at hok
    cases hok

/-- A value is written as a whole, or nothing happens. -/
theorem write_cases (window : Window) (value : Scalar) :
    (∃ next, (write value).outcome window = (.ok (), next) ∧ window.Wrote value next) ∨
      (write value).outcome window = (.error .outOfBounds, window) ∧
        window.data.length < window.offset.toNat + value.type.size := by
  rw [write, outcome_get_bind]
  rcases Nat.lt_or_ge window.data.length (window.offset.toNat + value.type.size) with
    houtside | hinside
  · refine .inr ⟨?_, houtside⟩
    rcases behind_cases window value.type.size with ⟨stop, hbehind⟩ | hbehind
    · rw [hbehind, outcome_ok_bind, patched_of_lt houtside, outcome_error_bind]
    · rw [hbehind, outcome_error_bind]
  · obtain ⟨stop, hbehind, hstop⟩ := behind_of_le hinside
    obtain ⟨filled, hfilled, hdata⟩ := patched_of_le hinside
    refine .inl ⟨{ filled with offset := stop }, ?_, hinside, hdata, hstop⟩
    rw [hbehind, outcome_ok_bind, hfilled, outcome_ok_bind]
    rfl

/-- What writing leaves of a window: its length, and every byte outside the range that the offset
has passed. -/
structure Framed (before after : Window) : Prop where
  length_eq : after.data.length = before.data.length
  offset_le : before.offset.toNat ≤ after.offset.toNat
  kept : ∀ place, place < before.offset.toNat ∨ after.offset.toNat ≤ place →
    after.data[place]? = before.data[place]?

namespace Framed

theorem refl (window : Window) : Framed window window := ⟨rfl, Nat.le_refl _, fun _ _ => rfl⟩

theorem trans (hfirst : Framed window next) (hsecond : Framed next last) : Framed window last := by
  refine ⟨hsecond.length_eq.trans hfirst.length_eq,
    Nat.le_trans hfirst.offset_le hsecond.offset_le, ?_⟩
  intro place houtside
  have hfirstOffset := hfirst.offset_le
  have hsecondOffset := hsecond.offset_le
  rw [hsecond.kept place (by omega), hfirst.kept place (by omega)]

/-- The bytes in front of the offset stay. -/
theorem take_eq (hframed : Framed window last) :
    last.data.take window.offset.toNat = window.data.take window.offset.toNat := by
  apply List.ext_getElem?
  intro place
  rw [List.getElem?_take, List.getElem?_take]
  split
  next hlow => exact hframed.kept place (.inl hlow)
  next => rfl

end Framed

theorem Wrote.framed (hwrote : window.Wrote value next) : Framed window next := by
  have hinside := hwrote.inside
  have hsize := value.length_encode
  have hoffset := hwrote.offset_eq
  refine ⟨?_, by omega, ?_⟩
  · rw [hwrote.data_eq]
    simp only [List.length_append, List.length_take, List.length_drop]
    omega
  · intro place houtside
    rw [hwrote.data_eq, ← hsize]
    exact Bytes.getElem?_patch (by omega) (by omega)

/-- Whatever is written later, a written value can be read where it was written. -/
theorem Wrote.field_eq (hwrote : window.Wrote value next) (hframed : Framed next last) :
    (last.data.drop window.offset.toNat).take value.type.size = value.encode := by
  have hinside := hwrote.inside
  have hsize := value.length_encode
  have hfield : ∀ data : Bytes, (data.drop window.offset.toNat).take value.type.size =
      (data.take next.offset.toNat).drop window.offset.toNat := by
    intro data
    rw [hwrote.offset_eq, List.drop_take, Nat.add_sub_cancel_left]
  rw [hfield, hframed.take_eq, ← hfield, hwrote.data_eq, ← hsize]
  exact Bytes.take_drop_patch (by omega)

theorem framed_writes (window : Window) (values : List Scalar) :
    Framed window (outcomes (values.map write) window).2 := by
  induction values generalizing window with
  | nil => exact Framed.refl window
  | cons value rest ih =>
      rw [List.map_cons, outcomes_cons]
      rcases write_cases window value with ⟨next, houtcome, hwrote⟩ | ⟨houtcome, -⟩
      · rw [houtcome]
        exact hwrote.framed.trans (ih next)
      · rw [houtcome]
        exact ih window

theorem settles_write (window : Window) (value : Scalar) :
    Settles (·.offset.toNat) window.data.length value.type.size (write value) window := by
  rcases write_cases window value with ⟨next, houtcome, hwrote⟩ | ⟨houtcome, houtside⟩
  · exact settles_of_granted hwrote.inside houtcome hwrote.offset_eq
  · exact settles_of_refused houtside houtcome

/-- A written value is read back, whatever was written behind it in the meantime. -/
theorem Wrote.read_eq (hwrote : window.Wrote value next) (hframed : Framed next last) :
    (read value.type).outcome { last with offset := window.offset } =
      (.ok value, { last with offset := next.offset }) := by
  have hlength : last.data.length = window.data.length :=
    hframed.length_eq.trans hwrote.framed.length_eq
  have hinside : window.offset.toNat + value.type.size ≤ last.data.length := hlength ▸ hwrote.inside
  obtain ⟨stop, hstop, houtcome⟩ :=
    @read_of_le { last with offset := window.offset } value.type hinside
  have hoffset : stop = next.offset := UInt64.toNat_inj.mp (hstop.trans hwrote.offset_eq.symm)
  rw [houtcome, hoffset, hwrote.field_eq hframed, Scalar.ofPattern_decode_encode]

/-- What reading back has to answer: the values whose writing was granted, and for the others the
same failure. -/
def recalls (values : List Scalar) (answers : List (Except Error Unit)) :
    List (Except Error Scalar) :=
  List.zipWith (fun value answer => answer.map fun _ => value) values answers

theorem reads_writes (window : Window) (values : List Scalar) :
    outcomes ((values.map Scalar.type).map read)
        { (outcomes (values.map write) window).2 with offset := window.offset } =
      (recalls values (outcomes (values.map write) window).1,
        (outcomes (values.map write) window).2) := by
  induction values generalizing window with
  | nil => rfl
  | cons value rest ih =>
      rw [List.map_cons, List.map_cons, outcomes_cons, List.map_cons, outcomes_cons]
      rcases write_cases window value with ⟨next, houtcome, hwrote⟩ | ⟨houtcome, houtside⟩
      · rw [houtcome]
        dsimp only
        rw [hwrote.read_eq (framed_writes next rest), ih next]
        rfl
      · -- No later write changes the length, so that the value does not fit when it is read either.
        rw [houtcome]
        dsimp only
        rw [← (framed_writes window rest).length_eq] at houtside
        rw [@read_of_lt { (outcomes (rest.map write) window).2 with offset := window.offset }
          value.type houtside, ih window]
        rfl

/-- The range that the offset has passed holds the granted values, one after the other. -/
theorem passed_writes (window : Window) (values : List Scalar) :
    ((outcomes (values.map write) window).2.data.drop window.offset.toNat).take
        ((outcomes (values.map write) window).2.offset.toNat - window.offset.toNat) =
      ((recalls values (outcomes (values.map write) window).1).filterMap Except.toOption).flatMap
        Scalar.digits := by
  induction values generalizing window with
  | nil =>
      change (window.data.drop window.offset.toNat).take
        (window.offset.toNat - window.offset.toNat) = []
      rw [Nat.sub_self, List.take_zero]
  | cons value rest ih =>
      rw [List.map_cons, outcomes_cons]
      rcases write_cases window value with ⟨next, houtcome, hwrote⟩ | ⟨houtcome, -⟩
      · rw [houtcome]
        dsimp only
        have hframed := framed_writes next rest
        have hpassed : (outcomes (rest.map write) next).2.offset.toNat - window.offset.toNat =
            value.type.size +
              ((outcomes (rest.map write) next).2.offset.toNat - next.offset.toNat) := by
          have hoffset := hwrote.offset_eq
          have hle := hframed.offset_le
          omega
        rw [hpassed, List.take_add, hwrote.field_eq hframed, List.drop_drop, ← hwrote.offset_eq,
          ih next, value.encode_eq_digits]
        rfl
      · rw [houtcome]
        exact ih window

end Window

/-- What a command answers when its bytes are `field`. -/
def CursorCommand.reply : CursorCommand → Bytes → CursorReply
  | bytes _, field => .bytes field
  | scalar type, field => .scalar (type.ofPattern (LittleEndian.decode field))

namespace Cursor

variable {data : Bytes} {cursor next : Cursor} {command : CursorCommand}

theorem bytes_of_le {count : Nat} (hroom : count ≤ cursor.rest.length) :
    cursor.bytes count =
      .ok (cursor.rest.take count, ⟨cursor.position + count, cursor.rest.drop count⟩) := by
  rw [bytes_eq_ok_iff]
  exact ⟨(List.take_append_drop count cursor.rest).symm, List.length_take_of_le hroom, rfl⟩

theorem step_of_le (hroom : command.size ≤ cursor.rest.length) :
    (step command).outcome cursor =
      (.ok (command.reply (cursor.rest.take command.size)),
        ⟨cursor.position + command.size, cursor.rest.drop command.size⟩) := by
  have hanswer : cursor.answer command =
      .ok (command.reply (cursor.rest.take command.size),
        ⟨cursor.position + command.size, cursor.rest.drop command.size⟩) := by
    cases command with
    | bytes count =>
        rw [answer, bytes_of_le (show count.toNat ≤ _ from hroom)]
        rfl
    | scalar type =>
        rw [answer, scalar, bytes_of_le (show type.size ≤ _ from hroom)]
        rfl
  rw [step, outcome_get_bind, hanswer, outcome_ok_bind]
  rfl

theorem step_of_lt (hshort : cursor.rest.length < command.size) :
    (step command).outcome cursor = (.error .outOfBounds, cursor) := by
  have hanswer : cursor.answer command = .error .outOfBounds := by
    cases command with
    | bytes count =>
        rw [answer, bytes_of_short (show _ < count.toNat from hshort)]
        rfl
    | scalar type =>
        rw [answer, scalar, bytes_of_short (show _ < type.size from hshort)]
        rfl
  rw [step, outcome_get_bind, hanswer, outcome_error_bind]

/-- The cursor stands in the data, and what follows is what it has left. -/
structure Within (cursor : Cursor) (data : Bytes) : Prop where
  position_le : cursor.position ≤ data.length
  rest_eq : cursor.rest = data.drop cursor.position

theorem within_start (data : Bytes) : (start data).Within data := ⟨Nat.zero_le _, rfl⟩

/-- A command is answered from the bytes at the position, or nothing happens. -/
theorem Within.step_cases (hwithin : cursor.Within data) (command : CursorCommand) :
    (∃ next, (step command).outcome cursor =
        (.ok (command.reply ((data.drop cursor.position).take command.size)), next) ∧
      next.Within data ∧ next.position = cursor.position + command.size) ∨
    (step command).outcome cursor = (.error .outOfBounds, cursor) ∧
      data.length < cursor.position + command.size := by
  obtain ⟨hposition, hrest⟩ := hwithin
  have hlength : cursor.rest.length = data.length - cursor.position := by
    rw [hrest, List.length_drop]
  rcases Nat.lt_or_ge cursor.rest.length command.size with hshort | hroom
  · exact .inr ⟨step_of_lt hshort, by omega⟩
  · refine .inl ⟨⟨cursor.position + command.size, cursor.rest.drop command.size⟩, ?_, ?_, rfl⟩
    · rw [step_of_le hroom, hrest]
    · refine ⟨by dsimp only; omega, ?_⟩
      dsimp only
      rw [hrest, List.drop_drop]

theorem Within.settles (hwithin : cursor.Within data) (command : CursorCommand) :
    Settles Cursor.position data.length command.size (step command) cursor := by
  rcases hwithin.step_cases command with ⟨next, houtcome, hnext, hposition⟩ | ⟨houtcome, houtside⟩
  · exact settles_of_granted (hposition ▸ hnext.position_le) houtcome hposition
  · exact settles_of_refused houtside houtcome

/-- No command takes a cursor out of its data. -/
theorem Within.run (hwithin : cursor.Within data) (commands : List CursorCommand) :
    (outcomes (commands.map step) cursor).2.Within data := by
  induction commands generalizing cursor with
  | nil => exact hwithin
  | cons command rest ih =>
      rw [List.map_cons, outcomes_cons]
      rcases hwithin.step_cases command with ⟨next, houtcome, hnext, -⟩ | ⟨houtcome, -⟩
      · rw [houtcome]
        exact ih hnext
      · rw [houtcome]
        exact ih hwithin

/-- A cursor at the offset of a window reads what the window reads. -/
theorem Within.reads_eq {window : Window} (hwithin : cursor.Within window.data)
    (hposition : cursor.position = window.offset.toNat) (types : List ScalarType) :
    ∃ final : Cursor,
      outcomes (types.map fun type => step (.scalar type)) cursor =
        ((outcomes (types.map Window.read) window).1.map (Except.map .scalar), final) ∧
      final.position = (outcomes (types.map Window.read) window).2.offset.toNat := by
  induction types generalizing cursor window with
  | nil => exact ⟨cursor, rfl, hposition⟩
  | cons type rest ih =>
      rw [List.map_cons, outcomes_cons, List.map_cons, outcomes_cons]
      rcases hwithin.step_cases (.scalar type) with
        ⟨next, houtcome, hnext, hmoved⟩ | ⟨houtcome, houtside⟩
      · have hinside : window.offset.toNat + type.size ≤ window.data.length :=
          hposition ▸ hmoved ▸ hnext.position_le
        obtain ⟨stop, hstop, hread⟩ := Window.read_of_le hinside
        have hbehind : next.position = stop.toNat := by
          rw [hstop, ← hposition]
          exact hmoved
        obtain ⟨final, hrest, hfinal⟩ := @ih next { window with offset := stop } hnext hbehind
        rw [houtcome, hread, hrest, hposition]
        exact ⟨final, rfl, hfinal⟩
      · obtain ⟨final, hrest, hfinal⟩ := ih hwithin hposition
        rw [houtcome, Window.read_of_lt (hposition ▸ houtside), hrest]
        exact ⟨final, rfl, hfinal⟩

end Cursor

namespace Window

/-- What has become of a window into which values were written one after the other, and what is read
back. -/
structure RoundTrips (window : Window) (values : List Scalar) (answers : List (Except Error Unit))
    (last : Window) : Prop where
  /-- Every write is made on what the ones before it have left. -/
  writes : ∀ index value, values[index]? = some value →
    answers[index]? =
        some ((write value).outcome (outcomes ((values.take index).map write) window).2).1 ∧
      Settles (·.offset.toNat) window.data.length value.type.size (write value)
        (outcomes ((values.take index).map write) window).2
  /-- Reading the types from the first offset on gives the values back and ends at the last
  offset. -/
  reads : outcomes ((values.map Scalar.type).map read) { last with offset := window.offset } =
    (recalls values answers, last)
  /-- A cursor that has been brought to the first offset, in whatever way, gives the same. -/
  cursor_reads : ∀ commands : List CursorCommand,
    (outcomes (commands.map Cursor.step) (Cursor.start last.data)).2.position =
      window.offset.toNat →
    ∃ final : Cursor,
      outcomes ((values.map Scalar.type).map fun type => Cursor.step (.scalar type))
          (outcomes (commands.map Cursor.step) (Cursor.start last.data)).2 =
        ((recalls values answers).map (Except.map .scalar), final) ∧
      final.position = last.offset.toNat
  /-- The range that was written holds the granted values, the lowest byte of each first. -/
  passed : (last.data.drop window.offset.toNat).take (last.offset.toNat - window.offset.toNat) =
    ((recalls values answers).filterMap Except.toOption).flatMap Scalar.digits
  /-- The bytes outside that range have kept their values. -/
  framed : Framed window last

/-- Typed access to memory, for all data, offsets and sequences of values: what is written is read
back, by offset and by cursor, the bytes outside the written range stay, and an access that fails
leaves everything as it was. -/
theorem scalars_round_trip (window : Window) (values : List Scalar) :
    RoundTrips window values (outcomes (values.map write) window).1
        (outcomes (values.map write) window).2 ∧
      (∀ type : ScalarType,
        Settles (·.offset.toNat) window.data.length type.size (read type) window) ∧
      ∀ (data : Bytes) (commands : List CursorCommand) (command : CursorCommand),
        Settles Cursor.position data.length command.size (Cursor.step command)
          (outcomes (commands.map Cursor.step) (Cursor.start data)).2 := by
  refine ⟨⟨?_, reads_writes window values, ?_, passed_writes window values,
    framed_writes window values⟩, settles_read window, ?_⟩
  · intro index value hvalue
    constructor
    · rw [getElem?_outcomes, List.getElem?_map, hvalue, ← List.map_take]
      rfl
    · rw [← (framed_writes window (values.take index)).length_eq]
      exact settles_write _ value
  · intro commands hposition
    have hreads := reads_writes window values
    obtain ⟨final, hcursor, hfinal⟩ := @Cursor.Within.reads_eq _
      { (outcomes (values.map write) window).2 with offset := window.offset }
      ((Cursor.within_start _).run commands) hposition (values.map Scalar.type)
    rw [hreads] at hcursor hfinal
    exact ⟨final, hcursor, hfinal⟩
  · intro data commands command
    exact ((Cursor.within_start data).run commands).settles command

-- The value of eight bytes does not fit; the next one is written where it would have been.
example : (outcomes ([.u16 0x1234, .u64 7, .f32 0x7FC00001].map write)
    ⟨[1, 2, 3, 4, 5, 6, 7, 8], 1, by decide⟩).2.data =
      [1, 0x34, 0x12, 0x01, 0x00, 0xC0, 0x7F, 8] := by decide

end Window

end Residual
