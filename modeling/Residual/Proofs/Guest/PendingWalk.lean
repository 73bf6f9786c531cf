import Mathlib.Data.Finset.Card
import Residual.Guest.PendingChain
import Residual.Proofs.Guest.Layout

/-!
# Walks over pending chains

What a reader makes of a chain in any memory, however its links run. The walk accepts exactly the
chains whose links agree in both directions. It keeps no list of the places it has been to: a place
that is reached twice would need two predecessors, so the links back alone keep the walk out of
cycles.
-/

namespace Residual.Guest

namespace Memory

/-- The request record at an address: seven words, one behind the other. -/
def requestAt (memory : Memory) (address : UInt32) : RequestRecord where
  next := memory.field address.toNat 0
  prev := memory.field address.toNat 4
  funcId := memory.field address.toNat 8
  func := memory.field address.toNat 12
  argBuffer := memory.field address.toNat 16
  argLength := memory.field address.toNat 20
  slot := memory.field address.toNat 24

theorem decode_requestAt (memory : Memory) (address : UInt32) :
    RequestRecord.decode (memory.bytesAt address.toNat 28) = memory.requestAt address := by
  simp (disch := decide) only [RequestRecord.decode, wordAt_bytesAt, requestAt]

/-- The pending request at an address, with the argument bytes that its record describes. -/
def pendingAt (memory : Memory) (address : UInt32) : PendingRecord :=
  let record := memory.requestAt address
  ⟨address, record.funcId, record.func,
    memory.bytesAt record.argBuffer.toNat record.argLength.toNat, record.slot⟩

/-- A request can be read at an address: its record is inside the memory, and so are its arguments
if it has any. -/
structure Readable (memory : Memory) (address : UInt32) : Prop where
  nonzero : address ≠ 0
  record : memory.Covers address.toNat 28
  args : (memory.requestAt address).argLength ≠ 0 →
    memory.Covers (memory.requestAt address).argBuffer.toNat
      (memory.requestAt address).argLength.toNat

/-- The requests at these addresses are a stretch of a doubly linked chain. It starts at `head`,
every record links to the next one and the last to `rest`; the first links back to `prev` and every
other to the one before it. -/
structure Chained (memory : Memory) (prev head : UInt32) (addresses : List UInt32) (rest : UInt32) :
    Prop where
  readable : ∀ address ∈ addresses, memory.Readable address
  head : (addresses ++ [rest])[0]? = some head
  next : ∀ (index : Nat) (address : UInt32), addresses[index]? = some address →
    (addresses ++ [rest])[index + 1]? = some (memory.requestAt address).next
  prev : ∀ (index : Nat) (address : UInt32), addresses[index]? = some address →
    (prev :: addresses)[index]? = some (memory.requestAt address).prev

/-- The address that some steps along the links lead to. -/
def hop (memory : Memory) : (head : UInt32) → (steps : Nat) → UInt32
  | head, 0 => head
  | head, steps + 1 => memory.hop (memory.requestAt head).next steps

theorem chained_nil_iff {memory : Memory} {prev head rest : UInt32} :
    memory.Chained prev head [] rest ↔ rest = head := by
  constructor
  · intro hchained
    simpa using hchained.head
  · rintro rfl
    exact ⟨by simp, by simp, by simp, by simp⟩

theorem chained_cons_iff {memory : Memory} {prev head address rest : UInt32}
    {addresses : List UInt32} :
    memory.Chained prev head (address :: addresses) rest ↔
      address = head ∧ memory.Readable address ∧ (memory.requestAt address).prev = prev ∧
        memory.Chained address (memory.requestAt address).next addresses rest := by
  constructor
  · intro hchained
    obtain ⟨hreadable, hothers⟩ := List.forall_mem_cons.mp hchained.readable
    refine ⟨by simpa using hchained.head, hreadable, ?_, hothers, ?_, ?_, ?_⟩
    · simpa using (hchained.prev 0 address rfl).symm
    · simpa using hchained.next 0 address rfl
    · intro index other hother
      simpa using hchained.next (index + 1) other hother
    · intro index other hother
      simpa using hchained.prev (index + 1) other hother
  · rintro ⟨rfl, hreadable, hprev, hrest⟩
    refine ⟨List.forall_mem_cons.mpr ⟨hreadable, hrest.readable⟩, rfl, ?_, ?_⟩
    · intro index other hother
      cases index with
      | zero =>
          cases hother
          simpa using hrest.head
      | succ index => simpa using hrest.next index other hother
    · intro index other hother
      cases index with
      | zero =>
          cases hother
          simpa using hprev.symm
      | succ index => simpa using hrest.prev index other hother

/-- No place is visited twice: the records before two visits to one place would be the same, and so
on back to the first record, which has none before it. -/
theorem Chained.getElem?_ne {memory : Memory} {head rest : UInt32} {addresses : List UInt32}
    (hchained : memory.Chained 0 head addresses rest) {earlier later : Nat} {address : UInt32}
    (hlt : earlier < later) (hearlier : addresses[earlier]? = some address) :
    addresses[later]? ≠ some address := by
  intro hlater
  induction earlier generalizing later address with
  | zero =>
      obtain ⟨before, rfl⟩ := Nat.exists_eq_add_one_of_ne_zero (Nat.ne_of_gt hlt)
      have hfirst := hchained.prev 0 address hearlier
      have hbefore := hchained.prev (before + 1) address hlater
      rw [List.getElem?_cons_zero, Option.some.injEq] at hfirst
      rw [List.getElem?_cons_succ, ← hfirst] at hbefore
      exact (hchained.readable 0 (List.mem_of_getElem? hbefore)).nonzero rfl
  | succ earlier ih =>
      obtain ⟨before, rfl⟩ := Nat.exists_eq_add_one_of_ne_zero (Nat.ne_zero_of_lt hlt)
      have hfirst := hchained.prev (earlier + 1) address hearlier
      have hbefore := hchained.prev (before + 1) address hlater
      rw [List.getElem?_cons_succ] at hfirst hbefore
      exact ih (Nat.lt_of_succ_lt_succ hlt) hfirst hbefore

theorem Chained.nodup {memory : Memory} {head rest : UInt32} {addresses : List UInt32}
    (hchained : memory.Chained 0 head addresses rest) : addresses.Nodup := by
  rw [List.nodup_iff_getElem?_ne_getElem?]
  intro earlier later hlt hlength heq
  rw [List.getElem?_eq_getElem hlength] at heq
  exact hchained.getElem?_ne hlt heq (List.getElem?_eq_getElem hlength)

theorem Chained.getElem?_eq_hop {memory : Memory} {prev head rest : UInt32}
    {addresses : List UInt32} (hchained : memory.Chained prev head addresses rest) {steps : Nat}
    (hsteps : steps ≤ addresses.length) :
    (addresses ++ [rest])[steps]? = some (memory.hop head steps) := by
  induction steps generalizing prev head addresses with
  | zero => exact hchained.head
  | succ steps ih =>
      cases addresses with
      | nil => cases hsteps
      | cons address addresses =>
          obtain ⟨rfl, -, -, hrest⟩ := chained_cons_iff.mp hchained
          exact ih hrest (Nat.le_of_succ_le_succ hsteps)

/-- More records than fit side by side overlap: two of them start in the same stretch of the size of
a record. -/
theorem exists_overlap {memory : Memory} {addresses : List UInt32} (hnodup : addresses.Nodup)
    (hcovers : ∀ address ∈ addresses, memory.Covers address.toNat 28)
    (hlength : memory.data.length / 28 < addresses.length) :
    ∃ first ∈ addresses, ∃ second ∈ addresses,
      first < second ∧ second.toNat < first.toNat + 28 := by
  let stretch : UInt32 → Nat := fun address =>
    (address.toNat - memory.base.toNat) / 28
  have hcard : (Finset.range (memory.data.length / 28)).card <
      addresses.toFinset.card := by
    rw [Finset.card_range, List.toFinset_card_of_nodup hnodup]
    exact hlength
  have hmaps : ∀ address ∈ addresses.toFinset,
      stretch address ∈ Finset.range (memory.data.length / 28) := by
    intro address hmem
    obtain ⟨hbase, hend⟩ := hcovers address (List.mem_toFinset.mp hmem)
    rw [Finset.mem_range]
    simp only [stretch]
    omega
  obtain ⟨first, hfirst, second, hsecond, hne, hsame⟩ :=
    Finset.exists_ne_map_eq_of_card_lt_of_maps_to hcard hmaps
  rw [List.mem_toFinset] at hfirst hsecond
  have hbases := And.intro (hcovers first hfirst).1 (hcovers second hsecond).1
  have hne : first.toNat ≠ second.toNat := fun heq => hne (UInt32.toNat_inj.mp heq)
  simp only [stretch] at hsame
  rcases Nat.lt_or_gt_of_ne hne with hlt | hgt
  · exact ⟨first, hfirst, second, hsecond, UInt32.lt_iff_toNat_lt.mpr hlt, by omega⟩
  · exact ⟨second, hsecond, first, hfirst, UInt32.lt_iff_toNat_lt.mpr hgt, by omega⟩

end Memory

/-- One step of the walk: the record has to be inside the memory, to link back to where the walk
came from, and to have its arguments inside the memory. -/
theorem follow_succ {memory : Memory} {head prev address : UInt32} {count : Nat}
    (haddress : address ≠ 0) :
    follow memory head (count + 1) prev address =
      if memory.Covers address.toNat 28 then
        if (memory.requestAt address).prev = prev then
          if (memory.requestAt address).argLength ≠ 0 →
              memory.Covers (memory.requestAt address).argBuffer.toNat
                (memory.requestAt address).argLength.toNat then
            (follow memory head count address (memory.requestAt address).next).map
              (memory.pendingAt address :: ·)
          else .error .outOfBounds
        else .error (.malformed (.backLink address (memory.requestAt address).prev prev))
      else .error .outOfBounds := by
  have hsize : RequestRecord.size = 28 := rfl
  rw [follow, if_neg haddress, Memory.slice_eq, hsize]
  by_cases hrecord : memory.Covers address.toNat 28
  · simp only [if_pos hrecord, Memory.decode_requestAt, Memory.region_eq, ne_eq, ite_not]
    congr 1
    by_cases hargs : ¬ (memory.requestAt address).argLength = 0 →
        memory.Covers (memory.requestAt address).argBuffer.toNat
          (memory.requestAt address).argLength.toNat
    · simp only [if_pos hargs]
      cases follow memory head count address (memory.requestAt address).next with
      | error error => rfl
      | ok rest => rfl
    · simp only [if_neg hargs]
  · simp only [if_neg hrecord]

/-- The walk gets past a readable request that links back to where the walk came from. -/
theorem follow_of_readable {memory : Memory} {head prev address : UInt32} {count : Nat}
    (hreadable : memory.Readable address) (hprev : (memory.requestAt address).prev = prev) :
    follow memory head (count + 1) prev address =
      (follow memory head count address (memory.requestAt address).next).map
        (memory.pendingAt address :: ·) := by
  rw [follow_succ hreadable.nonzero, if_pos hreadable.record, if_pos hprev, if_pos hreadable.args]

/-- Everything else stops the walk, and is not mistaken for a chain without end. -/
theorem follow_of_not_readable {memory : Memory} {head prev address : UInt32} {count : Nat}
    (haddress : address ≠ 0)
    (hnot : ¬ (memory.Readable address ∧ (memory.requestAt address).prev = prev)) :
    ∃ error, follow memory head (count + 1) prev address = .error error ∧
      ∀ reported, error ≠ .malformed (.endlessChain reported) := by
  rw [follow_succ haddress]
  split
  next hrecord =>
    split
    next hprev =>
      split
      next hargs => exact absurd ⟨⟨haddress, hrecord, hargs⟩, hprev⟩ hnot
      next => exact ⟨_, rfl, by simp⟩
    next => exact ⟨_, rfl, by simp⟩
  next => exact ⟨_, rfl, by simp⟩

theorem follow_null (memory : Memory) (head prev : UInt32) (count : Nat) :
    follow memory head count prev 0 = .ok [] := by
  cases count <;> rfl

/-- A walk ends in one of three ways: at the end of a chain, at the most records it may visit, or at
an address without a request that belongs there. -/
theorem follow_cases (memory : Memory) (head prev address : UInt32) (count : Nat) :
    ∃ addresses rest, memory.Chained prev address addresses rest ∧
      ((rest = 0 ∧ addresses.length ≤ count ∧
          follow memory head count prev address = .ok (addresses.map memory.pendingAt)) ∨
        (addresses.length = count ∧
          follow memory head count prev address = .error (.malformed (.endlessChain head))) ∨
        ∃ error, follow memory head count prev address = .error error ∧
          ∀ reported, error ≠ .malformed (.endlessChain reported)) := by
  induction count generalizing prev address with
  | zero =>
      refine ⟨[], address, Memory.chained_nil_iff.mpr rfl, ?_⟩
      by_cases haddress : address = 0
      · subst address
        exact Or.inl ⟨rfl, Nat.le_refl 0, follow_null memory head prev 0⟩
      · exact Or.inr (Or.inl ⟨rfl, by rw [follow, if_neg haddress]⟩)
  | succ count ih =>
      by_cases haddress : address = 0
      · subst address
        exact ⟨[], 0, Memory.chained_nil_iff.mpr rfl,
          Or.inl ⟨rfl, Nat.zero_le _, follow_null memory head prev _⟩⟩
      · by_cases hpass : memory.Readable address ∧ (memory.requestAt address).prev = prev
        · obtain ⟨addresses, rest, hchained, hcases⟩ :=
            ih address (memory.requestAt address).next
          refine ⟨address :: addresses, rest,
            Memory.chained_cons_iff.mpr ⟨rfl, hpass.1, hpass.2, hchained⟩, ?_⟩
          rw [follow_of_readable hpass.1 hpass.2]
          rcases hcases with
            ⟨hrest, hlength, hfollow⟩ | ⟨hlength, hfollow⟩ | ⟨error, hfollow, hother⟩
          · exact Or.inl ⟨hrest, Nat.succ_le_succ hlength, by rw [hfollow]; rfl⟩
          · exact Or.inr (Or.inl ⟨by rw [List.length_cons, hlength], by rw [hfollow]; rfl⟩)
          · exact Or.inr (Or.inr ⟨error, by rw [hfollow]; rfl, hother⟩)
        · exact ⟨[], address, Memory.chained_nil_iff.mpr rfl,
            Or.inr (Or.inr (follow_of_not_readable haddress hpass))⟩

theorem follow_of_chained {memory : Memory} {head prev address : UInt32} {count : Nat}
    {addresses : List UInt32} (hchained : memory.Chained prev address addresses 0)
    (hlength : addresses.length ≤ count) :
    follow memory head count prev address = .ok (addresses.map memory.pendingAt) := by
  induction addresses generalizing prev address count with
  | nil =>
      rw [← Memory.chained_nil_iff.mp hchained]
      exact follow_null memory head prev count
  | cons first rest ih =>
      obtain ⟨rfl, hreadable, hprev, hrest⟩ := Memory.chained_cons_iff.mp hchained
      obtain ⟨count, rfl⟩ := Nat.exists_eq_add_one_of_ne_zero (Nat.ne_zero_of_lt hlength)
      rw [follow_of_readable hreadable hprev, ih hrest (Nat.le_of_succ_le_succ hlength)]
      rfl

theorem readPending_eq (memory : Memory) (head : UInt32) :
    readPending memory head = follow memory head (memory.data.length / 28 + 1) 0 head :=
  rfl

theorem readPending_eq_ok_iff (memory : Memory) (head : UInt32) (records : List PendingRecord) :
    readPending memory head = .ok records ↔
      ∃ addresses, addresses.length ≤ memory.data.length / 28 + 1 ∧
        memory.Chained 0 head addresses 0 ∧ records = addresses.map memory.pendingAt := by
  constructor
  · intro hread
    obtain ⟨addresses, rest, hchained, hcases⟩ := follow_cases memory head 0 head
      (memory.data.length / 28 + 1)
    rw [← readPending_eq, hread] at hcases
    rcases hcases with ⟨rfl, hlength, hrecords⟩ | ⟨-, herror⟩ | ⟨error, herror, -⟩
    · exact ⟨addresses, hlength, hchained, Except.ok.inj hrecords⟩
    · cases herror
    · cases herror
  · rintro ⟨addresses, hlength, hchained, rfl⟩
    exact follow_of_chained hchained hlength

theorem exists_overlap_of_endless {memory : Memory} {head reported : UInt32}
    (hread : readPending memory head = .error (.malformed (.endlessChain reported))) :
    ∃ addresses rest, memory.Chained 0 head addresses rest ∧
      addresses.length = memory.data.length / 28 + 1 ∧
      ∃ first ∈ addresses, ∃ second ∈ addresses,
        first < second ∧ second.toNat < first.toNat + 28 := by
  obtain ⟨addresses, rest, hchained, hcases⟩ := follow_cases memory head 0 head
    (memory.data.length / 28 + 1)
  rw [← readPending_eq, hread] at hcases
  rcases hcases with ⟨-, -, hok⟩ | ⟨hlength, -⟩ | ⟨error, herror, hother⟩
  · cases hok
  · refine ⟨addresses, rest, hchained, hlength, ?_⟩
    apply Memory.exists_overlap hchained.nodup
    · intro address hmem
      exact (hchained.readable address hmem).record
    · omega
  · exact absurd (Except.error.inj herror).symm (hother reported)

/-- Links that lead to a place twice have no end, so no well-linked chain follows them. -/
theorem exists_error_of_cycle {memory : Memory} {head : UInt32} {first second : Nat}
    (hlt : first < second) (hnonzero : ∀ steps ≤ second, memory.hop head steps ≠ 0)
    (hcycle : memory.hop head first = memory.hop head second) :
    ∃ error, readPending memory head = .error error := by
  cases hread : readPending memory head with
  | error error => exact ⟨error, rfl⟩
  | ok records =>
      exfalso
      obtain ⟨addresses, -, hchained, -⟩ := (readPending_eq_ok_iff memory head records).mp hread
      have hlength : second < addresses.length := by
        by_contra hnot
        have hend := hchained.getElem?_eq_hop (Nat.le_refl addresses.length)
        rw [List.getElem?_concat_length, Option.some.injEq] at hend
        exact hnonzero addresses.length (Nat.not_lt.mp hnot) hend.symm
      have hplace (steps : Nat) (hsteps : steps < addresses.length) :
          addresses[steps]? = some (memory.hop head steps) := by
        rw [← hchained.getElem?_eq_hop (Nat.le_of_lt hsteps), List.getElem?_append_left hsteps]
      refine hchained.getElem?_ne hlt (hplace first (Nat.lt_trans hlt hlength)) ?_
      rw [hcycle]
      exact hplace second hlength

/-- Reading accepts exactly the well-linked chains. It succeeds if and only if the memory holds a
whole chain from the given head on, of at most as many requests as could stand side by side and one
more, and returns its requests in order. No address occurs twice in what is returned, so links that
run into a cycle are never accepted. A chain is called endless only where records that the walk
visited overlap. -/
theorem readPending_accepts_exactly_chains (memory : Memory) (head : UInt32) :
    (∀ records, readPending memory head = .ok records ↔
      ∃ addresses, addresses.length ≤ memory.data.length / 28 + 1 ∧
        memory.Chained 0 head addresses 0 ∧ records = addresses.map memory.pendingAt) ∧
      (∀ records, readPending memory head = .ok records →
        (records.map PendingRecord.address).Nodup) ∧
      (∀ first second, first < second → (∀ steps ≤ second, memory.hop head steps ≠ 0) →
        memory.hop head first = memory.hop head second →
        ∃ error, readPending memory head = .error error) ∧
      ∀ reported, readPending memory head = .error (.malformed (.endlessChain reported)) →
        ∃ addresses rest, memory.Chained 0 head addresses rest ∧
          addresses.length = memory.data.length / 28 + 1 ∧
          ∃ first ∈ addresses, ∃ second ∈ addresses,
            first < second ∧ second.toNat < first.toNat + 28 := by
  refine ⟨readPending_eq_ok_iff memory head, ?_, ?_, ?_⟩
  · intro records hread
    obtain ⟨addresses, -, hchained, rfl⟩ := (readPending_eq_ok_iff memory head records).mp hread
    have haddresses : (addresses.map memory.pendingAt).map PendingRecord.address = addresses := by
      rw [List.map_map]
      exact List.map_id addresses
    rw [haddresses]
    exact hchained.nodup
  · intro first second hlt hnonzero hcycle
    exact exists_error_of_cycle hlt hnonzero hcycle
  · intro reported hread
    exact exists_overlap_of_endless hread

/-- Two requests one byte apart that link to each other as they should. The second links on, to a
third. -/
def overlappingMemory : Memory := ⟨0x1000000, [1, 0, 0, 1, 0, 0, 0, 0, 1] ++ Bytes.zeros 20⟩

theorem readPending_accepts_exactly_chains_overlapping :
    readPending overlappingMemory 0x1000000 = .error (.malformed (.endlessChain 0x1000000)) ∧
      ∃ addresses rest, overlappingMemory.Chained 0 0x1000000 addresses rest ∧
        addresses.length = 2 ∧
        ∃ first ∈ addresses, ∃ second ∈ addresses,
          first < second ∧ second.toNat < first.toNat + 28 := by
  have hread : readPending overlappingMemory 0x1000000 =
      .error (.malformed (.endlessChain 0x1000000)) := rfl
  exact ⟨hread, (readPending_accepts_exactly_chains overlappingMemory 0x1000000).2.2.2 _ hread⟩

end Residual.Guest
