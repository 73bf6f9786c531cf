import Mathlib.Order.Bounds.Basic
import Residual.Proofs.Argument.Capacity
import Residual.Proofs.Argument.Log

/-!
# Capacities depend on sizes alone

The capacity of a buffer is doubled in a loop until it is enough. The loop ends because a buffer
never starts it from nothing, and it stays far below what a word can state because the limit does.
What is reserved is always the first capacity of the policy, doubled as often as the size asks for,
so it does not tell how the bytes came in.
-/

namespace Residual

namespace ArgBuffer

/-- The loop that doubles a capacity until it is enough: the capacity it starts from, those that it
doubles, and the one that it ends with. A loop that does not end relates nothing. -/
inductive Doubles (needed : Nat) : (capacity : Nat) → (visited : List Nat) → (final : Nat) → Prop
  | enough {capacity : Nat} (henough : needed ≤ capacity) : Doubles needed capacity [] capacity
  | again {capacity final : Nat} {visited : List Nat} (hshort : capacity < needed)
      (hrest : Doubles needed (doubled capacity) visited final) :
      Doubles needed capacity (capacity :: visited) final

theorem doubled_eq {capacity needed : Nat} (hshort : capacity < needed)
    (hword : 2 * needed ≤ maxSize) : doubled capacity = 2 * capacity :=
  Nat.min_eq_left (by omega)

/-- The loop ends from every capacity but zero. -/
theorem exists_doubles {capacity needed : Nat} (hpos : 0 < capacity)
    (hword : 2 * needed ≤ maxSize) :
    ∃ visited final, Doubles needed capacity visited final := by
  by_cases henough : needed ≤ capacity
  · exact ⟨[], capacity, .enough henough⟩
  · have hshort := Nat.not_le.mp henough
    have hdoubled := doubled_eq hshort hword
    obtain ⟨visited, final, hrest⟩ :=
      exists_doubles (show 0 < doubled capacity by omega) hword
    exact ⟨capacity :: visited, final, .again hshort hrest⟩
termination_by needed - capacity

namespace Doubles

variable {needed capacity final : Nat} {visited : List Nat}

theorem needed_le (hdoubles : Doubles needed capacity visited final) : needed ≤ final := by
  induction hdoubles with
  | enough henough => exact henough
  | again _ _ ih => exact ih

/-- Only what is not enough is doubled. -/
theorem lt_needed (hdoubles : Doubles needed capacity visited final) :
    ∀ short ∈ visited, short < needed := by
  induction hdoubles with
  | enough => simp
  | again hshort _ ih => simpa using ⟨hshort, ih⟩

/-- A bound on the number of rounds changes nothing if it is not reached. -/
theorem grown_eq (hdoubles : Doubles needed capacity visited final) {steps : Nat}
    (hsteps : visited.length ≤ steps) : grown steps capacity needed = final := by
  induction hdoubles generalizing steps with
  | enough henough => exact grown_eq_self steps henough
  | again hshort _ ih =>
      cases steps with
      | zero => simp at hsteps
      | succ steps =>
          rw [grown, if_pos hshort]
          apply ih
          simpa using hsteps

theorem final_eq (hdoubles : Doubles needed capacity visited final) (hword : 2 * needed ≤ maxSize) :
    final = capacity * 2 ^ visited.length := by
  induction hdoubles with
  | enough => simp
  | again hshort _ ih =>
      rw [ih, doubled_eq hshort hword, List.length_cons, Nat.pow_succ', Nat.mul_comm 2,
        Nat.mul_assoc]

/-- The loop takes no round more than it has to. -/
theorem isLeast_length (hdoubles : Doubles needed capacity visited final)
    (hword : 2 * needed ≤ maxSize) :
    IsLeast {rounds | needed ≤ capacity * 2 ^ rounds} visited.length := by
  constructor
  · rw [Set.mem_ofPred_eq, ← hdoubles.final_eq hword]
    exact hdoubles.needed_le
  · induction hdoubles with
    | enough => simp [lowerBounds]
    | again hshort _ ih =>
        intro rounds hrounds
        cases rounds with
        | zero =>
            rw [Set.mem_ofPred_eq, Nat.pow_zero, Nat.mul_one] at hrounds
            exact absurd hshort (Nat.not_lt.mpr hrounds)
        | succ rounds =>
            apply Nat.succ_le_succ
            apply ih
            rwa [Set.mem_ofPred_eq, doubled_eq hshort hword, Nat.mul_comm 2, Nat.mul_assoc,
              ← Nat.pow_succ']

end Doubles

/-- The capacity that the first growth of a buffer starts from. -/
def firstCapacity (policy : Policy) : Nat := max policy.initialCapacity.toNat 1

/-- What is reserved for some bytes: nothing for none, else the first capacity, doubled as often as
it takes. -/
structure IsCapacityFor (policy : Policy) (size capacity : Nat) : Prop where
  of_empty : size = 0 → capacity = 0
  of_nonempty : size ≠ 0 → ∃ doublings,
    IsLeast {doublings | size ≤ firstCapacity policy * 2 ^ doublings} doublings ∧
      capacity = firstCapacity policy * 2 ^ doublings

namespace IsCapacityFor

variable {policy : Policy} {size capacity : Nat}

theorem unique {other : Nat} (hcapacity : IsCapacityFor policy size capacity)
    (hother : IsCapacityFor policy size other) : capacity = other := by
  by_cases hsize : size = 0
  · rw [hcapacity.of_empty hsize, hother.of_empty hsize]
  · obtain ⟨doublings, hleast, hcapacity⟩ := hcapacity.of_nonempty hsize
    obtain ⟨others, hleastOther, hother⟩ := hother.of_nonempty hsize
    rw [hcapacity, hother, hleast.unique hleastOther]

/-- A capacity that is still enough is still the right one. -/
theorem more (hcapacity : IsCapacityFor policy size capacity) {count : Nat}
    (henough : size + count ≤ capacity) : IsCapacityFor policy (size + count) capacity := by
  by_cases hsize : size = 0
  · have hzero := hcapacity.of_empty hsize
    refine ⟨fun _ => hzero, fun hnonempty => ?_⟩
    omega
  · obtain ⟨doublings, hleast, hdoublings⟩ := hcapacity.of_nonempty hsize
    refine ⟨fun hempty => by omega, fun _ => ⟨doublings, ⟨?_, ?_⟩, hdoublings⟩⟩
    · rwa [Set.mem_ofPred_eq, ← hdoublings]
    · intro fewer hfewer
      exact hleast.2 (Nat.le_trans (Nat.le_add_right size count) hfewer)

end IsCapacityFor

/-- Doublings that come on top of some that were not enough. -/
theorem isLeast_doublings_add {first needed doublings rounds : Nat}
    (hshort : first * 2 ^ doublings < needed)
    (hleast : IsLeast {rounds | needed ≤ first * 2 ^ doublings * 2 ^ rounds} rounds) :
    IsLeast {total | needed ≤ first * 2 ^ total} (doublings + rounds) := by
  constructor
  · rw [Set.mem_ofPred_eq, Nat.pow_add, ← Nat.mul_assoc]
    exact hleast.1
  · intro total htotal
    rw [Set.mem_ofPred_eq] at htotal
    have hmore : doublings ≤ total := by
      apply Nat.le_of_not_lt
      intro hlt
      have hpow := Nat.mul_le_mul_left first
        (Nat.pow_le_pow_right (n := 2) (by decide) (Nat.le_of_lt hlt))
      omega
    obtain ⟨extra, rfl⟩ := Nat.exists_eq_add_of_le hmore
    apply Nat.add_le_add_left
    apply hleast.2
    rwa [Set.mem_ofPred_eq, Nat.mul_assoc, ← Nat.pow_add]

/-- The capacity with which a loop ends that starts where the next growth starts is the right
one. -/
theorem isCapacityFor_of_doubles {buffer : ArgBuffer} {needed final : Nat} {visited : List Nat}
    (hcapacity : IsCapacityFor buffer.policy buffer.size buffer.capacity)
    (hshort : buffer.capacity < needed) (hword : 2 * needed ≤ maxSize)
    (hdoubles : Doubles needed buffer.growthStart visited final) :
    IsCapacityFor buffer.policy needed final := by
  have hfinal := hdoubles.final_eq hword
  have hleast := hdoubles.isLeast_length hword
  refine ⟨fun hempty => by omega, fun _ => ?_⟩
  by_cases hsize : buffer.size = 0
  · have hstart : buffer.growthStart = firstCapacity buffer.policy :=
      if_pos (hcapacity.of_empty hsize)
    rw [hstart] at hfinal hleast
    exact ⟨visited.length, hleast, hfinal⟩
  · -- What is there has been doubled before, so the rounds of this loop come on top.
    obtain ⟨doublings, -, hdoublings⟩ := hcapacity.of_nonempty hsize
    have hfirst : 0 < firstCapacity buffer.policy := Nat.le_max_right _ _
    have hnonzero : buffer.capacity ≠ 0 := by
      rw [hdoublings]
      exact Nat.ne_of_gt (Nat.mul_pos hfirst (Nat.two_pow_pos doublings))
    have hstart : buffer.growthStart = firstCapacity buffer.policy * 2 ^ doublings :=
      (if_neg hnonzero).trans hdoublings
    rw [hstart] at hfinal hleast
    rw [hdoublings] at hshort
    refine ⟨doublings + visited.length, isLeast_doublings_add hshort hleast, ?_⟩
    rw [hfinal, Nat.mul_assoc, Nat.pow_add]

theorem growthStart_pos (buffer : ArgBuffer) : 0 < buffer.growthStart := by
  unfold growthStart
  split
  next => exact Nat.le_max_right _ _
  next hnonzero => exact Nat.pos_of_ne_zero hnonzero

/-- Within the limit a doubled size is still a word. -/
theorem two_mul_le_maxSize {buffer : ArgBuffer} {needed : Nat} (hfits : needed ≤ buffer.limit) :
    2 * needed ≤ maxSize := by
  have hlimit := buffer.limit_le_hardLimit
  unfold Policy.hardLimit at hlimit
  unfold maxSize
  omega

/-- Room that is not there yet is asked for with the capacity that the loop ends with. -/
theorem reserve_of_doubles {buffer : ArgBuffer} {count final : Nat} {visited : List Nat}
    (hshort : buffer.capacity < buffer.size + count)
    (hfits : buffer.size + count ≤ buffer.limit)
    (hdoubles : Doubles (buffer.size + count) buffer.growthStart visited final) :
    buffer.reserve count = if final ≤ maxCapacity then .ok final else .error .allocationFailed := by
  have hlimit := buffer.limit_le_hardLimit
  have hrounds : visited.length ≤ 20 := by
    apply (hdoubles.isLeast_length (two_mul_le_maxSize hfits)).2
    calc buffer.size + count ≤ 2 ^ 20 := Nat.le_trans hfits hlimit
      _ ≤ buffer.growthStart * 2 ^ 20 := Nat.le_mul_of_pos_left _ buffer.growthStart_pos
  rw [reserve]
  dsimp only
  rw [if_neg (Nat.not_lt.mpr hfits), if_neg (Nat.not_le.mpr hshort),
    hdoubles.grown_eq (Nat.le_trans hrounds (by decide))]

theorem isCapacityFor_reserve {buffer : ArgBuffer} {count capacity : Nat}
    (hcapacity : IsCapacityFor buffer.policy buffer.size buffer.capacity)
    (hreserve : buffer.reserve count = .ok capacity) :
    IsCapacityFor buffer.policy (buffer.size + count) capacity := by
  have hfits := buffer.le_limit_of_reserve count capacity hreserve
  by_cases henough : buffer.size + count ≤ buffer.capacity
  · rw [reserve] at hreserve
    dsimp only at hreserve
    rw [if_neg (Nat.not_lt.mpr hfits), if_pos henough] at hreserve
    cases hreserve
    exact hcapacity.more henough
  · have hshort := Nat.not_le.mp henough
    have hword := two_mul_le_maxSize hfits
    obtain ⟨visited, final, hdoubles⟩ := exists_doubles buffer.growthStart_pos hword
    rw [reserve_of_doubles hshort hfits hdoubles] at hreserve
    split at hreserve
    next =>
      cases hreserve
      exact isCapacityFor_of_doubles hcapacity hshort hword hdoubles
    next => cases hreserve

theorem isCapacityFor_empty (policy : Policy) :
    IsCapacityFor policy (empty policy).size (empty policy).capacity :=
  ⟨fun _ => rfl, fun hnonempty => absurd rfl hnonempty⟩

theorem isCapacityFor_step {buffer : ArgBuffer}
    (hcapacity : IsCapacityFor buffer.policy buffer.size buffer.capacity)
    (command : BufferCommand) :
    IsCapacityFor buffer.policy (buffer.step command).2.size (buffer.step command).2.capacity := by
  cases command with
  | take => exact isCapacityFor_empty buffer.policy
  | add addition =>
      rw [step]
      cases hreserve : buffer.reserve addition.size with
      | ok capacity =>
          rw [outcome_add_of_ok hreserve]
          dsimp only [size]
          rw [List.length_append, addition.length_bytes]
          exact isCapacityFor_reserve hcapacity hreserve
      | error error =>
          rw [outcome_add_of_error hreserve]
          exact hcapacity

theorem isCapacityFor_run (policy : Policy) (commands : List BufferCommand) :
    IsCapacityFor policy ((empty policy).run commands).size
      ((empty policy).run commands).capacity := by
  induction commands using List.reverseRecOn with
  | nil => exact isCapacityFor_empty policy
  | append_singleton commands command ih =>
      have hpolicy := (records_run policy commands).policy_eq
      rw [run_concat]
      have hstep := @isCapacityFor_step ((empty policy).run commands)
      rw [hpolicy] at hstep
      exact hstep ih command

theorem reserve_eq_allocationFailed_iff {buffer : ArgBuffer} (hbounded : buffer.Bounded)
    (count : Nat) :
    buffer.reserve count = .error .allocationFailed ↔
      buffer.size + count ≤ buffer.limit ∧ ¬ buffer.Admits count := by
  constructor
  · intro hreserve
    obtain ⟨-, herror⟩ | ⟨hfits, -⟩ := reserve_eq_error hreserve
    · cases herror
    · refine ⟨hfits, fun hadmits => ?_⟩
      obtain ⟨capacity, hok, -⟩ := exists_reserve_eq_ok hbounded hadmits
      rw [hok] at hreserve
      cases hreserve
  · rintro ⟨hfits, hnot⟩
    obtain ⟨error, hreserve⟩ := exists_reserve_eq_error hnot
    obtain ⟨hfull, -⟩ | ⟨-, rfl⟩ := reserve_eq_error hreserve
    · exact absurd hfits (Nat.not_le.mpr hfull)
    · exact hreserve

theorem add_eq_allocationFailed_iff (buffer : ArgBuffer) (addition : Addition) :
    ((add addition).outcome buffer).1 = .error .allocationFailed ↔
      buffer.reserve addition.size = .error .allocationFailed := by
  cases hreserve : buffer.reserve addition.size with
  | ok capacity => simp [outcome_add_of_ok hreserve]
  | error error =>
      rw [outcome_add_of_error hreserve, Except.error.injEq, Except.error.injEq]
      by_cases hoverlong : addition.Overlong
      · -- Too long a region is not even within the limit, so neither side is about memory.
        obtain ⟨hfull, rfl⟩ | ⟨hfits, -⟩ := reserve_eq_error hreserve
        · obtain ⟨data, rfl, hlong⟩ := hoverlong
          simp [refusal_of_overlong buffer _ hlong]
        · exact absurd hoverlong (not_overlong_of_fits hfits)
      · rw [refusal_of_not_overlong error hoverlong]

/-- How a buffer that has come about under a policy gets its memory. -/
structure GrowsByDoubling (buffer : ArgBuffer) (policy : Policy) : Prop where
  /-- Where memory is short of an allowed size, the loop ends. No doubling in it leaves a 64-bit
  word, and what it ends with is no less than what the buffer holds, so the difference can be asked
  for. -/
  loop_ends : ∀ count, buffer.capacity < buffer.size + count → buffer.size + count ≤ buffer.limit →
    ∃ visited final, Doubles (buffer.size + count) buffer.growthStart visited final ∧
      (∀ capacity ∈ visited, 2 * capacity ≤ 2 ^ 64 - 1) ∧ buffer.size ≤ final ∧
      buffer.reserve count = if final ≤ 2 ^ 63 - 1 then .ok final else .error .allocationFailed
  /-- Nothing is reserved for an empty buffer. -/
  capacity_of_empty : buffer.size = 0 → buffer.capacity = 0
  /-- What is reserved for any other is the first capacity, doubled as often as its size asks
  for. -/
  capacity_of_nonempty : buffer.size ≠ 0 → ∃ doublings,
    IsLeast {doublings | buffer.size ≤ max policy.initialCapacity.toNat 1 * 2 ^ doublings}
      doublings ∧
      buffer.capacity = max policy.initialCapacity.toNat 1 * 2 ^ doublings
  /-- The same size has the same capacity, whatever the additions were that led to it. -/
  capacity_eq_of_size_eq : ∀ commands, ((empty policy).run commands).size = buffer.size →
    ((empty policy).run commands).capacity = buffer.capacity
  /-- Memory is refused exactly for a first growth within the limit, if the policy asks for more
  than can exist. -/
  allocationFailed_iff : ∀ addition,
    ((add addition).outcome buffer).1 = .error .allocationFailed ↔
    buffer.size = 0 ∧ buffer.capacity = 0 ∧ 0 < addition.size ∧ addition.size ≤ buffer.limit ∧
      2 ^ 63 - 1 < policy.initialCapacity.toNat

/-- Whatever a buffer has been asked for, its memory grows by doubling, and its capacity follows
from its size. -/
theorem capacity_follows_size (policy : Policy) (commands : List BufferCommand) :
    ((empty policy).run commands).GrowsByDoubling policy := by
  have hcapacity := isCapacityFor_run policy commands
  obtain ⟨hpolicy, hbounded, -⟩ := records_run policy commands
  generalize (empty policy).run commands = buffer at hcapacity hpolicy hbounded ⊢
  refine ⟨?_, hcapacity.of_empty, hcapacity.of_nonempty, ?_, ?_⟩
  · intro count hshort hfits
    have hword := two_mul_le_maxSize hfits
    obtain ⟨visited, final, hdoubles⟩ := exists_doubles buffer.growthStart_pos hword
    refine ⟨visited, final, hdoubles, ?_, ?_, reserve_of_doubles hshort hfits hdoubles⟩
    · intro capacity hvisited
      have hlt := hdoubles.lt_needed capacity hvisited
      unfold maxSize at hword
      omega
    · exact Nat.le_trans (Nat.le_add_right _ _) hdoubles.needed_le
  · intro others hsize
    have hother := isCapacityFor_run policy others
    rw [hsize] at hother
    exact hother.unique hcapacity
  · intro addition
    have hempty := hcapacity.of_empty
    have henough := hbounded.capacity
    rw [add_eq_allocationFailed_iff, reserve_eq_allocationFailed_iff hbounded, Admits, hpolicy]
    unfold maxCapacity
    omega

end ArgBuffer

end Residual
