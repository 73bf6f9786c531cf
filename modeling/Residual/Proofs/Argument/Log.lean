import Mathlib.Data.List.DropRight
import Residual.Proofs.Argument.Growth

/-!
# Histories of an argument buffer

A buffer is a log: all that was added since its contents were last taken, in order and without gaps.
An addition is made as a whole or not at all, and which it is can be told beforehand from sizes
alone.
-/

namespace Residual

/-- Commands with their answers, oldest first. -/
abbrev BufferHistory := List (BufferCommand × BufferReply)

namespace BufferHistory

/-- What a step put at the end of the buffer. -/
def appended : BufferCommand × BufferReply → Bytes
  | (.add addition, .added (.ok ())) => addition.bytes
  | _ => []

/-- Everything that was added since the contents were last taken. -/
def sinceTake (history : BufferHistory) : Bytes :=
  (history.rtakeWhile fun step => decide (step.1 ≠ .take)).flatMap appended

theorem sinceTake_take (history : BufferHistory) (reply : BufferReply) :
    sinceTake (history ++ [(.take, reply)]) = [] := by
  rw [sinceTake, List.rtakeWhile_concat_neg _ _ _ (by simp), List.flatMap_nil]

theorem sinceTake_add (history : BufferHistory) (addition : Addition) (reply : BufferReply) :
    sinceTake (history ++ [(.add addition, reply)]) =
      history.sinceTake ++ appended (.add addition, reply) := by
  rw [sinceTake, List.rtakeWhile_concat_pos _ _ _ (by simp), List.flatMap_append,
    List.flatMap_singleton, sinceTake]

end BufferHistory

namespace ArgBuffer

/-- The history of a run. -/
def history : ArgBuffer → List BufferCommand → BufferHistory
  | _, [] => []
  | buffer, command :: rest =>
    (command, (buffer.step command).1) :: (buffer.step command).2.history rest

theorem run_concat (buffer : ArgBuffer) (commands : List BufferCommand) (command : BufferCommand) :
    buffer.run (commands ++ [command]) = ((buffer.run commands).step command).2 :=
  List.foldl_concat _ _ _ _

theorem history_concat (buffer : ArgBuffer) (commands : List BufferCommand)
    (command : BufferCommand) :
    buffer.history (commands ++ [command]) =
      buffer.history commands ++ [(command, ((buffer.run commands).step command).1)] := by
  induction commands generalizing buffer with
  | nil => rfl
  | cons first rest ih =>
      rw [List.cons_append, history, ih, history, List.cons_append]
      rfl

/-- A buffer that has come about under a policy, with what its history left in it. -/
structure Records (buffer : ArgBuffer) (policy : Policy) (history : BufferHistory) : Prop where
  policy_eq : buffer.policy = policy
  bounded : buffer.Bounded
  contents_eq : buffer.contents = history.sinceTake

theorem Records.step {buffer : ArgBuffer} {policy : Policy} {history : BufferHistory}
    (hrecords : buffer.Records policy history) (command : BufferCommand) :
    (buffer.step command).2.Records policy (history ++ [(command, (buffer.step command).1)]) := by
  obtain ⟨hpolicy, hbounded, hcontents⟩ := hrecords
  cases command with
  | take =>
      subst policy
      exact ⟨rfl, bounded_empty _, (BufferHistory.sinceTake_take history _).symm⟩
  | add addition =>
      rw [ArgBuffer.step]
      rcases outcome_add_cases hbounded addition with
        ⟨next, hadd, -, hnext, hkept, happended⟩ | ⟨error, hadd, -⟩
      · rw [hadd]
        refine ⟨hkept.trans hpolicy, hnext, ?_⟩
        rw [BufferHistory.sinceTake_add, ← hcontents]
        exact happended
      · rw [hadd]
        refine ⟨hpolicy, hbounded, ?_⟩
        rw [BufferHistory.sinceTake_add, ← hcontents]
        exact (List.append_nil _).symm

theorem records_run (policy : Policy) (commands : List BufferCommand) :
    ((empty policy).run commands).Records policy ((empty policy).history commands) := by
  induction commands using List.reverseRecOn with
  | nil => exact ⟨rfl, bounded_empty policy, rfl⟩
  | append_singleton commands command ih =>
      rw [run_concat, history_concat]
      exact ih.step command

theorem step_add_iff {buffer : ArgBuffer} (hbounded : buffer.Bounded) (addition : Addition) :
    (buffer.step (.add addition)).1 = .added (.ok ()) ↔ buffer.Admits addition.size := by
  rw [step]
  rcases outcome_add_cases hbounded addition with
    ⟨next, hadd, hadmits, -⟩ | ⟨error, hadd, hnot⟩
  · rw [hadd]
    exact iff_of_true rfl hadmits
  · rw [hadd]
    exact iff_of_false (by simp) hnot

/-- A step that fails has not touched the buffer yet. -/
theorem step_add_of_error {buffer : ArgBuffer} (hbounded : buffer.Bounded) {addition : Addition}
    {error : Error} (hreply : (buffer.step (.add addition)).1 = .added (.error error)) :
    (buffer.step (.add addition)).2 = buffer := by
  rw [step] at hreply ⊢
  rcases outcome_add_cases hbounded addition with ⟨next, hadd, -⟩ | ⟨failure, hadd, -⟩
  · rw [hadd] at hreply
    cases hreply
  · rw [hadd]

/-- What a history says about the buffer that it leads to. -/
structure Logs (buffer : ArgBuffer) (policy : Policy) (history : BufferHistory) : Prop where
  /-- The contents are all that was added since they were last taken. -/
  contents_eq : buffer.contents = history.sinceTake
  /-- An addition has exactly the size that it asks for. -/
  length_bytes : ∀ addition : Addition, addition.bytes.length = addition.size
  /-- Taking the contents returns them and leaves nothing, not even memory. -/
  take_eq : buffer.step .take = (.taken history.sinceTake, empty policy)
  limit_eq : buffer.limit = min policy.maxArgBytes.toNat (2 ^ 20)
  size_le_limit : buffer.size ≤ buffer.limit
  /-- An addition is made if and only if it stays within the limit, and the memory can be asked for
  in case none is reserved yet and some is needed. -/
  added_iff : ∀ addition, (buffer.step (.add addition)).1 = .added (.ok ()) ↔
    buffer.size + addition.size ≤ buffer.limit ∧
      (buffer.capacity ≠ 0 ∨ addition.size = 0 ∨ policy.initialCapacity.toNat ≤ 2 ^ 63 - 1)
  /-- An addition that is not made leaves the buffer as it was. -/
  refused_unchanged : ∀ addition error,
    (buffer.step (.add addition)).1 = .added (.error error) →
      (buffer.step (.add addition)).2 = buffer

/-- A buffer is an append-only log with a hard cap, whatever its policy and whatever it has been
asked for. -/
theorem buffer_logs_additions (policy : Policy) (commands : List BufferCommand) :
    ((empty policy).run commands).Logs policy ((empty policy).history commands) := by
  obtain ⟨hpolicy, hbounded, hcontents⟩ := records_run policy commands
  refine ⟨hcontents, Addition.length_bytes, ?_, ?_, hbounded.limit, ?_, ?_⟩
  · rw [step, take, hcontents, hpolicy]
  · rw [limit, hpolicy]
    rfl
  · intro addition
    rw [step_add_iff hbounded, Admits, hpolicy]
    rfl
  · intro addition error hreply
    exact step_add_of_error hbounded hreply

end ArgBuffer

end Residual
