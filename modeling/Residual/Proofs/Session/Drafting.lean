import Residual.Proofs.Session.History

/-!
# Drafts and whole requests

A request can be drafted operand by operand or built from all operands at once. A draft goes on
taking operands after one of them could not be written, and answers for that one only when it is
finished; building from all operands stops there. Neither can be told from the other by what it
leads to.
-/

namespace Residual

/-- A sequence of descriptors is refused for the first one that cannot be written behind those
before it. -/
theorem ArgBuffer.describeAll_eq_error_iff (buffer : ArgBuffer) (descriptors : List Descriptor)
    (error : Error) :
    buffer.describeAll descriptors = .error error ↔
      ∃ before descriptor after written, descriptors = before ++ descriptor :: after ∧
        buffer.describeAll before = .ok written ∧
        ((describe descriptor).outcome written).1 = .error error := by
  induction descriptors generalizing buffer with
  | nil =>
      constructor
      · intro herror
        cases herror
      · rintro ⟨before, descriptor, after, -, hsplit, -⟩
        cases before <;> cases hsplit
  | cons first rest ih =>
      rw [describeAll]
      rcases hfirst : (describe first).outcome buffer with ⟨failure | ⟨⟩, next⟩
      · constructor
        · intro herror
          cases herror
          exact ⟨[], first, rest, buffer, rfl, rfl, congrArg Prod.fst hfirst⟩
        · rintro ⟨before, descriptor, after, written, hsplit, hwritten, hfailed⟩
          cases before with
          | nil =>
              cases hsplit
              cases hwritten
              rw [hfirst] at hfailed
              cases hfailed
              rfl
          | cons other before =>
              cases hsplit
              rw [describeAll, hfirst] at hwritten
              cases hwritten
      · dsimp only
        rw [ih]
        constructor
        · rintro ⟨before, descriptor, after, written, rfl, hwritten, hfailed⟩
          refine ⟨first :: before, descriptor, after, written, rfl, ?_, hfailed⟩
          rw [describeAll, hfirst]
          exact hwritten
        · rintro ⟨before, descriptor, after, written, hsplit, hwritten, hfailed⟩
          cases before with
          | nil =>
              cases hsplit
              cases hwritten
              rw [hfirst] at hfailed
              cases hfailed
          | cons other before =>
              cases hsplit
              rw [describeAll, hfirst] at hwritten
              exact ⟨before, descriptor, after, written, rfl, hwritten, hfailed⟩

namespace Draft

/-- The first operand that cannot be written behind those before it, which can, fails in this
way. -/
def FirstFailure (policy : Policy) (operands : List Operand) (error : Error) : Prop :=
  ∃ before operand after written, operands = before ++ operand :: after ∧
    (ArgBuffer.empty policy).describeAll (before.map Operand.lower) = .ok written ∧
      ((ArgBuffer.describe operand.lower).outcome written).1 = .error error

theorem firstFailure_iff (policy : Policy) (operands : List Operand) (error : Error) :
    FirstFailure policy operands error ↔
      (ArgBuffer.empty policy).describeAll (operands.map Operand.lower) = .error error := by
  rw [ArgBuffer.describeAll_eq_error_iff]
  constructor
  · rintro ⟨before, operand, after, written, rfl, hwritten, hfailed⟩
    refine ⟨_, _, after.map Operand.lower, written, ?_, hwritten, hfailed⟩
    rw [List.map_append, List.map_cons]
  · rintro ⟨before, descriptor, after, written, hsplit, hwritten, hfailed⟩
    obtain ⟨first, others, rfl, rfl, hothers⟩ := List.map_eq_append_iff.mp hsplit
    obtain ⟨operand, rest, rfl, rfl, -⟩ := List.map_eq_cons_iff.mp hothers
    exact ⟨first, operand, rest, written, rfl, hwritten, hfailed⟩

/-- What finishing a draft of these operands leads to. -/
structure Finishes (policy : Policy) (site : CallSite) (operands : List Operand)
    (result : Except Error Request) : Prop where
  /-- The first operand that could not be written decides, whatever follows it and however many
  there are. -/
  failed : ∀ error, FirstFailure policy operands error → result = .error error
  /-- If there is none, the number of operands decides, where it is checked. -/
  miscounted : (¬ ∃ error, FirstFailure policy operands error) → policy.checkArity = true →
    operands.length ≠ site.arity → result = .error (.arityMismatch site.arity operands.length)
  /-- Otherwise there is a request of the call site, for all operands in order. -/
  built : (¬ ∃ error, FirstFailure policy operands error) →
    (policy.checkArity = true → operands.length = site.arity) →
      ∃ request, result = .ok request ∧ request.AsksFor site operands

theorem finishes_build (policy : Policy) (site : CallSite) (operands : List Operand) :
    Finishes policy site operands ((start policy site).args operands).build := by
  have hfirst := firstFailure_iff policy operands
  cases hwritten : (ArgBuffer.empty policy).describeAll (operands.map Operand.lower) with
  | error error =>
      have hfailed := (args_of_not_written (show (start policy site).failure = none from rfl)
        hwritten).1
      have hnone : ¬ ¬ ∃ error, FirstFailure policy operands error :=
        not_not_intro ⟨error, (hfirst error).mpr hwritten⟩
      refine ⟨?_, fun hno => absurd hno hnone, fun hno => absurd hno hnone⟩
      intro other hother
      rw [hfirst, hwritten] at hother
      cases hother
      rw [build, hfailed]
  | ok written =>
      rw [build_of_written hwritten]
      refine ⟨?_, ?_, ?_⟩
      · intro error herror
        rw [hfirst, hwritten] at herror
        cases herror
      · intro _ hchecked hcount
        rw [if_pos ⟨hchecked, hcount⟩]
      · intro _ hcounted
        rw [if_neg fun hmiscounted => hmiscounted.2 (hcounted hmiscounted.1)]
        have hargs : written.take.1 = Descriptor.canonicalAll (operands.map Operand.lower) :=
          (ArgBuffer.describeAll_eq_ok _ written _ hwritten).1
        rw [hargs]
        exact ⟨_, rfl, site.asksFor_request operands⟩

end Draft

namespace Session

theorem submitDraft_args_eq_request {session : Session} {site : CallSite} {operands : List Operand}
    (hcount : operands.length = site.arity) :
    session.submitDraft ((session.draft site).args operands) = session.request site operands := by
  have hstart : (session.draft site).failure = none := rfl
  cases hwritten : (ArgBuffer.empty session.policy).describeAll (operands.map Operand.lower) with
  | error error =>
      obtain ⟨hfailure, hsite, hevents⟩ := Draft.args_of_not_written hstart hwritten
      have hreported : ((session.draft site).args operands).buildEvents =
          (ArgBuffer.empty session.policy).describeAllEvents (operands.map Operand.lower) ++
            [.notBuilt site.funcId error] := by
        rw [Draft.buildEvents, hfailure]
        dsimp only
        rw [hevents, hsite]
        rfl
      rw [submitDraft, hreported, Draft.build, hfailure]
      simp only [request, hwritten, record_record]
  | ok written =>
      have hbuild := Draft.build_of_written hwritten site
      rw [if_neg fun hmiscounted => hmiscounted.2 hcount] at hbuild
      have hreported : ((session.draft site).args operands).buildEvents =
          (ArgBuffer.empty session.policy).describeAllEvents (operands.map Operand.lower) := by
        rw [Draft.args_of_written hstart hwritten]
        rfl
      rw [submitDraft, hreported, show session.draft site = .start session.policy site from rfl,
        hbuild]
      simp only [request, hwritten]

/-- Drafting agrees with building from all operands at once, in any session and for any call site. A
finished draft reports the first operand that could not be written, then a wrong number of operands,
and otherwise holds all of them in order. If the number is right, submitting the draft has the same
result, the same handle or the same failure, as requesting with the same operands, and leaves the
same session with the same slots. -/
theorem draft_agrees_with_request (session : Session) (site : CallSite) (operands : List Operand) :
    Draft.Finishes session.policy site operands ((session.draft site).args operands).build ∧
      (operands.length = site.arity →
        session.submitDraft ((session.draft site).args operands) =
          session.request site operands) :=
  ⟨Draft.finishes_build session.policy site operands, submitDraft_args_eq_request⟩

end Session

end Residual
