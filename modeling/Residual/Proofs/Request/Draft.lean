import Residual.Proofs.Argument.Lowering
import Residual.Request.Draft

/-!
# What drafts hold

A draft takes its operands one at a time. As long as all of them can be written it holds what they
lower to, one after the other; from the first that cannot be written on it holds that failure.
-/

namespace Residual

/-- The request of a call site for some operands, field by field. -/
structure Request.AsksFor (request : Request) (site : CallSite) (operands : List Operand) :
    Prop where
  funcId : request.funcId = site.funcId
  generic : request.generic = site.generic
  slot : request.slot = site.slot
  /-- The arguments are the canonical forms of all operands, one after the other. -/
  args : request.args = Descriptor.canonicalAll (operands.map Operand.lower)
  /-- They hold the bits of every operand under the tag of its type. -/
  records : request.args = operands.flatMap Operand.record

theorem CallSite.asksFor_request (site : CallSite) (operands : List Operand) :
    (site.request (Descriptor.canonicalAll (operands.map Operand.lower))).AsksFor site operands :=
  ⟨rfl, rfl, rfl, rfl, Operand.canonicalAll_lower operands⟩

namespace Draft

/-- A failed draft counts what is added to it and takes nothing in. -/
theorem args_of_failure {draft : Draft} {error : Error} (hfailure : draft.failure = some error)
    (operands : List Operand) :
    draft.args operands = { draft with count := draft.count + operands.length } := by
  induction operands generalizing draft with
  | nil => rfl
  | cons operand rest ih =>
      have harg : draft.arg operand = { draft with count := draft.count + 1 } := by
        rw [arg, hfailure]
      have hfailed : (draft.arg operand).failure = some error := by
        rw [harg]
        exact hfailure
      change (draft.arg operand).args rest = _
      rw [ih hfailed, harg, List.length_cons, Nat.add_assoc, Nat.add_comm 1]

theorem arg_of_described {draft : Draft} {operand : Operand} {next : ArgBuffer}
    (hfailure : draft.failure = none)
    (hdescribe : (ArgBuffer.describe operand.lower).outcome draft.buffer = (.ok (), next)) :
    draft.arg operand =
      { draft with
        buffer := next
        count := draft.count + 1
        events := draft.events ++ draft.buffer.describeEvents operand.lower } := by
  simp only [arg, hfailure, hdescribe]

theorem arg_of_not_described {draft : Draft} {operand : Operand} {error : Error}
    {next : ArgBuffer} (hfailure : draft.failure = none)
    (hdescribe : (ArgBuffer.describe operand.lower).outcome draft.buffer = (.error error, next)) :
    draft.arg operand =
      { draft with
        buffer := next
        failure := some error
        count := draft.count + 1
        events := draft.events ++ draft.buffer.describeEvents operand.lower } := by
  simp only [arg, hfailure, hdescribe]

theorem args_of_written {draft : Draft} {operands : List Operand} {written : ArgBuffer}
    (hfailure : draft.failure = none)
    (hwritten : draft.buffer.describeAll (operands.map Operand.lower) = .ok written) :
    draft.args operands =
      { draft with
        buffer := written
        count := draft.count + operands.length
        events :=
          draft.events ++ draft.buffer.describeAllEvents (operands.map Operand.lower) } := by
  induction operands generalizing draft with
  | nil =>
      cases hwritten
      simp [args, ArgBuffer.describeAllEvents]
  | cons operand rest ih =>
      rw [List.map_cons, ArgBuffer.describeAll] at hwritten
      change (draft.arg operand).args rest = _
      rw [List.map_cons, ArgBuffer.describeAllEvents]
      rcases hfirst : (ArgBuffer.describe operand.lower).outcome draft.buffer with
        ⟨error | ⟨⟩, next⟩
      · rw [hfirst] at hwritten
        cases hwritten
      · rw [hfirst] at hwritten
        have harg := arg_of_described hfailure hfirst
        have hrest := @ih (draft.arg operand) (by rw [harg]; exact hfailure)
          (by rw [harg]; exact hwritten)
        rw [hrest, harg, List.append_assoc, List.length_cons, Nat.add_assoc, Nat.add_comm 1]

theorem args_of_not_written {draft : Draft} {operands : List Operand} {error : Error}
    (hfailure : draft.failure = none)
    (hwritten : draft.buffer.describeAll (operands.map Operand.lower) = .error error) :
    (draft.args operands).failure = some error ∧ (draft.args operands).site = draft.site ∧
      (draft.args operands).events =
        draft.events ++ draft.buffer.describeAllEvents (operands.map Operand.lower) := by
  induction operands generalizing draft with
  | nil => cases hwritten
  | cons operand rest ih =>
      rw [List.map_cons, ArgBuffer.describeAll] at hwritten
      change ((draft.arg operand).args rest).failure = _ ∧
        ((draft.arg operand).args rest).site = _ ∧ ((draft.arg operand).args rest).events = _
      rw [List.map_cons, ArgBuffer.describeAllEvents]
      rcases hfirst : (ArgBuffer.describe operand.lower).outcome draft.buffer with
        ⟨failure | ⟨⟩, next⟩
      · rw [hfirst] at hwritten
        cases hwritten
        -- From here on the draft has failed, so the other operands are no more than counted.
        rw [arg_of_not_described hfailure hfirst, args_of_failure rfl, List.append_nil]
        exact ⟨rfl, rfl, rfl⟩
      · rw [hfirst] at hwritten
        have harg := arg_of_described hfailure hfirst
        obtain ⟨hfailed, hsite, hevents⟩ := @ih (draft.arg operand)
          (by rw [harg]; exact hfailure) (by rw [harg]; exact hwritten)
        refine ⟨hfailed, ?_, ?_⟩
        · rw [hsite, harg]
        · rw [hevents, harg, List.append_assoc]

theorem build_of_written {policy : Policy} {operands : List Operand} {written : ArgBuffer}
    (hwritten : (ArgBuffer.empty policy).describeAll (operands.map Operand.lower) = .ok written)
    (site : CallSite) :
    ((start policy site).args operands).build =
      if policy.checkArity ∧ operands.length ≠ site.arity then
        .error (.arityMismatch site.arity operands.length)
      else .ok (site.request written.take.1) := by
  have hpolicy := (ArgBuffer.describeAll_eq_ok _ written _ hwritten).2.1
  rw [args_of_written (show (start policy site).failure = none from rfl) hwritten, build]
  simp only [start, hpolicy, ArgBuffer.empty, Nat.zero_add]

/-- A draft that can be finished has written all its operands. -/
theorem written_of_build {policy : Policy} {site : CallSite} {operands : List Operand}
    {request : Request} (hbuild : ((start policy site).args operands).build = .ok request) :
    ∃ buffer, (ArgBuffer.empty policy).describeAll (operands.map Operand.lower) = .ok buffer ∧
      request = site.request buffer.take.1 := by
  cases hwritten : (ArgBuffer.empty policy).describeAll (operands.map Operand.lower) with
  | error error =>
      have hfailed := (args_of_not_written (show (start policy site).failure = none from rfl)
        hwritten).1
      rw [build, hfailed] at hbuild
      cases hbuild
  | ok buffer =>
      rw [build_of_written hwritten] at hbuild
      split at hbuild
      next => cases hbuild
      next =>
        cases hbuild
        exact ⟨buffer, rfl, rfl⟩

theorem build_start_args_eq_ok {policy : Policy} {site : CallSite} {operands : List Operand}
    {request : Request} (hbuild : ((start policy site).args operands).build = .ok request) :
    request = site.request (Descriptor.canonicalAll (operands.map Operand.lower)) := by
  obtain ⟨buffer, hwritten, rfl⟩ := written_of_build hbuild
  exact congrArg site.request (ArgBuffer.describeAll_eq_ok _ buffer _ hwritten).1

end Draft

end Residual
