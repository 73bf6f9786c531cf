import Residual.Proofs.Session.History

/-!
# What a key identifies

A request can be built at once or as a draft, under any policy, before or after a table is
installed. None of this shows in its key: the key tells which function is asked for and what the
operands were lowered to, and nothing else.
-/

namespace Residual

theorem CallSite.key_request_eq_iff {left right : CallSite} {first second : List Descriptor}
    (hfirst : ∀ descriptor ∈ first, descriptor.Representable)
    (hsecond : ∀ descriptor ∈ second, descriptor.Representable) :
    (left.request (Descriptor.canonicalAll first)).key =
        (right.request (Descriptor.canonicalAll second)).key ↔
      left.funcId = right.funcId ∧ first = second := by
  unfold request Request.key
  rw [Key.mk.injEq, canonicalAll_inj hfirst hsecond]

namespace Session

theorem get?_submit (session : Session) (request : Request) :
    (session.submit request).2.store.get? (session.submit request).1 = some request := by
  by_cases hmode : session.isSpecialized = true
  · obtain ⟨hhandle, hstore, -⟩ := submit_of_specialized session request hmode
    rw [hhandle, hstore]
    exact Store.get?_insertDetached _ request
  · obtain ⟨hhandle, hstore, -⟩ := submit_of_not_specialized session request hmode
    rw [hhandle, hstore]
    exact Store.get?_pushFront _ request

/-- A request of a call site that was built from operands in a session: at once, as a draft that was
finished, or as a draft that was handed over, be it to another session. -/
inductive Builds (session : Session) (site : CallSite) (operands : List Operand)
    (request : Request) : Prop
  | atOnce (handle : Handle) (next : Session)
      (hrequest : session.request site operands = (.ok handle, next))
      (hstored : next.store.get? handle = some request)
  | drafted (hbuild : ((session.draft site).args operands).build = .ok request)
  | handedOver (other next : Session) (handle : Handle)
      (hsubmit : other.submitDraft ((session.draft site).args operands) = (.ok handle, next))
      (hstored : next.store.get? handle = some request)

theorem build_of_submitDraft {session next : Session} {draft : Draft} {handle : Handle}
    {request : Request} (hsubmit : session.submitDraft draft = (.ok handle, next))
    (hstored : next.store.get? handle = some request) : draft.build = .ok request := by
  unfold submitDraft at hsubmit
  cases hbuild : draft.build with
  | error error => simp [hbuild] at hsubmit
  | ok built =>
      simp only [hbuild, Prod.mk.injEq, Except.ok.injEq] at hsubmit
      obtain ⟨rfl, rfl⟩ := hsubmit
      rw [get?_submit, Option.some.injEq] at hstored
      rw [hstored]

/-- However a request is built, its operands can be stated, and it holds their canonical form. -/
theorem Builds.request_eq {session : Session} {site : CallSite} {operands : List Operand}
    {request : Request} (hbuilds : session.Builds site operands request) :
    (∀ descriptor ∈ operands.map Operand.lower, descriptor.Representable) ∧
      request = site.request (Descriptor.canonicalAll (operands.map Operand.lower)) := by
  have hdrafted (hbuild : ((session.draft site).args operands).build = .ok request) :
      (∀ descriptor ∈ operands.map Operand.lower, descriptor.Representable) ∧
        request = site.request (Descriptor.canonicalAll (operands.map Operand.lower)) := by
    obtain ⟨buffer, hwritten, -⟩ := Draft.written_of_build hbuild
    exact ⟨(ArgBuffer.describeAll_eq_ok _ buffer _ hwritten).2.2,
      Draft.build_start_args_eq_ok hbuild⟩
  cases hbuilds with
  | atOnce handle next hrequest hstored =>
      obtain ⟨buffer, hwritten⟩ := written_of_request hrequest
      obtain ⟨events, hsubmit⟩ := request_of_written hwritten site
      rw [hrequest, Prod.mk.injEq, Except.ok.injEq] at hsubmit
      obtain ⟨rfl, rfl⟩ := hsubmit
      rw [get?_submit, Option.some.injEq] at hstored
      exact ⟨(ArgBuffer.describeAll_eq_ok _ buffer _ hwritten).2.2, hstored.symm⟩
  | drafted hbuild => exact hdrafted hbuild
  | handedOver other next handle hsubmit hstored =>
      exact hdrafted (build_of_submitDraft hsubmit hstored)

/-- Keys identify intents exactly. Take any two requests, each built in any way, in any session and
from any operands. The comparison of their keys finds no difference if and only if they ask for the
same function and their operands are lowered to the same descriptors, floating-point values compared
bit by bit. Their argument bytes alone already tell different descriptors apart. -/
theorem key_identifies_intent {left right : Session} {leftSite rightSite : CallSite}
    {leftOperands rightOperands : List Operand} {first second : Request}
    (hfirst : left.Builds leftSite leftOperands first)
    (hsecond : right.Builds rightSite rightOperands second) :
    (first.key.order second.key = .eq ↔
      leftSite.funcId = rightSite.funcId ∧
        leftOperands.map Operand.lower = rightOperands.map Operand.lower) ∧
      (first.args = second.args ↔
        leftOperands.map Operand.lower = rightOperands.map Operand.lower) := by
  obtain ⟨hleft, rfl⟩ := hfirst.request_eq
  obtain ⟨hright, rfl⟩ := hsecond.request_eq
  refine ⟨?_, canonicalAll_inj hleft hright⟩
  rw [Key.order_eq_iff]
  exact CallSite.key_request_eq_iff hleft hright

/-- Operands that can be written make a request in each of the three ways. -/
theorem builds_of_written {session : Session} {operands : List Operand}
    (hwritten : ∃ buffer,
      (ArgBuffer.empty session.policy).describeAll (operands.map Operand.lower) = .ok buffer)
    (site : CallSite) (hcount : operands.length = site.arity) :
    (∃ handle next request, session.request site operands = (.ok handle, next) ∧
      next.store.get? handle = some request) ∧
    (∃ request, ((session.draft site).args operands).build = .ok request) ∧
    ∀ other : Session, ∃ handle next request,
      other.submitDraft ((session.draft site).args operands) = (.ok handle, next) ∧
        next.store.get? handle = some request := by
  obtain ⟨buffer, hwritten⟩ := hwritten
  have hbuild : ((session.draft site).args operands).build = _ :=
    Draft.build_of_written hwritten site
  rw [if_neg fun hmiscounted => hmiscounted.2 hcount] at hbuild
  obtain ⟨events, hrequest⟩ := request_of_written hwritten site
  refine ⟨⟨_, _, _, hrequest, get?_submit _ _⟩, ⟨_, hbuild⟩, ?_⟩
  intro other
  rw [submitDraft, hbuild]
  exact ⟨_, _, _, rfl, get?_submit _ _⟩

/-- A session with a table and room for no more than three records, which it reserves byte by
byte. -/
def tightSession : Session := ((start { maxArgBytes := 48, initialCapacity := 0 }).install .empty).2

def identifiedSite : CallSite := ⟨7, ⟨73, by decide⟩, 2, ⟨0⟩⟩

/-- A truth value is a word with the value one, and a region is not the one that its padding would
make it. -/
theorem key_identifies_intent_padding :
    ∃ first second third,
      tightSession.Builds identifiedSite [.bool true, .memory [1, 2, 3]] first ∧
      (start .standard).Builds identifiedSite [.u32 1, .memory [1, 2, 3]] second ∧
      (start .minimal).Builds identifiedSite [.u32 1, .memory [1, 2, 3, 0]] third ∧
      first.key.order second.key = .eq ∧ first.key.order third.key ≠ .eq ∧
      first.args ≠ third.args := by
  obtain ⟨⟨_, _, first, hrequest, hstored⟩, -⟩ :=
    @builds_of_written tightSession [.bool true, .memory [1, 2, 3]]
      (Error.exists_eq_ok (by decide +kernel)) identifiedSite rfl
  obtain ⟨-, ⟨second, hbuild⟩, -⟩ :=
    @builds_of_written (start .standard) [.u32 1, .memory [1, 2, 3]]
      (Error.exists_eq_ok (by decide +kernel)) identifiedSite rfl
  obtain ⟨-, -, hhandedOver⟩ :=
    @builds_of_written (start .minimal) [.u32 1, .memory [1, 2, 3, 0]]
      (Error.exists_eq_ok (by decide +kernel)) identifiedSite rfl
  obtain ⟨_, _, third, hsubmit, hkept⟩ := hhandedOver tightSession
  have hfirst : tightSession.Builds identifiedSite [.bool true, .memory [1, 2, 3]] first :=
    .atOnce _ _ hrequest hstored
  have hsecond : (start .standard).Builds identifiedSite [.u32 1, .memory [1, 2, 3]] second :=
    .drafted hbuild
  have hthird : (start .minimal).Builds identifiedSite [.u32 1, .memory [1, 2, 3, 0]] third :=
    .handedOver tightSession _ _ hsubmit hkept
  obtain ⟨hsame, -⟩ := key_identifies_intent hfirst hsecond
  obtain ⟨hother, hargs⟩ := key_identifies_intent hfirst hthird
  exact ⟨first, second, third, hfirst, hsecond, hthird, hsame.mpr (by decide),
    fun heq => absurd (hother.mp heq) (by decide), fun heq => absurd (hargs.mp heq) (by decide)⟩

end Session

end Residual
