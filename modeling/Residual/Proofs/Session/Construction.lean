import Residual.Proofs.Argument.Growth
import Residual.Proofs.Session.Lifecycle

/-!
# Building requests

A request is built from all operands of a call site before it is handed over. Any of the operands
can turn out to be one too many, after others have been written; the session does not learn of it.
Whether all of them fit can be told from their sizes and the policy, in either mode and whatever the
session has been through.
-/

namespace Residual

namespace Store

variable {α : Type}

/-- A store has one more value than before, under a handle that named nothing, and every other
handle names what it named. -/
structure Gains (store after : Store α) (handle : Handle) (value : α) : Prop where
  fresh : store.get? handle = none
  stored : after.get? handle = some value
  others : ∀ other, other ≠ handle → after.get? other = store.get? other
  liveCount : after.liveCount = store.liveCount + 1

theorem gains_of_lists {store after : Store α} {ledger next : Ledger α} {handle : Handle}
    {value : α} {pending : Bool} (hrepresents : store.Represents ledger)
    (hafter : after.Represents next) (hunused : ledger.Unused handle)
    (hlists : ∀ other held linked, next.Lists other held linked ↔
      (other = handle ∧ held = value ∧ linked = pending) ∨ ledger.Lists other held linked)
    (hcount : next.pending.length + next.detached.keys.card =
      ledger.pending.length + ledger.detached.keys.card + 1) :
    store.Gains after handle value where
  fresh := by
    rw [Option.eq_none_iff_forall_ne_some]
    intro held hheld
    exact hunused held ((hrepresents.get?_iff handle held).mp hheld)
  stored := by
    have hlisted := (hlists handle value pending).mpr (Or.inl ⟨rfl, rfl, rfl⟩)
    rw [hafter.get?_iff]
    cases pending with
    | true => exact Or.inl hlisted
    | false => exact Or.inr hlisted
  others := by
    intro other hne
    apply Option.ext
    intro held
    rw [hafter.get?_iff, hrepresents.get?_iff]
    change next.Lists other held true ∨ next.Lists other held false ↔
      ledger.Lists other held true ∨ ledger.Lists other held false
    simp only [hlists, hne, false_and, false_or]
  liveCount := by
    rw [(shows_of_represents hafter).liveCount, (shows_of_represents hrepresents).liveCount, hcount]

theorem gains_pushFront {store : Store α} {ledger : Ledger α}
    (hrepresents : store.Represents ledger) (value : α) :
    store.Gains (store.pushFront value).2 (store.pushFront value).1 value := by
  obtain ⟨hunused, hafter⟩ := represents_pushFront store ledger value hrepresents
  refine gains_of_lists hrepresents hafter hunused (Ledger.lists_pushFront ledger _ · value · ·) ?_
  simp only [List.length_cons]
  omega

theorem gains_insertDetached {store : Store α} {ledger : Ledger α}
    (hrepresents : store.Represents ledger) (value : α) :
    store.Gains (store.insertDetached value).2 (store.insertDetached value).1 value := by
  obtain ⟨hunused, hafter⟩ := represents_insertDetached store ledger value hrepresents
  refine gains_of_lists hrepresents hafter hunused
    (Ledger.lists_insertDetached ledger _ · value · · hunused) ?_
  simp only [Ledger.card_insertDetached ledger _ value hunused]
  omega

end Store

namespace Session

theorem gains_submit {session : Session} {ledger : Ledger Request}
    (hrepresents : session.store.Represents ledger) (request : Request) :
    session.store.Gains (session.submit request).2.store (session.submit request).1 request := by
  by_cases hmode : session.isSpecialized = true
  · obtain ⟨hhandle, hstore, -⟩ := submit_of_specialized session request hmode
    rw [hhandle, hstore]
    exact Store.gains_insertDetached hrepresents request
  · obtain ⟨hhandle, hstore, -⟩ := submit_of_not_specialized session request hmode
    rw [hhandle, hstore]
    exact Store.gains_pushFront hrepresents request

/-- Operands that cannot be written leave nothing behind but the report of it. -/
theorem request_of_not_written {session : Session} {operands : List Operand} {error : Error}
    (hwritten : (ArgBuffer.empty session.policy).describeAll (operands.map Operand.lower) =
      .error error) (site : CallSite) :
    ∃ events, session.request site operands = (.error error, session.record events) := by
  simp only [request, hwritten, record_record]
  exact ⟨_, rfl⟩

theorem exists_written_iff (policy : Policy) (operands : List Operand) :
    (∃ buffer, (ArgBuffer.empty policy).describeAll (operands.map Operand.lower) = .ok buffer) ↔
      Operand.totalSize operands ≤ policy.argLimit ∧
        (operands = [] ∨ policy.initialCapacity.toNat ≤ ArgBuffer.maxCapacity) := by
  rw [ArgBuffer.exists_describeAll_eq_ok_iff (ArgBuffer.bounded_empty policy),
    List.map_eq_nil_iff, Operand.totalSize_lower]
  simp [ArgBuffer.empty, ArgBuffer.size, ArgBuffer.limit]

/-- What becomes of the operands of a call site in a session. -/
structure AllOrNothing (session : Session) (policy : Policy) (site : CallSite)
    (operands : List Operand) : Prop where
  /-- They make a request if and only if they fit, and the memory for them can be asked for. -/
  ok_iff : (∃ handle, (session.request site operands).1 = .ok handle) ↔
    Operand.totalSize operands ≤ min policy.maxArgBytes.toNat (2 ^ 20) ∧
      (operands = [] ∨ policy.initialCapacity.toNat ≤ 2 ^ 63 - 1)
  /-- The session then has one request more, that of the call site for the operands, and every other
  handle names what it named. -/
  gains : ∀ handle, (session.request site operands).1 = .ok handle →
    ∃ request : Request, request.AsksFor site operands ∧
      request.args.length = Operand.totalSize operands ∧
      session.store.Gains (session.request site operands).2.store handle request
  /-- Otherwise nothing is different: what is pending, what every handle names and which come next,
  the table and whether there is one, and what the slots hold. -/
  unchanged : ∀ error, (session.request site operands).1 = .error error →
    (session.request site operands).2.store = session.store ∧
      (session.request site operands).2.installed = session.installed ∧
      (session.request site operands).2.slots = session.slots

theorem allOrNothing_of_represents {session : Session} {ledger : Ledger Request}
    (hrepresents : session.store.Represents ledger) (site : CallSite) (operands : List Operand) :
    session.AllOrNothing session.policy site operands := by
  have hiff := exists_written_iff session.policy operands
  cases hwritten : (ArgBuffer.empty session.policy).describeAll (operands.map Operand.lower) with
  | ok buffer =>
      obtain ⟨events, hrequest⟩ := request_of_written hwritten site
      refine ⟨?_, ?_, ?_⟩
      · rw [hrequest]
        exact iff_of_true ⟨_, rfl⟩ (hiff.mp ⟨buffer, hwritten⟩)
      · intro handle hok
        rw [hrequest, Except.ok.injEq] at hok
        subst handle
        have hrecorded : (session.record events).store.Represents ledger := hrepresents
        rw [hrequest]
        refine ⟨_, site.asksFor_request operands, ?_, gains_submit hrecorded _⟩
        exact (Descriptor.length_canonicalAll _).trans (Operand.totalSize_lower operands)
      · intro error herror
        rw [hrequest] at herror
        cases herror
  | error failure =>
      obtain ⟨events, hrequest⟩ := request_of_not_written hwritten site
      refine ⟨?_, ?_, ?_⟩
      · rw [hwritten] at hiff
        rw [hrequest]
        refine iff_of_false ?_ fun hfits => ?_
        · rintro ⟨handle, hok⟩
          cases hok
        · obtain ⟨buffer, hbuffer⟩ := hiff.mpr hfits
          cases hbuffer
      · intro handle hok
        rw [hrequest] at hok
        cases hok
      · intro error _
        rw [hrequest]
        exact ⟨rfl, rfl, rfl⟩

/-- A request is built and stored as a whole or not at all. This holds after any run of a new
session, under any policy and whatever the slots held before, for any call site and any operands. -/
theorem request_all_or_nothing (policy : Policy) (slots : Slots) (commands : List Command)
    (site : CallSite) (operands : List Operand) :
    ({ start policy with slots := slots }.run commands).AllOrNothing policy site operands := by
  have hrepresents : { start policy with slots := slots }.store.Represents Ledger.empty :=
    Store.represents_empty
  obtain ⟨ledger, hledger, -⟩ := exists_ledger_run hrepresents commands
  have hpolicy := policy_run { start policy with slots := slots } commands
  have hall := allOrNothing_of_represents hledger site operands
  rw [hpolicy] at hall
  exact hall

end Session

end Residual
