import Residual.Error

/-!
# Steps in place

A step works on a state in place and may fail on the way. What it has changed by then stays
changed, so whether a failed step leaves its state alone depends on the order in which it checks and
changes.
-/

namespace Residual

/-- A step on a state. -/
abbrev InPlace (State : Type) := ExceptT Error (StateM State)

namespace InPlace

variable {State α β : Type}

/-- The answer of a step, and the state that it leaves. -/
def outcome (step : InPlace State α) (state : State) : Except Error α × State := step.run.run state

/-- The answers of steps that are taken one after the other, and the state that they leave. A step
that fails does not keep the later ones from being taken. -/
def outcomes : List (InPlace State α) → State → List (Except Error α) × State
  | [], state => ([], state)
  | step :: rest, state =>
    let (answer, next) := step.outcome state
    let (answers, last) := outcomes rest next
    (answer :: answers, last)

theorem outcome_pure (value : α) (state : State) :
    outcome (pure value) state = (.ok value, state) := rfl

theorem outcome_lift (result : Except Error α) (state : State) :
    outcome (liftM result) state = (result, state) := rfl

theorem outcome_set (next state : State) : outcome (set next) state = (.ok (), next) := rfl

theorem outcome_throw (error : Error) (state : State) :
    outcome (throw error : InPlace State α) state = (.error error, state) := rfl

/-- A step that fails keeps those behind it from being taken, and leaves what it has changed. -/
theorem outcome_bind (step : InPlace State α) (next : α → InPlace State β) (state : State) :
    outcome (step >>= next) state =
      match outcome step state with
      | (.ok value, later) => outcome (next value) later
      | (.error error, later) => (.error error, later) := by
  change (match step state with | (result, later) => ExceptT.bindCont next result later) = _
  change _ = match step state with
    | (.ok value, later) => outcome (next value) later
    | (.error error, later) => (.error error, later)
  obtain ⟨result, later⟩ := step state
  cases result with
  | ok value => rfl
  | error error => rfl

theorem outcome_get_bind (next : State → InPlace State α) (state : State) :
    outcome (get >>= next) state = outcome (next state) state := rfl

theorem outcome_ok_bind (value : α) (next : α → InPlace State β) (state : State) :
    outcome (liftM (Except.ok value : Except Error α) >>= next) state =
      outcome (next value) state := rfl

theorem outcome_error_bind (error : Error) (next : α → InPlace State β) (state : State) :
    outcome (liftM (Except.error error : Except Error α) >>= next) state =
      (.error error, state) := rfl

theorem outcomes_cons (step : InPlace State α) (rest : List (InPlace State α)) (state : State) :
    outcomes (step :: rest) state =
      ((step.outcome state).1 :: (outcomes rest (step.outcome state).2).1,
        (outcomes rest (step.outcome state).2).2) := rfl

end InPlace

end Residual
