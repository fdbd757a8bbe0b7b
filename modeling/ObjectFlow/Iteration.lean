/-!
# Running a step until it stops

Every fixpoint of the library is a loop that repeats one step until the step says
that nothing is left to do.  `settle` runs such a loop as a total function: it makes
bursts of one, two, four, … steps, and the number of bursts is bounded.  A bound
that is linear in the size of a problem therefore allows exponentially many steps,
while a loop that stops early pays for no more steps than it makes.
-/

namespace ObjectFlow.Iteration

/-- What one step of a loop says: the loop is over, or it goes on from a new state. -/
inductive Turn (σ : Type) where
  | done (state : σ)
  | more (state : σ)

namespace Turn

variable {σ τ : Type}

/-- The state that a turn leaves behind. -/
def state : Turn σ → σ
  | done s => s
  | more s => s

/-- The turn of a larger state in which only a part was stepped. -/
def map (f : σ → τ) : Turn σ → Turn τ
  | done s => done (f s)
  | more s => more (f s)

end Turn

variable {σ ε : Type}

/-- Makes `2 ^ n` steps, or fewer if the loop ends before. -/
@[specialize]
def burst (step : σ → Turn σ) : Nat → σ → Turn σ
  | 0, s => step s
  | n + 1, s =>
    match burst step n s with
    | .done t => .done t
    | .more t => burst step n t

/-- Makes at most `rounds` bursts, the first of `2 ^ n` steps and each one twice as
long as the one before it. -/
@[specialize]
def bursts (step : σ → Turn σ) : (rounds n : Nat) → σ → Turn σ
  | 0, _, s => .more s
  | rounds + 1, n, s =>
    match burst step n s with
    | .done t => .done t
    | .more t => bursts step rounds (n + 1) t

/-- Repeats `step` until it is done, for at most `2 ^ rounds - 1` steps. -/
@[specialize]
def settle (step : σ → Turn σ) (rounds : Nat) (s : σ) : σ :=
  (bursts step rounds 0 s).state

/-- A step that may fail, as a step on outcomes: a failure ends the loop. -/
def attempt (step : σ → Except ε (Turn σ)) : Except ε σ → Turn (Except ε σ)
  | .error e => .done (.error e)
  | .ok s =>
    match step s with
    | .error e => .done (.error e)
    | .ok turn => turn.map .ok

/-- `settle` for a step that may fail. -/
@[specialize]
def settleExcept (step : σ → Except ε (Turn σ)) (rounds : Nat) (s : σ) : Except ε σ :=
  settle (attempt step) rounds (.ok s)

end ObjectFlow.Iteration
