import BranchBound.Fault

/-!
# Actions

An operation that works on a state and may stop with a fault is an `Action`. It leaves a state
behind either way: what was done before the fault stays done, and it is for the caller to go on
from there or not. A function from a state to a checked state, in contrast, happens as a whole or
not at all.
-/

namespace BranchBound

/-- An operation on a state, whose state outlives a fault. -/
abbrev Action (σ : Type) := ExceptT Fault (StateM σ)

namespace Action

variable {σ τ β : Type}

/-- The outcome of an action and the state which it leaves behind. -/
def perform (x : Action σ β) (s : σ) : Checked β × σ := x.run.run s

/-- The result of an action together with the state after it, if it does not stop. -/
def finish (x : Action σ β) (s : σ) : Checked (β × σ) :=
  match x.perform s with
  | (.ok result, after) => .ok (result, after)
  | (.error fault, _) => .error fault

/-- Changes the state as a whole or not at all. -/
def change (f : σ → Checked σ) : Action σ Unit := do set (← f (← get))

/-- Performs an action on a part of the state. The part is put back also if the action stops. -/
def within (part : σ → τ) (put : σ → τ → σ) (x : Action τ β) : Action σ β := do
  let (outcome, after) := x.perform (part (← get))
  modify fun s => put s after
  outcome

end Action

end BranchBound
