/-!
# How a solve ends

A solve ends with a status. A condition is asked before every node whether the search should stop,
and told of every node that was processed. Once it has asked to stop, the shared condition of all
searches of a solve keeps asking to stop, so every one of them does.
-/

namespace BranchBound

/-- The status in which a solve ended. -/
inductive Status where
  /-- The incumbent is optimal within the gap tolerances. -/
  | optimal
  | infeasible
  /-- The root relaxation is unbounded. -/
  | unbounded
  | timeLimit
  | nodeLimit
  /-- Too many nodes were open. -/
  | memoryLimit
  /-- The search ended without a proof: a condition without a status of its own stopped it, or
  subtrees were given up whose bound leaves a gap. -/
  | interrupted
  deriving DecidableEq, Repr

namespace Status

/-- The name of a status. -/
def text : Status → String
  | optimal => "optimal"
  | infeasible => "infeasible"
  | unbounded => "unbounded"
  | timeLimit => "time limit"
  | nodeLimit => "node limit"
  | memoryLimit => "memory limit"
  | interrupted => "interrupted"

end Status

/-- Something that can ask a search to stop. -/
class StopCondition (τ : Type) where
  /-- Whether to stop, and the condition after having been asked. -/
  shouldStop : τ → Bool × τ
  /-- The condition after another node was processed. -/
  nodeProcessed : τ → τ
  /-- The status of a solve which this condition stopped. -/
  status : τ → Status

/-- The conditions of the library and their combinations. -/
inductive Condition where
  /-- Never asks to stop. -/
  | indefinite
  /-- Asks to stop once `processed` has reached `budget`. -/
  | nodes (budget processed : Nat)
  /-- Asks to stop when the deadline has passed; the clock belongs to the caller. -/
  | deadline (passed : Bool)
  /-- Asks to stop when it was asked this often before. -/
  | polls (remaining : Nat)
  /-- No condition at all. -/
  | absent
  /-- The condition inside. -/
  | present (inner : Condition)
  /-- Asks to stop when one of two conditions does. The second one is not asked when the first
  one asks to stop, which is remembered for the status. -/
  | both (first second : Condition) (firstTriggered : Bool)
  deriving Repr

namespace Condition

/-- Stops after a number of nodes. -/
def nodeBudget (budget : Nat) : Condition := nodes budget 0

/-- Stops when one of two conditions does. -/
def either (first second : Condition) : Condition := both first second false

def shouldStop : Condition → Bool × Condition
  | indefinite => (false, indefinite)
  | nodes budget processed => (decide (budget ≤ processed), nodes budget processed)
  | deadline passed => (passed, deadline passed)
  | polls remaining => (remaining == 0, polls (remaining - 1))
  | absent => (false, absent)
  | present inner =>
    let (stop, inner) := inner.shouldStop
    (stop, present inner)
  | both first second firstTriggered =>
    match first.shouldStop with
    | (true, first) => (true, both first second true)
    | (false, first) =>
      let (stop, second) := second.shouldStop
      (stop, both first second firstTriggered)

def nodeProcessed : Condition → Condition
  | nodes budget processed => nodes budget (processed + 1)
  | present inner => present inner.nodeProcessed
  | both first second firstTriggered =>
    both first.nodeProcessed second.nodeProcessed firstTriggered
  | other => other

def status : Condition → Status
  | nodes _ _ => .nodeLimit
  | deadline _ => .timeLimit
  | present inner => inner.status
  | both first second firstTriggered => if firstTriggered then first.status else second.status
  | indefinite | polls _ | absent => .interrupted

instance : StopCondition Condition := ⟨shouldStop, nodeProcessed, status⟩

end Condition

/-- A condition asked by every search of a solve. -/
structure SharedCondition (τ : Type) where
  condition : τ
  /-- Whether the condition has asked to stop. -/
  stopped : Bool
  deriving Repr

namespace SharedCondition

variable {τ : Type} [StopCondition τ]

def ofCondition (condition : τ) : SharedCondition τ := ⟨condition, false⟩

/-- Whether to stop. The condition is not asked again after it has asked to stop. -/
def shouldStop (s : SharedCondition τ) : Bool × SharedCondition τ :=
  if s.stopped then (true, s)
  else
    let (stop, condition) := StopCondition.shouldStop s.condition
    (stop, ⟨condition, stop⟩)

def nodeProcessed (s : SharedCondition τ) : SharedCondition τ :=
  { s with condition := StopCondition.nodeProcessed s.condition }

def status (s : SharedCondition τ) : Status := StopCondition.status s.condition

instance : StopCondition (SharedCondition τ) := ⟨shouldStop, nodeProcessed, status⟩

end SharedCondition

end BranchBound
