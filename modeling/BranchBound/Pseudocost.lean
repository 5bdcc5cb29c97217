import BranchBound.Fault
import BranchBound.Model.Basic

/-!
# Pseudocosts

Branching on a column moves it by some distance and raises the bound of the relaxation. The
average gain per unit of distance, in each direction, predicts what branching on the column again
will achieve; the number of bound changes propagated afterwards is recorded in the same way.
-/

namespace BranchBound

/-- The sum and the number of the terms seen so far. -/
structure MovingAverage (α : Type) where
  sum : α
  count : Nat
  deriving Repr

namespace MovingAverage

variable {α : Type} [Scalar α]

def empty : MovingAverage α := ⟨0, 0⟩

instance : Inhabited (MovingAverage α) := ⟨empty⟩

def add (a : MovingAverage α) (term : α) : MovingAverage α := ⟨a.sum + term, a.count + 1⟩

/-- The average, zero without terms. -/
def value (a : MovingAverage α) : α :=
  if 0 < a.count then a.sum / Scalar.ofCount a.count else 0

end MovingAverage

/-- The two children of a branching. -/
inductive Direction where
  /-- The child with the upper bound rounded down. -/
  | down
  /-- The child with the lower bound rounded up. -/
  | up
  deriving DecidableEq, Repr

/-- A value for each direction. -/
structure PerDirection (β : Type) where
  down : β
  up : β
  deriving Repr

namespace PerDirection

variable {β : Type}

def get (p : PerDirection β) : Direction → β
  | .down => p.down
  | .up => p.up

def modify (p : PerDirection β) (direction : Direction) (f : β → β) : PerDirection β :=
  match direction with
  | .down => { p with down := f p.down }
  | .up => { p with up := f p.up }

end PerDirection

/-- What was observed when branching on each column. -/
structure Pseudocost (α : Type) where
  /-- The gains per unit of distance. -/
  costs : Array (PerDirection (MovingAverage α))
  /-- The numbers of propagated bound changes. -/
  inferences : Array (PerDirection (MovingAverage α))
  /-- The gains of all columns, for columns without observations. -/
  averageCost : PerDirection (MovingAverage α)
  /-- The number of observations after which a cost is trusted. -/
  reliability : Nat
  deriving Repr

namespace Pseudocost

variable {α : Type} [Scalar α]

def empty (columnCount reliability : Nat) : Pseudocost α :=
  let none' : PerDirection (MovingAverage α) := ⟨.empty, .empty⟩
  ⟨Array.replicate columnCount none', Array.replicate columnCount none', none', reliability⟩

/-- Scores are computed as if no gain were smaller than this, so that no gain in one direction
does not hide the gain in the other. -/
def leastGain : α := 1e-6

/-- Records the gain of moving a column by a distance. A distance that is not positive and a gain
that is not finite say nothing. -/
def observe (p : Pseudocost α) (c : ColumnId) (direction : Direction) (distance gain : α) :
    Checked (Pseudocost α) := do
  if distance ≤ 0 || !Scalar.isFinite gain then return p
  let unitGain := Scalar.max gain 0 / distance
  return { p with
    costs := ← update p.costs c fun costs =>
      .ok (costs.modify direction fun average => average.add unitGain)
    averageCost := p.averageCost.modify direction fun average => average.add unitGain }

/-- Records the number of bound changes propagated after branching on a column. -/
def infer (p : Pseudocost α) (c : ColumnId) (direction : Direction) (changes : Nat) :
    Checked (Pseudocost α) := do
  return { p with
    inferences := ← update p.inferences c fun inferences =>
      .ok (inferences.modify direction fun average => average.add (Scalar.ofCount changes)) }

/-- The expected gain per unit of distance. -/
def cost (p : Pseudocost α) (c : ColumnId) (direction : Direction) : Checked α := do
  let observed := (← fetch p.costs c).get direction
  return if 0 < observed.count then observed.value
    else if 0 < (p.averageCost.get direction).count then (p.averageCost.get direction).value
    else 1

/-- The average number of bound changes propagated after branching on a column. -/
def inferenceRate (p : Pseudocost α) (c : ColumnId) (direction : Direction) : Checked α := do
  return ((← fetch p.inferences c).get direction).value

def observationCount (p : Pseudocost α) (c : ColumnId) (direction : Direction) : Checked Nat := do
  return ((← fetch p.costs c).get direction).count

/-- Whether a column was observed often enough in both directions. -/
def isReliable (p : Pseudocost α) (c : ColumnId) : Checked Bool := do
  return p.reliability ≤ (← p.observationCount c .down) &&
    p.reliability ≤ (← p.observationCount c .up)

/-- The score of branching on a column at given distances to the next integers. -/
def score (p : Pseudocost α) (c : ColumnId) (downDistance upDistance : α) : Checked α := do
  let down := (← p.cost c .down) * downDistance
  let up := (← p.cost c .up) * upDistance
  return Scalar.max down leastGain * Scalar.max up leastGain

end Pseudocost

end BranchBound
