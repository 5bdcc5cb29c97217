import BranchBound.Pseudocost
import BranchBound.Relaxation.Basic

/-!
# Nodes of a search

A search keeps the nodes from an installed one down to the current one on a stack. A node that was
branched on has two children: one of them is entered at once, the decision leading to the other
one is kept until it is entered, suspended or dropped.
-/

namespace BranchBound

/-- The outcome of evaluating a node or of branching on it. -/
inductive NodeResult where
  /-- The node has to be branched on. -/
  | unsolved
  /-- The node was branched on; its first child is the current node. -/
  | branched
  /-- The node was solved, or its lower bound exceeds the cutoff. -/
  | boundExceeding
  /-- Propagation showed that the node has no solution. -/
  | domainInfeasible
  /-- The relaxation of the node is infeasible. -/
  | relaxationInfeasible
  /-- The node was given up without a proof. -/
  | givenUp
  deriving DecidableEq, Repr

namespace NodeResult

/-- Whether the node is finished. -/
def isPruned : NodeResult → Bool
  | unsolved | branched => false
  | _ => true

end NodeResult

/-- A branching decision with what is needed to learn from its outcome. -/
structure Decision (α : Type) where
  change : BoundChange α
  direction : Direction
  /-- The distance between the value of the column in the relaxation and the new bound. -/
  distance : α
  /-- The objective value of the relaxation of the parent. -/
  parentObjective : α
  deriving Repr

namespace Decision

variable {α : Type} [Scalar α]

/-- The decision for the child of a column with a fractional value. -/
def ofValue (c : ColumnId) (value objective : α) : Direction → Decision α
  | .down => ⟨.atMost c (Scalar.floor value), .down, value - Scalar.floor value, objective⟩
  | .up => ⟨.atLeast c (Scalar.ceil value), .up, Scalar.ceil value - value, objective⟩

end Decision

/-- A node on the stack of a search. -/
structure SearchNode (α : Type) where
  lowerBound : α
  estimate : α
  depth : Nat
  basis : Option Basis
  /-- The decision that created the node; an installed node has none. -/
  decision : Option (Decision α)
  /-- The log position of that decision. -/
  position : Nat
  /-- Whether the relaxation of the node was solved at least once. -/
  isEvaluated : Bool
  /-- Whether the node is finished or was branched on. -/
  isExplored : Bool
  /-- The number of children which are not entered yet. -/
  openSubtrees : Nat
  /-- The decision for the child which is not entered yet. -/
  pending : Option (Decision α)
  deriving Repr

namespace SearchNode

variable {α : Type}

/-- A node without an evaluation. -/
def fresh (lowerBound estimate : α) (depth : Nat) (basis : Option Basis)
    (decision : Option (Decision α)) (position : Nat) : SearchNode α :=
  { lowerBound := lowerBound
    estimate := estimate
    depth := depth
    basis := basis
    decision := decision
    position := position
    isEvaluated := false
    isExplored := false
    openSubtrees := 0
    pending := none }

/-- Whether nothing is left to do for a node. -/
def isFinished (n : SearchNode α) : Bool := n.isExplored && n.openSubtrees == 0

/-- A node for which nothing is left to do. -/
def finish (n : SearchNode α) : SearchNode α := { n with isExplored := true, openSubtrees := 0 }

end SearchNode

end BranchBound
