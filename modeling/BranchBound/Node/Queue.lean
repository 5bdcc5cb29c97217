import BranchBound.Relaxation.Basic

/-!
# Open nodes and their queue

An open node is a subtree that no search works on: the changes which lead to its box, bounds on
its solutions, and what helps to resume it. The queue gives out the node with the smallest lower
bound first, of equal ones that with the smaller estimate, and then the one that was put in first.
-/

namespace BranchBound

/-- A suspended subtree. -/
structure OpenNode (α : Type) where
  changes : List (BoundChange α)
  /-- The positions of the branching decisions among the changes. -/
  branchings : List Nat
  /-- A lower bound on the objective value of every solution in the subtree. -/
  lowerBound : α
  /-- An estimate of the best objective value in the subtree. -/
  estimate : α
  depth : Nat
  basis : Option Basis
  deriving Repr

namespace OpenNode

/-- The node of the whole search space. -/
def root {α : Type} (lowerBound : α) (basis : Option Basis) : OpenNode α :=
  ⟨[], [], lowerBound, lowerBound, 0, basis⟩

end OpenNode

/-- The number of nodes put into a queue before a node. -/
abbrev NodeId := Nat

/-- Open nodes in the order in which they are given out. -/
structure NodeQueue (α : Type) where
  nodes : List (NodeId × OpenNode α)
  /-- The number of nodes ever put in. -/
  pushed : Nat
  deriving Repr

namespace NodeQueue

variable {α : Type} [Scalar α]

def empty : NodeQueue α := ⟨[], 0⟩

instance : Inhabited (NodeQueue α) := ⟨empty⟩

def size (q : NodeQueue α) : Nat := q.nodes.length

def isEmpty (q : NodeQueue α) : Bool := q.nodes.isEmpty

/-- The order of keys: by lower bound, by estimate, by identifier. -/
def compareKeys (boundA estimateA : α) (idA : NodeId) (boundB estimateB : α) (idB : NodeId) :
    Ordering :=
  ((Scalar.sortOrder boundA boundB).then (Scalar.sortOrder estimateA estimateB)).then
    (compare idA idB)

/-- Whether a node comes before another one. -/
def comesBefore (x y : NodeId × OpenNode α) : Bool :=
  compareKeys x.2.lowerBound x.2.estimate x.1 y.2.lowerBound y.2.estimate y.1 == .lt

/-- Inserts a node into a sorted list. -/
def insertSorted (x : NodeId × OpenNode α) : List (NodeId × OpenNode α) → List (NodeId × OpenNode α)
  | [] => [x]
  | y :: rest => if comesBefore x y then x :: y :: rest else y :: insertSorted x rest

/-- Puts a node in and returns its identifier, of which there are `2 ^ 32`. -/
def push (q : NodeQueue α) (node : OpenNode α) : Checked (NodeId × NodeQueue α) := do
  let pushed ← count 32 q.pushed 1
  return (q.pushed, ⟨insertSorted (q.pushed, node) q.nodes, pushed⟩)

/-- Takes out the first node. -/
def pop (q : NodeQueue α) : Option (OpenNode α) × NodeQueue α :=
  match q.nodes with
  | [] => (none, q)
  | (_, node) :: rest => (some node, { q with nodes := rest })

/-- Whether a node comes before every node with a lower bound above a cutoff. -/
def isWithin (cutoff : α) (x : NodeId × OpenNode α) : Bool :=
  compareKeys x.2.lowerBound x.2.estimate x.1 cutoff Scalar.infinity ((1 <<< 32) - 1) == .lt

/-- Removes the nodes with a lower bound above a cutoff, and returns their number. -/
def prune (q : NodeQueue α) (cutoff : α) : Nat × NodeQueue α :=
  let kept := q.nodes.takeWhile (isWithin cutoff)
  (q.nodes.length - kept.length, { q with nodes := kept })

/-- The smallest lower bound of a node in the queue, infinite if there is none. -/
def minLowerBound (q : NodeQueue α) : α :=
  match q.nodes with
  | [] => Scalar.infinity
  | (_, node) :: _ => node.lowerBound

def clear (q : NodeQueue α) : NodeQueue α := { q with nodes := [] }

end NodeQueue

end BranchBound
