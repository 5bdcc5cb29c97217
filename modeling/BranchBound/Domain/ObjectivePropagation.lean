import BranchBound.Domain.CutPropagation

/-!
# The objective as a constraint

With a cutoff, the objective is the constraint `Σ c x ≤ cutoff`. Binary columns with a negative
cost of which at most one can be one form a partition, and only the smallest cost of a partition
counts towards the minimal objective value. That makes the bound stronger than the sum of all
negative costs.
-/

namespace BranchBound

/-- Binary columns with a negative cost of which at most one can be one. -/
structure ObjectivePartition (α : Type) where
  /-- The columns that are not fixed to zero or one, with their costs, in increasing order. -/
  available : List (α × ColumnId)
  /-- The columns fixed to one. -/
  fixedToOne : List ColumnId
  /-- What the partition adds to the minimal objective value. -/
  contribution : α
  deriving Repr

namespace ObjectivePartition

variable {α : Type} [Scalar α]

def empty : ObjectivePartition α := ⟨[], [], 0⟩

/-- The order by cost, then by column. -/
def compareAvailable (x y : α × ColumnId) : Ordering :=
  (Scalar.sortOrder x.1 y.1).then (compare x.2 y.2)

/-- Inserts a column into a sorted list, unless it is there. -/
def insertAvailable (x : α × ColumnId) : List (α × ColumnId) → List (α × ColumnId)
  | [] => [x]
  | y :: rest =>
    match compareAvailable x y with
    | .lt => x :: y :: rest
    | .eq => y :: rest
    | .gt => y :: insertAvailable x rest

def removeAvailable (x : α × ColumnId) (list : List (α × ColumnId)) : List (α × ColumnId) :=
  list.filter fun y => compareAvailable x y != .eq

/-- The costs of the columns fixed to one, or the smallest cost that is still available. -/
def minimalContribution (p : ObjectivePartition α) (costs : Array α) : Checked α :=
  if !p.fixedToOne.isEmpty then do
    return Scalar.sum (← p.fixedToOne.mapM (fetch costs))
  else
    match p.available.head? with
    | some (cost, _) => .ok (Scalar.min cost 0)
    | none => .ok 0

end ObjectivePartition

/-- The minimal objective value over the current bounds, and the cutoff it is held against. -/
structure ObjectivePropagation (α : Type) where
  /-- The largest accepted value, without the constant part of the objective. -/
  cutoff : α
  costs : Array α
  /-- For every column the position of its partition. -/
  partitionOf : Array (Option Nat)
  partitions : Array (ObjectivePartition α)
  min : PartialSum α
  /-- Whether something changed since the last propagation. -/
  needsPropagation : Bool
  deriving Repr

namespace ObjectivePropagation

variable {α : Type} [Scalar α]

/-- Puts a column where it belongs in a partition, according to its bounds. -/
def placeInPartition (p : ObjectivePartition α) (c : ColumnId) (cost lower upper : α) :
    ObjectivePartition α :=
  if 1 ≤ lower then { p with fixedToOne := p.fixedToOne ++ [c] }
  else if 1 ≤ upper then
    { p with available := ObjectivePartition.insertAvailable (cost, c) p.available }
  else p

/-- Adds a column with its bounds to the minimal objective value. -/
def addColumn (o : ObjectivePropagation α) (c : ColumnId) (lower upper : α) :
    Checked (ObjectivePropagation α) := do
  let cost ← fetch o.costs c
  if cost == 0 then return o
  match ← fetch o.partitionOf c with
  | some index =>
    let partitions ← update o.partitions index fun p =>
      .ok (placeInPartition p c cost lower upper)
    return { o with partitions := partitions }
  | none =>
    return { o with min := o.min.addTerm cost (if 0 < cost then lower else upper) }

/-- Adds the contribution of a partition to the minimal objective value. -/
def addContribution (o : ObjectivePropagation α) (index : Nat) :
    Checked (ObjectivePropagation α) := do
  let p ← fetch o.partitions index
  let contribution ← p.minimalContribution o.costs
  return { o with
    partitions := ← store o.partitions index { p with contribution := contribution }
    min := { o.min with finite := o.min.finite.add contribution } }

/-- Computes everything anew from the bounds. -/
def recompute (o : ObjectivePropagation α) (lower upper : Array (Bound α)) :
    Checked (ObjectivePropagation α) := do
  let o := { o with min := .zero, partitions := o.partitions.map fun _ => .empty }
  let o ← (List.range o.costs.size).foldlM
    (fun o c => do o.addColumn c (← fetch lower c).value (← fetch upper c).value) o
  let o ← (List.range o.partitions.size).foldlM addContribution o
  return { o with needsPropagation := true }

/-- Whether the minimal objective value exceeds the cutoff. -/
def isViolated (o : ObjectivePropagation α) (feastol : α) : Bool := o.min.exceeds o.cutoff feastol

/-- The minimal objective value without the constant part. -/
def lowerBound (o : ObjectivePropagation α) : α := o.min.valueOr (-Scalar.infinity)

/-- The partition after a bound of one of its columns moved, if it concerns the partition at all:
a column counts as fixed to one from the lower bound one on, and as available from the upper bound
one on. -/
def movePartition? (p : ObjectivePartition α) (c : ColumnId) (side : Side) (cost old new : α) :
    Option (ObjectivePartition α) :=
  match side with
  | .lower =>
    if 1 ≤ new && old < 1 then some { p with fixedToOne := p.fixedToOne ++ [c] }
    else if new < 1 && 1 ≤ old then some { p with fixedToOne := p.fixedToOne.filter (· != c) }
    else none
  | .upper =>
    if new < 1 && 1 ≤ old then
      some { p with available := ObjectivePartition.removeAvailable (cost, c) p.available }
    else if 1 ≤ new && old < 1 then
      some { p with available := ObjectivePartition.insertAvailable (cost, c) p.available }
    else none

/-- Updates the minimal objective value after a bound moved. The flag says whether it was affected
and exceeds the cutoff now. -/
def boundMoved (o : ObjectivePropagation α) (c : ColumnId) (side : Side) (old new feastol : α) :
    Checked (Bool × ObjectivePropagation α) := do
  let cost ← fetch o.costs c
  if cost == 0 then return (false, o)
  match ← fetch o.partitionOf c with
  | some index =>
    let p ← fetch o.partitions index
    match movePartition? p c side cost old new with
    | none => return (false, o)
    | some moved =>
      let contribution ← moved.minimalContribution o.costs
      let o := { o with
        min := { o.min with finite := (o.min.finite.sub p.contribution).add contribution }
        partitions := ← store o.partitions index { moved with contribution := contribution }
        needsPropagation := true }
      return (o.isViolated feastol, o)
  | none =>
    if decide (0 < cost) != (side == .lower) then return (false, o)
    let o := { o with min := ← o.min.moveTerm cost old new, needsPropagation := true }
    return (o.isViolated feastol, o)

end ObjectivePropagation

end BranchBound
