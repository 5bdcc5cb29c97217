import BranchBound.Action
import BranchBound.Bisection
import BranchBound.Domain.Change

/-!
# Suspended boxes

The local part of a log can be reduced to the changes which still determine a bound. Applied to a
domain at the global level, the reduced changes lead to the same box. A node is suspended by
remembering its reduced changes and which of them are branching decisions.
-/

namespace BranchBound.Domain

variable {α : Type} [Scalar α]

/-- Whether the change at a position still determines its bound. -/
def isLatest (d : Domain α) (position : Nat) (entry : LogEntry α) : Bool :=
  match (d.bounds entry.change.side)[entry.change.column]? with
  | some bound => bound.position == some position
  | none => false

/-- The changes of the local part of the log which still determine a bound, and the positions of
the branching decisions among them. -/
def reducedStack (d : Domain α) : List (BoundChange α) × List Nat :=
  let local' := (d.log.toList.zipIdx.drop d.globalLength).filter fun (entry, position) =>
    d.isLatest position entry
  let branchings := local'.zipIdx.filterMap fun ((_, position), index) =>
    if d.branchings.contains position then some index else none
  (local'.map fun (entry, _) => entry.change, branchings)

/-- Applies the changes of a stack from an index onwards, until the domain is infeasible. The very
first one always opens a depth level, so that no change of the stack becomes global. The indices of
the branching decisions are increasing. -/
def applyStack (branchings : List Nat) (index : Nat) :
    List (BoundChange α) → Action (Domain α) Unit
  | [] => return
  | change :: rest => do
    if (← get).isInfeasible then return
    let reason : Reason :=
      if index == 0 || Bisection.contains branchings index then .branching else .unknown
    Action.change fun d => d.changeBound change reason
    applyStack branchings (index + 1) rest

/-- Replaces the local part of the log by the changes of a stack. -/
def setStack (changes : List (BoundChange α)) (branchings : List Nat) :
    Action (Domain α) Unit := do
  Action.change backtrackToGlobal
  applyStack branchings 0 changes

end BranchBound.Domain
