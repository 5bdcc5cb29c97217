import BranchBound.Domain.Basic

/-!
# Bounds of the past and literals

Every log entry remembers the bound it replaced and the position of the change which had set that
bound. Following these positions backwards gives the bounds at any earlier moment without undoing
anything.
-/

namespace BranchBound

/-- A bound before the changes at a position and after it, found by following the log entries that
set it. No more steps are needed than the log has entries. -/
def Bound.before {α : Type} (log : Array (LogEntry α)) (position : Nat) : Nat → Bound α → Bound α
  | 0, b => b
  | steps + 1, b =>
    match b.position with
    | none => b
    | some p =>
      if p < position then b
      else
        match log[p]? with
        | none => b
        | some entry => before log position steps entry.previous

namespace Domain

variable {α : Type} [Scalar α]

/-- A bound of a column when the log had the given length. -/
def boundBefore (d : Domain α) (side : Side) (c : ColumnId) (position : Nat) :
    Checked (Bound α) := do
  return (← d.bound side c).before d.log position d.log.size

/-- Whether a column is fixed by the changes which hold in every node. -/
def isGloballyFixed (d : Domain α) (c : ColumnId) : Checked Bool := do
  let position := d.globalLength
  return (← d.boundBefore .lower c position).value == (← d.boundBefore .upper c position).value

/-- Whether a literal holds. -/
def isActive (d : Domain α) (literal : BoundChange α) : Checked Bool := do
  return literal.holdsFor (← d.boundValue literal.side literal.column)

/-- Whether applying a change would fix its column. -/
def isFixing (d : Domain α) (change : BoundChange α) : Checked Bool := do
  return (← d.boundValue change.side.opposite change.column) == change.value

/-- The negation of a literal. For an integer column it is the next integral bound on the other
side; for a continuous column the value itself remains. -/
def flip (d : Domain α) (literal : BoundChange α) : Checked (BoundChange α) := do
  let integral ← d.model.isInteger literal.column
  return match literal.side with
    | .lower =>
      .atMost literal.column (if integral then Scalar.floor (literal.value - 0.5) else
        literal.value)
    | .upper =>
      .atLeast literal.column (if integral then Scalar.ceil (literal.value + 0.5) else
        literal.value)

end Domain

end BranchBound
