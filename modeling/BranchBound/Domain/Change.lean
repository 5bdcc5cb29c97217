import BranchBound.Domain.Basic

/-!
# Changing and restoring bounds

`Domain.changeBound` tightens one bound and `Domain.backtrackTo` undoes the end of the log. Both
go through `Domain.boundMoved`, which brings the activities of rows, cuts and the objective up to
date. A change that crosses the opposite bound by no more than the tolerance stops at that bound;
a change that crosses it further is logged and makes the domain infeasible.
-/

namespace BranchBound

namespace PartialSum

variable {α : Type} [Scalar α]

/-- Whether a sum without infinite terms falls short of a limit by more than a tolerance. -/
def fallsShort (s : PartialSum α) (limit tolerance : α) : Bool :=
  s.infinite == 0 && tolerance < limit - s.finite.value

end PartialSum

namespace Domain

variable {α : Type} [Scalar α]

/-- Records an infeasibility caused by a tightening; none is recorded while a change is undone. -/
def setInfeasibleAt (d : Domain α) (condition : Bool) (reason : Reason) (position : Option Nat) :
    Domain α :=
  match position with
  | some position => if condition then d.setInfeasible reason position else d
  | none => d

/-- Updates the activity of a row after a bound of a column with the given coefficient moved. The
row waits for its propagation if a side is affected on which at most one term is infinite. -/
def moveRowTerm (side : Side) (old new : α) (position : Option Nat) (d : Domain α)
    (occurrence : RowId × α) : Checked (Domain α) := do
  let (r, a) := occurrence
  let inMin := decide (0 < a) == (side == .lower)
  let activity ← (← fetch d.activities r).moveTerm inMin a old new
  let d := { d with activities := ← store d.activities r activity }
  let row ← d.model.row r
  if inMin then
    if row.upper < Scalar.infinity && activity.min.infinite ≤ 1 then
      (d.setInfeasibleAt (activity.min.exceeds row.upper d.feastol) (.rowUpper r)
        position).markRowDirty r
    else return d
  else
    if -Scalar.infinity < row.lower && activity.max.infinite ≤ 1 then
      (d.setInfeasibleAt (activity.max.fallsShort row.lower d.feastol) (.rowLower r)
        position).markRowDirty r
    else return d

/-- Updates the cuts of an attached pool after a bound moved. -/
def moveCutTerms (c : ColumnId) (side : Side) (old new : α) (position : Option Nat)
    (d : Domain α) (index : Nat) : Checked (Domain α) := do
  let (violated, propagation) ←
    (← fetch d.cutPropagations index).boundMoved c side old new d.feastol
  let d := { d with cutPropagations := ← store d.cutPropagations index propagation }
  return match violated with
    | some id => d.setInfeasibleAt true (.cut index id) position
    | none => d

/-- Updates the objective after a bound moved. -/
def moveObjectiveTerm (d : Domain α) (c : ColumnId) (side : Side) (old new : α)
    (position : Option Nat) : Checked (Domain α) := do
  match d.objective with
  | none => return d
  | some objective =>
    let (violated, objective) ← objective.boundMoved c side old new d.feastol
    return { d with objective := some objective }.setInfeasibleAt violated .objective position

/-- Brings everything up to date after a bound of a column moved. The position is that of the
change which tightened it, and absent when the bound was restored. -/
def boundMoved (d : Domain α) (c : ColumnId) (side : Side) (old new : α)
    (position : Option Nat) : Checked (Domain α) := do
  let d ← (← fetch d.model.occurrences c).foldlM (moveRowTerm side old new position) d
  let d ← (List.range d.cutPropagations.size).foldlM (moveCutTerms c side old new position) d
  let d ← match position with
    | none => pure d
    | some _ => do
      let propagations ← d.conflictPropagations.toList.mapM fun p => p.boundTightened c
      pure { d with conflictPropagations := propagations.toArray }
  d.moveObjectiveTerm c side old new position

/-- The value a change sets its bound to, and whether that crosses the opposite bound; nothing if
the change is to be ignored. A branching decision is never ignored, since it opens a depth level;
if it is not tighter than the current bound it repeats that bound. -/
def acceptedValue (side : Side) (feastol current opposite value : α) (isBranching : Bool) :
    Option (α × Bool) :=
  let stays := side.tightOrEqual current value
  if stays && !isBranching then none
  else
    let value := if stays then current else value
    if side.tighter value opposite then
      if side.advance value opposite ≤ feastol then
        if side.tightOrEqual current opposite && !isBranching then none
        else some (opposite, false)
      else some (value, true)
    else some (value, false)

/-- Logs a change and applies it. -/
def applyChange (d : Domain α) (change : BoundChange α) (reason : Reason) (crossing : Bool) :
    Checked (Domain α) := do
  let position := d.log.size
  let previous ← d.bound change.side change.column
  let d := d.setBounds change.side
    (← store (d.bounds change.side) change.column ⟨change.value, some position⟩)
  let d := { d with
    branchings := if reason == .branching then d.branchings.push position else d.branchings
    log := d.log.push ⟨change, reason, previous⟩ }
  let d := if crossing then d.setInfeasible (.conflictingBounds position) position else d
  if previous.value != change.value then
    let d ← d.boundMoved change.column change.side previous.value change.value (some position)
    d.markMoved change.column change.side
  else return d

/-- Tightens a bound. In an infeasible domain nothing happens. -/
def changeBound (d : Domain α) (change : BoundChange α) (reason : Reason) :
    Checked (Domain α) := do
  if d.isInfeasible then return d
  if d.columnCount ≤ change.column then throw (.columnOutOfRange change.column)
  let current ← d.boundValue change.side change.column
  let opposite ← d.boundValue change.side.opposite change.column
  match acceptedValue change.side d.feastol current opposite change.value
      (reason == .branching) with
  | none => return d
  | some (value, crossing) => d.applyChange { change with value := value } reason crossing

/-- Applies changes in order. -/
def changeBounds (d : Domain α) (changes : List (BoundChange α × Reason)) :
    Checked (Domain α) :=
  changes.foldlM (fun d (change, reason) => d.changeBound change reason) d

/-- Fixes a column by tightening both of its bounds. -/
def fixColumn (d : Domain α) (c : ColumnId) (value : α) (reason : Reason) :
    Checked (Domain α) := do
  let d ← if (← d.boundValue .lower c) < value then d.changeBound (.atLeast c value) reason
    else pure d
  if !d.isInfeasible && value < (← d.boundValue .upper c) then
    d.changeBound (.atMost c value) reason
  else return d

/-- Restores the bound that a log entry replaced. -/
def undo (d : Domain α) (entry : LogEntry α) : Checked (Domain α) := do
  let c := entry.change.column
  let side := entry.change.side
  let current ← d.boundValue side c
  let d := d.setBounds side (← store (d.bounds side) c entry.previous)
  if current != entry.previous.value then
    (← d.boundMoved c side current entry.previous.value none).markMoved c side
  else return d

/-- Undoes every change from a position of the log onwards, the last one first. An infeasibility
found from that position onwards is forgotten. -/
def backtrackTo (d : Domain α) (position : Nat) : Checked (Domain α) := do
  if d.log.size ≤ position then return d
  let undone := (d.log.toList.drop position).reverse
  let d := { d with
    log := d.log.take position
    branchings := d.branchings.filter (· < position) }
  let d ← undone.foldlM undo d
  return { d with
    infeasible := d.infeasible.filter fun i => i.position < position
    implicationCursor := min d.implicationCursor position }

/-- Undoes the deepest depth level and returns the decision which opened it; there is none at the
global level. -/
def backtrack (d : Domain α) : Checked (Option (BoundChange α) × Domain α) := do
  match d.branchings.back? with
  | none => return (none, d)
  | some position =>
    let entry ← fetch d.log position
    return (some entry.change, ← d.backtrackTo position)

/-- Undoes every depth level. -/
def backtrackToGlobal (d : Domain α) : Checked (Domain α) := d.backtrackTo d.globalLength

end Domain

end BranchBound
