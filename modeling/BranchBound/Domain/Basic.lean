import BranchBound.Clique.Table
import BranchBound.Domain.ConflictPropagation
import BranchBound.Domain.ObjectivePropagation
import BranchBound.VariableBound.Table

/-!
# Domains

A domain is a box: the current lower and upper bounds of every column, together with the log of
changes that led to them and everything that propagation keeps up to date with the bounds. Bounds
only become tighter by changes, which are appended to the log, and only become weaker by undoing
the end of the log. Every branching decision opens a depth level; the part of the log before the
first of them is global and holds in every node of a search.
-/

namespace BranchBound

/-- An entry of the change log: the change with its reason, and the bound it replaced. -/
structure LogEntry (α : Type) where
  change : BoundChange α
  reason : Reason
  previous : Bound α
  deriving Repr

/-- Why a domain is infeasible. The position is that of the change that made it so, or the length
of the log if it was found without a change. -/
structure Infeasibility where
  reason : Reason
  position : Nat
  deriving DecidableEq, Repr

/-- Which bounds of a column moved. -/
structure MovedSides where
  lower : Bool
  upper : Bool
  deriving DecidableEq, Repr

namespace MovedSides

def none : MovedSides := ⟨false, false⟩

def insert (m : MovedSides) : Side → MovedSides
  | .lower => { m with lower := true }
  | .upper => { m with upper := true }

def isEmpty (m : MovedSides) : Bool := !m.lower && !m.upper

/-- The letters of the sides that moved. -/
def text (m : MovedSides) : String := (if m.lower then "L" else "") ++ (if m.upper then "U" else "")

end MovedSides

/-- The bounds of every column with the log of changes and the state of propagation. -/
structure Domain (α : Type) where
  model : Model α
  /-- The amount by which bounds and rows may be violated. -/
  feastol : α
  lower : Array (Bound α)
  upper : Array (Bound α)
  log : Array (LogEntry α)
  /-- The positions of the branching decisions in the log, one per depth level. -/
  branchings : Array Nat
  activities : Array (Activity α)
  /-- The rows that wait for their propagation. -/
  waitingRows : List RowId
  rowDirty : Array Bool
  movedSides : Array MovedSides
  /-- The columns with a bound that moved since the last reset. -/
  movedColumns : List ColumnId
  /-- Cliques and variable bounds were applied to the log up to here. -/
  implicationCursor : Nat
  infeasible : Option Infeasibility
  cutPropagations : Array (CutPropagation α)
  conflictPropagations : Array (ConflictPropagation α)
  objective : Option (ObjectivePropagation α)
  cliques : Option CliqueTable
  variableBounds : Option (VariableBounds α)
  deriving Repr

namespace Domain

variable {α : Type} [Scalar α]

def columnCount (d : Domain α) : Nat := d.lower.size

/-- The bounds of every column on a side. -/
def bounds (d : Domain α) : Side → Array (Bound α)
  | .lower => d.lower
  | .upper => d.upper

def setBounds (d : Domain α) (side : Side) (bounds : Array (Bound α)) : Domain α :=
  match side with
  | .lower => { d with lower := bounds }
  | .upper => { d with upper := bounds }

/-- A bound of a column. -/
def bound (d : Domain α) (side : Side) (c : ColumnId) : Checked (Bound α) := fetch (d.bounds side) c

/-- The value of a bound of a column. -/
def boundValue (d : Domain α) (side : Side) (c : ColumnId) : Checked α := do
  return (← d.bound side c).value

/-- The values of the lower bounds. -/
def lowerValues (d : Domain α) : Array α := d.lower.map Bound.value

/-- The values of the upper bounds. -/
def upperValues (d : Domain α) : Array α := d.upper.map Bound.value

def isFixed (d : Domain α) (c : ColumnId) : Checked Bool := do
  return (← d.boundValue .lower c) == (← d.boundValue .upper c)

/-- Whether a column is an integer column whose model bounds are within zero and one. -/
def isBinary (d : Domain α) (c : ColumnId) : Checked Bool := do
  let column ← d.model.column c
  return column.kind == .integer && 0 ≤ column.lower && column.upper ≤ 1

def isInfeasible (d : Domain α) : Bool := d.infeasible.isSome

/-- Records an infeasibility, unless there is one already. -/
def setInfeasible (d : Domain α) (reason : Reason) (position : Nat) : Domain α :=
  match d.infeasible with
  | some _ => d
  | none => { d with infeasible := some ⟨reason, position⟩ }

/-- Records an infeasibility found in the present state. -/
def markInfeasible (d : Domain α) (reason : Reason) : Domain α :=
  d.setInfeasible reason d.log.size

/-- The number of depth levels. -/
def depth (d : Domain α) : Nat := d.branchings.size

def isAtGlobal (d : Domain α) : Bool := d.branchings.isEmpty

/-- The length of the part of the log which holds in every node. -/
def globalLength (d : Domain α) : Nat := d.branchings[0]?.getD d.log.size

/-- Makes a row wait for its propagation, if it does not do so already. -/
def markRowDirty (d : Domain α) (r : RowId) : Checked (Domain α) := do
  if ← fetch d.rowDirty r then return d
  else
    return { d with rowDirty := ← store d.rowDirty r true, waitingRows := d.waitingRows ++ [r] }

/-- Computes the activity of a row from the bounds. -/
def refreshActivity (d : Domain α) (r : RowId) : Checked (Domain α) := do
  let activity ← (← d.model.row r).entries.foldlM
    (fun (activity : Activity α) (c, a) => do
      return activity.addTerm a (← d.boundValue .lower c) (← d.boundValue .upper c)) .zero
  return { d with activities := ← store d.activities r activity }

/-- Computes every activity from the bounds and makes every row wait for its propagation. -/
def refreshActivities (d : Domain α) : Checked (Domain α) := do
  let d ← d.model.rowIds.foldlM (fun d r => do (← d.refreshActivity r).markRowDirty r) d
  match d.objective with
  | none => return d
  | some objective => return { d with objective := some (← objective.recompute d.lower d.upper) }

/-- The domain of the bounds of a model, with every row waiting for its propagation. -/
def ofModel (model : Model α) (feastol : α) : Checked (Domain α) :=
  refreshActivities
    { model := model
      feastol := feastol
      lower := model.columns.map fun column => ⟨column.lower, none⟩
      upper := model.columns.map fun column => ⟨column.upper, none⟩
      log := #[]
      branchings := #[]
      activities := model.rows.map fun _ => .zero
      waitingRows := []
      rowDirty := model.rows.map fun _ => false
      movedSides := model.columns.map fun _ => .none
      movedColumns := []
      implicationCursor := 0
      infeasible := none
      cutPropagations := #[]
      conflictPropagations := #[]
      objective := none
      cliques := none
      variableBounds := none }

/-- Attaches a cut pool, whose cuts are propagated from then on. Returns the position under which
reasons refer to it. -/
def attachCuts (d : Domain α) (pool : Nat) : Nat × Domain α :=
  (d.cutPropagations.size,
    { d with cutPropagations := d.cutPropagations.push (.ofPool pool d.columnCount) })

/-- Attaches a conflict pool. Returns the position under which reasons refer to it. -/
def attachConflicts (d : Domain α) (pool : Nat) : Nat × Domain α :=
  (d.conflictPropagations.size,
    { d with conflictPropagations := d.conflictPropagations.push (.ofPool pool d.columnCount) })

/-- Propagates the cliques of a table from then on, starting with the whole log. -/
def setCliques (d : Domain α) (cliques : CliqueTable) : Domain α :=
  { d with cliques := some cliques, implicationCursor := 0 }

/-- Propagates variable bounds from then on, starting with the whole log. -/
def setVariableBounds (d : Domain α) (bounds : VariableBounds α) : Domain α :=
  { d with variableBounds := some bounds, implicationCursor := 0 }

/-- The minimal activity of a row with the number of infinite terms. -/
def minActivity (d : Domain α) (r : RowId) : Checked (α × Nat) := do
  let min := (← fetch d.activities r).min
  return (min.valueOr (-Scalar.infinity), min.infinite)

/-- The maximal activity of a row with the number of infinite terms. -/
def maxActivity (d : Domain α) (r : RowId) : Checked (α × Nat) := do
  let max := (← fetch d.activities r).max
  return (max.valueOr Scalar.infinity, max.infinite)

/-- The columns with a bound that moved since the last reset, with the bounds that did. -/
def moved (d : Domain α) : List (ColumnId × MovedSides) :=
  d.movedColumns.map fun c => (c, (d.movedSides[c]?).getD .none)

/-- Forgets which bounds moved. -/
def clearMoved (d : Domain α) : Domain α :=
  { d with
    movedSides := d.movedColumns.foldl (fun sides c => sides.setIfInBounds c .none) d.movedSides
    movedColumns := [] }

/-- Records that a bound of a column moved. -/
def markMoved (d : Domain α) (c : ColumnId) (side : Side) : Checked (Domain α) := do
  let sides ← fetch d.movedSides c
  return { d with
    movedSides := ← store d.movedSides c (sides.insert side)
    movedColumns := if sides.isEmpty then d.movedColumns ++ [c] else d.movedColumns }

/-- The cut behind a reason, as this domain sees it; a cut it has not read yet comes from the
pool. -/
def cutBehind (d : Domain α) (pools : Array (CutPool α)) (pool : Nat) (id : CutId) :
    Option (Inequality α) := do
  let propagation ← d.cutPropagations[pool]?
  match propagation.cuts.get? id with
  | some known => some known.cut
  | none => (← pools[propagation.pool]?).get? id

/-- The literals of the conflict behind a reason, as this domain sees it. -/
def conflictBehind (d : Domain α) (pools : Array (ConflictPool α)) (pool : Nat)
    (id : ConflictId) : Option (List (BoundChange α)) := do
  let propagation ← d.conflictPropagations[pool]?
  match propagation.conflicts.get? id with
  | some known => some known.literals
  | none => (← pools[propagation.pool]?).get? id

end Domain

end BranchBound
