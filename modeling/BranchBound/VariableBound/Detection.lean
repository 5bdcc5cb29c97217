import BranchBound.Domain.Basic

/-!
# Variable bounds from rows

A row over one binary and one other column is a pair of variable bounds: solved for the other
column, each of its sides is a line over the binary one. Bounds that the box implies anyway are
not recorded.
-/

namespace BranchBound.VariableBounds

variable {α : Type} [Scalar α]

/-- Records a bound of a column over another one, unless the box implies it for both values. The
other column has to be binary. The flag says whether anything changed. -/
def add (d : Domain α) (side : Side) (x y : ColumnId) (bound : VariableBound α) :
    Action (VariableBounds α) Bool := do
  if x == y then return false
  if !(← d.isBinary y) then return false
  let current ← d.boundValue side x
  if side.tightOrEqual current (bound.evaluate false) &&
      side.tightOrEqual current (bound.evaluate true) then
    return false
  record side x y bound

/-- Records the variable bounds of a column `x` with coefficient `a` over a column `y` with
coefficient `b` in a row: `a x + b y ≤ upper` gives `x ≤ (-b / a) y + upper / a` for a positive
`a`, and a lower bound for a negative one. -/
def detectInRow (d : Domain α) (row : Row α) (pair : (ColumnId × α) × (ColumnId × α)) :
    Action (VariableBounds α) Unit := do
  let ((x, a), (y, b)) := pair
  if a == 0 then return
  if ← d.isBinary x then return
  if !(← d.isBinary y) then return
  if row.upper < Scalar.infinity then
    let side := if 0 < a then Side.upper else Side.lower
    discard <| add d side x y ⟨-b / a, row.upper / a⟩
  if -Scalar.infinity < row.lower then
    let side := if 0 < a then Side.lower else Side.upper
    discard <| add d side x y ⟨-b / a, row.lower / a⟩

/-- Records the variable bounds of the rows with two entries. -/
def detectInRows (d : Domain α) : Action (VariableBounds α) Unit :=
  d.model.rows.toList.forM fun row =>
    match row.entries with
    | [first, second] => do
      detectInRow d row (first, second)
      detectInRow d row (second, first)
    | _ => return

/-- The variable bounds of the rows with two entries. -/
def detect (d : Domain α) : Checked (VariableBounds α) := do
  return (← (detectInRows d).finish (empty d.model.columnCount)).2

end BranchBound.VariableBounds
