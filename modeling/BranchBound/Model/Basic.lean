import BranchBound.Number.Scalar
import BranchBound.Fault

/-!
# Mixed-integer models

A model is the problem of minimising a linear objective over the points within the bounds of the
columns whose row activities lie within the sides of the rows, and whose integer columns have
integral values. Columns and rows are identified by their positions.

The matrix is stored twice: every row lists its entries by increasing column, and every column
lists its entries by increasing row. Propagation reads the rows, and a bound change finds the rows
it concerns through the columns.
-/

namespace BranchBound

/-- The position of a column in a model. -/
abbrev ColumnId := Nat

/-- The position of a row in a model. -/
abbrev RowId := Nat

/-- Whether a column has to take integral values. -/
inductive ColumnKind where
  | continuous
  | integer
  deriving DecidableEq, Repr

/-- A column of a model. -/
structure Column (α : Type) where
  cost : α
  lower : α
  upper : α
  kind : ColumnKind
  deriving Repr

/-- An integer column with the bounds zero and one. -/
def Column.binary {α : Type} [Scalar α] (cost : α) : Column α := ⟨cost, 0, 1, .integer⟩

/-- A row of a model, with its nonzero entries by increasing column. -/
structure Row (α : Type) where
  lower : α
  upper : α
  entries : List (ColumnId × α)
  deriving Repr

/-- A model. -/
structure Model (α : Type) where
  columns : Array (Column α)
  rows : Array (Row α)
  /-- For every column its entries by increasing row. -/
  occurrences : Array (List (RowId × α))
  /-- The constant part of the objective. -/
  offset : α
  /-- Whether every feasible point has an integral objective value. -/
  integralObjective : Bool
  deriving Repr

namespace Model

variable {α : Type} [Scalar α]

def columnCount (m : Model α) : Nat := m.columns.size

def rowCount (m : Model α) : Nat := m.rows.size

/-- The positions of the columns. -/
def columnIds (m : Model α) : List ColumnId := List.range m.columns.size

/-- The positions of the rows. -/
def rowIds (m : Model α) : List RowId := List.range m.rows.size

/-- The number of entries of all rows. -/
def nonzeroCount (m : Model α) : Nat := (m.rows.toList.flatMap (·.entries)).length

def column (m : Model α) (c : ColumnId) : Checked (Column α) := fetch m.columns c

def row (m : Model α) (r : RowId) : Checked (Row α) := fetch m.rows r

def isInteger (m : Model α) (c : ColumnId) : Checked Bool := do
  return (← m.column c).kind == .integer

/-- The integer columns. -/
def integerColumns (m : Model α) : List ColumnId :=
  m.columnIds.filter fun c => m.columns[c]?.any fun column => column.kind == .integer

/-- The objective value of a point. Missing values do not count. -/
def objectiveValue (m : Model α) (point : Array α) : α :=
  m.offset + Scalar.sum ((m.columns.toList.zip point.toList).map fun (column, x) => column.cost * x)

/-- The activity of a list of entries at a point. -/
def activity (entries : List (ColumnId × α)) (point : Array α) : Checked α := do
  let terms ← entries.mapM fun (c, a) => do return a * (← fetch point c)
  return Scalar.sum terms

/-- The activity of a row at a point. -/
def rowActivity (m : Model α) (r : RowId) (point : Array α) : Checked α := do
  activity (← m.row r).entries point

/-! ### Feasible points

Whether a point satisfies the bounds, the integrality conditions and the rows of a model, up to a
tolerance. Nothing becomes an incumbent without this check. -/

/-- Whether a value is finite, within the bounds of a column and integral if it has to be. -/
def columnAccepts (column : Column α) (x feastol : α) : Bool :=
  Scalar.isFinite x &&
    column.lower - feastol ≤ x &&
    x ≤ column.upper + feastol &&
    (column.kind != .integer || Scalar.isIntegral feastol x)

/-- Whether an activity is within the sides of a row. -/
def rowAccepts (row : Row α) (activity feastol : α) : Bool :=
  row.lower - feastol ≤ activity && activity ≤ row.upper + feastol

/-- Whether a point is feasible up to a tolerance. A point with too many or too few values is
not. -/
def check (m : Model α) (point : Array α) (feastol : α) : Bool :=
  if point.size != m.columnCount then false
  else
    (m.columns.toList.zip point.toList).all (fun (column, x) => columnAccepts column x feastol) &&
      m.rows.toList.all fun row =>
        match activity row.entries point with
        | .ok a => rowAccepts row a feastol
        | .error _ => false

end Model

end BranchBound
