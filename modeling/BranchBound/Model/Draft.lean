import BranchBound.Model.Basic
import BranchBound.Decimal

/-!
# Drafts of models

A draft collects columns and rows as they are given. `Draft.build` turns it into a model or
reports the first defect. A built model holds only usable numbers: costs and coefficients are
finite, bounds and sides are ordered, integer columns have integral bounds, and every row lists
each column at most once and no zero coefficient.
-/

namespace BranchBound

/-- The first defect of a draft. -/
inductive ModelError (α : Type) where
  | invertedColumnBounds (column : ColumnId) (lower upper : α)
  | invertedRowBounds (row : RowId) (lower upper : α)
  | invalidColumnBound (column : ColumnId) (value : α)
  | nonFiniteCost (column : ColumnId)
  | nonFiniteCoefficient (row : RowId) (column : ColumnId)
  | columnOutOfRange (row : RowId) (column : ColumnId) (columnCount : Nat)
  deriving Repr

namespace ModelError

/-- The message of a defect. -/
def message : ModelError Float → String
  | invertedColumnBounds column lower upper =>
    s!"column {column} has lower bound {Decimal.text lower} which exceeds its upper bound " ++
      Decimal.text upper
  | invertedRowBounds row lower upper =>
    s!"row {row} has lower bound {Decimal.text lower} which exceeds its upper bound " ++
      Decimal.text upper
  | invalidColumnBound column value =>
    s!"column {column} has an invalid bound {Decimal.text value}"
  | nonFiniteCost column => s!"column {column} has a non-finite objective coefficient"
  | nonFiniteCoefficient row column =>
    s!"row {row} has a non-finite coefficient for column {column}"
  | columnOutOfRange row column columnCount =>
    s!"row {row} refers to column {column} but the model has {columnCount} columns"

end ModelError

/-- The columns and rows of a model to be built. -/
structure Draft (α : Type) where
  columns : Array (Column α)
  rows : Array (Row α)
  offset : α
  deriving Repr

namespace Draft

variable {α : Type} [Scalar α]

def empty : Draft α := ⟨#[], #[], 0⟩

/-- Adds a column and returns its position. -/
def addColumn (d : Draft α) (column : Column α) : ColumnId × Draft α :=
  (d.columns.size, { d with columns := d.columns.push column })

/-- Adds a row and returns its position. Entries may be in any order and repeat columns. -/
def addRow (d : Draft α) (row : Row α) : RowId × Draft α :=
  (d.rows.size, { d with rows := d.rows.push row })

/-- Adds columns in order and returns their positions. -/
def addColumns (d : Draft α) : List (Column α) → List ColumnId × Draft α
  | [] => ([], d)
  | column :: rest =>
    let (c, d) := d.addColumn column
    let (others, d) := addColumns d rest
    (c :: others, d)

/-- Adds rows in order and returns their positions. -/
def addRows (d : Draft α) : List (Row α) → List RowId × Draft α
  | [] => ([], d)
  | row :: rest =>
    let (r, d) := d.addRow row
    let (others, d) := addRows d rest
    (r :: others, d)

/-- The distance up to which a number counts as integral while a model is built. -/
def integralityTolerance : α := 1e-9

/-- A checked column; bounds of integer columns are rounded inwards. -/
def checkColumn (c : ColumnId) (column : Column α) : Except (ModelError α) (Column α) :=
  if !Scalar.isFinite column.cost then .error (.nonFiniteCost c)
  else if Scalar.isNaN column.lower then .error (.invalidColumnBound c column.lower)
  else if Scalar.isNaN column.upper then .error (.invalidColumnBound c column.upper)
  else if column.lower == Scalar.infinity then .error (.invalidColumnBound c column.lower)
  else if column.upper == -Scalar.infinity then .error (.invalidColumnBound c column.upper)
  else
    let rounded := match column.kind with
      | .integer =>
        { column with
          lower := Scalar.ceil (column.lower - integralityTolerance)
          upper := Scalar.floor (column.upper + integralityTolerance) }
      | .continuous => column
    if rounded.upper < rounded.lower then
      .error (.invertedColumnBounds c column.lower column.upper)
    else .ok rounded

/-- Adds a coefficient to a list of entries by increasing column. -/
def addEntry (c : ColumnId) (a : α) : List (ColumnId × α) → List (ColumnId × α)
  | [] => [(c, 0 + a)]
  | (c', a') :: rest =>
    if c < c' then (c, 0 + a) :: (c', a') :: rest
    else if c == c' then (c', a' + a) :: rest
    else (c', a') :: addEntry c a rest

/-- The entries of a row with the coefficients of each column summed in the given order. -/
def mergeEntries (r : RowId) (columnCount : Nat) (merged : List (ColumnId × α)) :
    List (ColumnId × α) → Except (ModelError α) (List (ColumnId × α))
  | [] => .ok merged
  | (c, a) :: rest =>
    if columnCount ≤ c then .error (.columnOutOfRange r c columnCount)
    else if !Scalar.isFinite a then .error (.nonFiniteCoefficient r c)
    else mergeEntries r columnCount (addEntry c a merged) rest

/-- A checked row with merged entries and without zero coefficients. -/
def checkRow (columnCount : Nat) (r : RowId) (row : Row α) : Except (ModelError α) (Row α) :=
  if row.upper < row.lower || Scalar.isNaN row.lower || Scalar.isNaN row.upper then
    .error (.invertedRowBounds r row.lower row.upper)
  else do
    let merged ← mergeEntries r columnCount [] row.entries
    return { row with entries := merged.filter fun (_, a) => a != 0 }

/-- Applies a check to every element together with its position, up to the first failure. -/
def checkAll {β ε : Type} (check : Nat → β → Except ε β) (position : Nat) :
    List β → Except ε (List β)
  | [] => .ok []
  | x :: xs => do
    let y ← check position x
    let ys ← checkAll check (position + 1) xs
    return y :: ys

/-! ### The column-wise copy of the matrix

The entries are sorted by column in one pass over the rows. They are counted first, which gives
every column a segment of a table behind those of the columns before it; then every entry goes to
the next free slot of its column. -/

/-- The entries of the rows with their columns and the positions of the rows, which are counted
from a start. -/
def placed (rows : List (Row α)) (start : Nat) : List (ColumnId × RowId × α) :=
  (rows.zipIdx start).flatMap fun item => item.1.entries.map fun e => (e.1, item.2, e.2)

/-- The number of entries of every column. -/
def columnCounts (columnCount : Nat) (entries : List (ColumnId × RowId × α)) : Array Nat :=
  entries.foldl (fun counts x => counts.modify x.1 (· + 1)) (Array.replicate columnCount 0)

/-- Where segments of the given lengths start when they follow each other, and where the last one
ends. -/
def segmentStarts (start : Nat) : List Nat → List Nat
  | [] => [start]
  | count :: counts => start :: segmentStarts (start + count) counts

/-- A table of entries while it is filled, with the next free slot of every column. -/
structure Filling (α : Type) where
  next : Array Nat
  slots : Array (RowId × α)

/-- Puts an entry into the next free slot of its column. -/
def Filling.put (t : Filling α) (x : ColumnId × RowId × α) : Filling α :=
  let slot := t.next.getD x.1 0
  ⟨t.next.modify x.1 (· + 1), t.slots.setIfInBounds slot x.2⟩

/-- The entries of the rows sorted by column: every row adds its entries behind those of the rows
before it. -/
def transpose (columnCount : Nat) (rows : List (Row α)) : Array (List (RowId × α)) :=
  let entries := placed rows 0
  let starts := (segmentStarts 0 (columnCounts columnCount entries).toList).toArray
  let filled := entries.foldl Filling.put ⟨starts, Array.replicate entries.length (0, 0)⟩
  (Array.range columnCount).map fun c =>
    (filled.slots.extract (starts.getD c 0) (starts.getD (c + 1) 0)).toList

/-- Whether a constant and the costs of the columns make every objective value integral. -/
def hasIntegralObjective (offset : α) (columns : List (Column α)) : Bool :=
  Scalar.isIntegral integralityTolerance offset &&
    columns.all fun column =>
      column.cost == 0 ||
        (column.kind == .integer && Scalar.isIntegral integralityTolerance column.cost)

/-- The model of a draft, or its first defect. -/
def build (d : Draft α) : Except (ModelError α) (Model α) := do
  let columns ← checkAll checkColumn 0 d.columns.toList
  let rows ← checkAll (checkRow columns.length) 0 d.rows.toList
  return { columns := columns.toArray
           rows := rows.toArray
           occurrences := transpose columns.length rows
           offset := d.offset
           integralObjective := hasIntegralObjective d.offset columns }

end Draft

end BranchBound
