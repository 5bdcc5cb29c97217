import BranchBound.Action
import BranchBound.Bound

/-!
# Variable bounds

A variable bound limits a column by a line over a binary column: `x ≤ a * y + b` or
`x ≥ a * y + b`. For each pair of columns at most one upper and one lower bound is kept, and every
binary column knows the columns which it bounds.
-/

namespace BranchBound

/-- The line `coefficient * y + constant` over a binary column `y`. -/
structure VariableBound (α : Type) where
  coefficient : α
  constant : α
  deriving Repr, DecidableEq

namespace VariableBound

variable {α : Type} [Scalar α]

/-- The value of the line at a value of the binary column. -/
def evaluate (b : VariableBound α) (value : Bool) : α :=
  if value then b.coefficient + b.constant else b.constant

/-- The line through its values at zero and at one. -/
def ofValues (atZero atOne : α) : VariableBound α := ⟨atOne - atZero, atZero⟩

def sameAs (a b : VariableBound α) : Bool :=
  a.coefficient == b.coefficient && a.constant == b.constant

end VariableBound

/-- The variable bounds of every column, listed with the binary columns they are over. -/
structure VariableBounds (α : Type) where
  /-- For every column its upper bounds. -/
  upper : Array (List (ColumnId × VariableBound α))
  /-- For every column its lower bounds. -/
  lower : Array (List (ColumnId × VariableBound α))
  /-- For every binary column the columns with a bound over it. -/
  boundedBy : Array (List ColumnId)
  deriving Repr

namespace VariableBounds

variable {α : Type} [Scalar α]

def empty (columnCount : Nat) : VariableBounds α :=
  ⟨Array.replicate columnCount [], Array.replicate columnCount [], Array.replicate columnCount []⟩

/-- The variable bounds of every column on a side. -/
def onSide (t : VariableBounds α) : Side → Array (List (ColumnId × VariableBound α))
  | .lower => t.lower
  | .upper => t.upper

def setSide (t : VariableBounds α) (side : Side)
    (lists : Array (List (ColumnId × VariableBound α))) : VariableBounds α :=
  match side with
  | .lower => { t with lower := lists }
  | .upper => { t with upper := lists }

/-- The tighter of two values for a bound on a side. -/
def tightest (side : Side) (a b : α) : α :=
  match side with
  | .lower => Scalar.max a b
  | .upper => Scalar.min a b

/-- The line with the tighter value of two lines at zero and at one. -/
def merge (side : Side) (a b : VariableBound α) : VariableBound α :=
  .ofValues (tightest side (a.evaluate false) (b.evaluate false))
    (tightest side (a.evaluate true) (b.evaluate true))

/-- Adds a bound over a binary column to a list, merged with the one that is there. The flag says
whether the list changed. -/
def mergeInto (side : Side) (y : ColumnId) (bound : VariableBound α) :
    List (ColumnId × VariableBound α) → Bool × List (ColumnId × VariableBound α)
  | [] => (true, [(y, bound)])
  | (y', existing) :: rest =>
    if y' == y then
      let merged := merge side existing bound
      (!merged.sameAs existing, (y', merged) :: rest)
    else
      let (changed, rest) := mergeInto side y bound rest
      (changed, (y', existing) :: rest)

/-- Lists a column under the binary column that bounds it. -/
def listUnder (t : VariableBounds α) (y x : ColumnId) : Checked (VariableBounds α) := do
  return { t with
    boundedBy := ← update t.boundedBy y fun columns =>
      .ok (if columns.contains x then columns else columns ++ [x]) }

/-- Records a bound of a column over a binary column, and lists it there afterwards. The flag says
whether anything changed. -/
def record (side : Side) (x y : ColumnId) (bound : VariableBound α) :
    Action (VariableBounds α) Bool := do
  let t ← get
  let (changed, list) := mergeInto side y bound (← fetch (t.onSide side) x)
  set (t.setSide side (← store (t.onSide side) x list))
  if changed then Action.change fun t => t.listUnder y x
  return changed

/-- The bounds of a list over a binary column, as changes of the bounded column. -/
def changesOver (side : Side) (x y : ColumnId) (value : Bool)
    (bounds : List (ColumnId × VariableBound α)) : List (BoundChange α) :=
  (bounds.filter fun (binary, _) => binary == y).map fun (_, bound) =>
    ⟨x, side, bound.evaluate value⟩

/-- The bounds on other columns which follow from the value of a binary column: for every column
it bounds, the upper bound before the lower one. -/
def impliedBy (t : VariableBounds α) (y : ColumnId) (value : Bool) :
    Checked (List (BoundChange α)) := do
  let changes ← (← fetch t.boundedBy y).mapM fun x => do
    return changesOver .upper x y value (← fetch t.upper x) ++
      changesOver .lower x y value (← fetch t.lower x)
  return changes.flatten

/-- Restates the bounds of a column after it was replaced by `scale * column + constant`. A
negative scale turns upper bounds into lower ones. -/
def transform (t : VariableBounds α) (c : ColumnId) (scale constant : α) :
    Checked (VariableBounds α) := do
  let restated := List.map fun (entry : ColumnId × VariableBound α) =>
    (entry.1, (⟨entry.2.coefficient / scale, (entry.2.constant - constant) / scale⟩ :
      VariableBound α))
  let upper := restated (← fetch t.upper c)
  let lower := restated (← fetch t.lower c)
  if scale < 0 then
    return { t with upper := ← store t.upper c lower, lower := ← store t.lower c upper }
  else
    return { t with upper := ← store t.upper c upper, lower := ← store t.lower c lower }

/-- Removes every bound over a binary column from the lists of a column. -/
def withoutBinary (t : VariableBounds α) (y x : ColumnId) : Checked (VariableBounds α) := do
  let others := List.filter fun (entry : ColumnId × VariableBound α) => entry.1 != y
  return { t with
    upper := ← update t.upper x fun list => .ok (others list)
    lower := ← update t.lower x fun list => .ok (others list) }

/-- Removes a column from those which a binary column bounds. -/
def withoutBounded (t : VariableBounds α) (x y : ColumnId) : Checked (VariableBounds α) := do
  return { t with
    boundedBy := ← update t.boundedBy y fun columns => .ok (columns.filter (· != x)) }

/-- Removes every bound which involves a column that was substituted out: first those over it, then
those on it, and last its entries under other columns. -/
def substitute (c : ColumnId) : Action (VariableBounds α) Unit := do
  let bounded ← fetch (← get).boundedBy c
  Action.change fun t => return { t with boundedBy := ← store t.boundedBy c [] }
  bounded.forM fun x => Action.change fun t => t.withoutBinary c x
  let t ← get
  let binaries := ((← fetch t.upper c) ++ (← fetch t.lower c)).map Prod.fst
  set { t with upper := ← store t.upper c [], lower := ← store t.lower c [] }
  binaries.forM fun y => Action.change fun t => t.withoutBounded c y

end VariableBounds

end BranchBound
