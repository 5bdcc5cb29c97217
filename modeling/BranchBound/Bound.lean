import BranchBound.Model.Basic

/-!
# Bounds and changes of bounds

A bound change `x ≥ v` or `x ≤ v` is at the same time a decision of the search, a consequence
found by propagation, and a literal of a learned conflict. Lower and upper bounds behave alike up
to the direction of the order, so what can be said for both is said once for a `Side`.
-/

namespace BranchBound

/-- One of the two bounds of a column. -/
inductive Side where
  | lower
  | upper
  deriving DecidableEq, Repr

namespace Side

def opposite : Side → Side
  | lower => upper
  | upper => lower

variable {α : Type} [Scalar α]

/-- Whether bound `a` is at least as tight as bound `b`. -/
def tightOrEqual (side : Side) (a b : α) : Bool :=
  match side with
  | lower => b ≤ a
  | upper => a ≤ b

/-- Whether bound `a` is tighter than bound `b`. -/
def tighter (side : Side) (a b : α) : Bool :=
  match side with
  | lower => b < a
  | upper => a < b

/-- How much tighter bound `a` is than `b`. -/
def advance (side : Side) (a b : α) : α :=
  match side with
  | lower => a - b
  | upper => b - a

end Side

/-- The change `column ≥ value` or `column ≤ value`. Read as a literal, it holds when the bound
of the column is at least as tight. -/
structure BoundChange (α : Type) where
  column : ColumnId
  side : Side
  value : α
  deriving Repr

namespace BoundChange

variable {α : Type} [Scalar α]

def atLeast (c : ColumnId) (v : α) : BoundChange α := ⟨c, .lower, v⟩

def atMost (c : ColumnId) (v : α) : BoundChange α := ⟨c, .upper, v⟩

/-- The literal `column = 1` or `column = 0` of a binary column. -/
def fixing (c : ColumnId) (value : Bool) : BoundChange α :=
  if value then atLeast c 1 else atMost c 0

/-- Whether the change holds when its column has the given bound on its side. -/
def holdsFor (change : BoundChange α) (bound : α) : Bool :=
  change.side.tightOrEqual bound change.value

/-- Whether two changes concern the same bound with numerically equal values. -/
def sameAs (a b : BoundChange α) : Bool :=
  a.column == b.column && a.side == b.side && a.value == b.value

/-- The order of literals in a stored conflict: by column, lower bounds first, by value. -/
def storedBefore (a b : BoundChange α) : Bool :=
  if a.column != b.column then a.column < b.column
  else if a.side != b.side then a.side == .lower
  else Scalar.totalOrder a.value b.value != .gt

end BoundChange

/-- A bound of a column, with the position of the change that set it; the bounds of the model have
none. -/
structure Bound (α : Type) where
  value : α
  position : Option Nat
  deriving Repr

/-- Why a bound was changed, or why a domain became infeasible. Pools are identified by the
position at which they were attached to the domain. -/
inductive Reason where
  /-- A decision of the search, which opens a depth level. -/
  | branching
  /-- A change without an explanation. -/
  | unknown
  /-- The upper side of a row. -/
  | rowUpper (row : RowId)
  /-- The lower side of a row. -/
  | rowLower (row : RowId)
  /-- A clique, because the column has the given value. -/
  | clique (column : ColumnId) (value : Bool)
  /-- A variable bound, because the column has the given value. -/
  | variableBound (column : ColumnId) (value : Bool)
  /-- A cut of an attached pool. -/
  | cut (pool : Nat) (cut : Nat)
  /-- A conflict of an attached pool. -/
  | conflict (pool : Nat) (conflict : Nat)
  /-- The change at a position of the log crossed the opposite bound. -/
  | conflictingBounds (position : Nat)
  /-- The objective cutoff. -/
  | objective
  deriving DecidableEq, Repr

namespace Reason

/-- Whether a change with this reason can be replaced by the changes it follows from. -/
def isResolvable : Reason → Bool
  | branching | unknown | conflictingBounds _ => false
  | _ => true

end Reason

end BranchBound
