import BranchBound.Domain.Basic

/-!
# Bounds implied by linear constraints

From `Σ a x ≤ rhs` and the minimal activity of the other terms follows a bound on every column.
Not every implied bound is worth a change of the box: bounds of integer columns are rounded and
have to move by more than the tolerance, and bounds of continuous columns have to cut off a good
part of the box. That keeps propagation from creeping.
-/

namespace BranchBound.Domain

variable {α : Type} [Scalar α]

/-- The part of the box by which a bound of a continuous column has to shrink it. -/
def minRelativeImprovement : α := 0.3

/-- Implied values closer to the opposite bound than this are moved onto it. -/
def boundEpsilon : α := 1e-9

/-- The upper bound to use when one is implied for a column with the given bounds, if it is worth
a change. -/
def acceptedUpper (kind : ColumnKind) (feastol lower upper : α) (bound : CompensatedSum α) :
    Option α :=
  match kind with
  | .integer =>
    let value := Scalar.floor (bound.add feastol).value
    if value < upper && 1000 * feastol * Scalar.max (Scalar.abs value) 1 < upper - value then
      some value
    else none
  | .continuous =>
    let implied := bound.value
    let value := if Scalar.abs (implied - lower) ≤ boundEpsilon then lower else implied
    if upper == Scalar.infinity then
      if Scalar.isFinite value then some value else none
    else if upper ≤ value + 1000 * feastol then none
    else
      let width :=
        if -Scalar.infinity < lower then upper - lower
        else Scalar.max (Scalar.abs upper) (Scalar.abs value)
      if minRelativeImprovement ≤ (upper - value) / width then some value else none

/-- The lower bound to use when one is implied for a column with the given bounds, if it is worth
a change. -/
def acceptedLower (kind : ColumnKind) (feastol lower upper : α) (bound : CompensatedSum α) :
    Option α :=
  match kind with
  | .integer =>
    let value := Scalar.ceil (bound.sub feastol).value
    if lower < value && 1000 * feastol * Scalar.max (Scalar.abs value) 1 < value - lower then
      some value
    else none
  | .continuous =>
    let implied := bound.value
    let value := if Scalar.abs (implied - upper) ≤ boundEpsilon then upper else implied
    if lower == -Scalar.infinity then
      if Scalar.isFinite value then some value else none
    else if value - 1000 * feastol ≤ lower then none
    else
      let width :=
        if upper < Scalar.infinity then upper - lower
        else Scalar.max (Scalar.abs lower) (Scalar.abs value)
      if minRelativeImprovement ≤ (value - lower) / width then some value else none

/-- The bound to use when one is implied for a column, if it is worth a change. -/
def acceptedBound (d : Domain α) (side : Side) (c : ColumnId) (bound : CompensatedSum α) :
    Checked (Option (BoundChange α)) := do
  let upper ← d.boundValue .upper c
  let lower ← d.boundValue .lower c
  let kind := (← d.model.column c).kind
  let value := match side with
    | .lower => acceptedLower kind d.feastol lower upper bound
    | .upper => acceptedUpper kind d.feastol lower upper bound
  return value.map fun v => ⟨c, side, v⟩

/-- The finite part of a minimal activity without the term of one column, whose bound is given.
It is known if no other term is infinite. -/
def residual? (min : PartialSum α) (coefficient bound : α) : Option (CompensatedSum α) :=
  if Scalar.isInfinite bound then
    if min.infinite == 1 then some min.finite else none
  else
    if min.infinite == 0 then some (min.finite.subSum (.product coefficient bound)) else none

/-- The change which `Σ a x ≤ rhs` implies for one of its entries, if it is worth a change. The
minimal activity is that of the whole left-hand side. -/
def impliedChange (d : Domain α) (rhs : α) (min : PartialSum α) (entry : ColumnId × α) :
    Checked (Option (BoundChange α)) := do
  let (c, a) := entry
  match residual? min a (← d.boundValue (if 0 < a then .lower else .upper) c) with
  | none => return none
  | some residual =>
    let bound := ((CompensatedSum.ofScalar rhs).subSum residual).div a
    d.acceptedBound (if 0 < a then .upper else .lower) c bound

/-- The changes which `Σ a x ≤ rhs` implies for its entries. -/
def impliedChanges (d : Domain α) (rhs : α) (min : PartialSum α) (entries : List (ColumnId × α)) :
    Checked (List (BoundChange α)) :=
  collect (d.impliedChange rhs min) entries

end BranchBound.Domain
