import BranchBound.Number.CompensatedSum
import BranchBound.Fault

/-!
# Activities of linear expressions

The minimal activity of `Σ a x` over a box takes every column at the bound that makes its term
small. A term with an infinite bound is counted instead of summed, so the finite part stays finite
and the number of infinite terms is known exactly. A `PartialSum` is such a sum; it is updated
when a bound moves, and with exact numbers it always equals the sum computed anew.
-/

namespace BranchBound

/-- The finite part of a sum and the number of its infinite terms. -/
structure PartialSum (α : Type) where
  finite : CompensatedSum α
  infinite : Nat
  deriving Repr

namespace PartialSum

variable {α : Type} [Scalar α]

def zero : PartialSum α := ⟨.zero, 0⟩

instance : Inhabited (PartialSum α) := ⟨zero⟩

/-- The sum with the sign of its finite part changed. -/
def neg (s : PartialSum α) : PartialSum α := { s with finite := s.finite.neg }

/-- Adds the term of a coefficient and a bound. -/
def addTerm (s : PartialSum α) (coefficient bound : α) : PartialSum α :=
  if Scalar.isInfinite bound then { s with infinite := s.infinite + 1 }
  else { s with finite := s.finite.addSum (.product coefficient bound) }

/-- Replaces the term of a coefficient when its bound moves. -/
def moveTerm (s : PartialSum α) (coefficient old new : α) : Checked (PartialSum α) :=
  match Scalar.isInfinite old, Scalar.isInfinite new with
  | true, true => .ok s
  | true, false => do
    return ⟨s.finite.addSum (.product coefficient new), ← uncount s.infinite 1⟩
  | false, true => .ok ⟨s.finite.subSum (.product coefficient old), s.infinite + 1⟩
  | false, false =>
    .ok { s with
      finite := (s.finite.addSum (.product coefficient new)).subSum (.product coefficient old) }

/-- The value of a sum without infinite terms, and the given infinity otherwise. -/
def valueOr (s : PartialSum α) (infinity : α) : α :=
  if 0 < s.infinite then infinity else s.finite.value

/-- Whether a sum without infinite terms exceeds a limit by more than a tolerance. -/
def exceeds (s : PartialSum α) (limit tolerance : α) : Bool :=
  s.infinite == 0 && tolerance < s.finite.value - limit

end PartialSum

/-- The minimal and the maximal activity of a linear expression over the current bounds. -/
structure Activity (α : Type) where
  min : PartialSum α
  max : PartialSum α
  /-- The number of updates since the activity was last computed from the bounds. -/
  updates : Nat
  deriving Repr

namespace Activity

variable {α : Type} [Scalar α]

/-- After more updates than this an activity is computed anew before it is used. -/
def refreshInterval : Nat := 2048

def zero : Activity α := ⟨.zero, .zero, 0⟩

instance : Inhabited (Activity α) := ⟨zero⟩

/-- Adds a term with the bounds of its column. -/
def addTerm (a : Activity α) (coefficient lower upper : α) : Activity α :=
  if 0 < coefficient then
    { a with min := a.min.addTerm coefficient lower, max := a.max.addTerm coefficient upper }
  else
    { a with min := a.min.addTerm coefficient upper, max := a.max.addTerm coefficient lower }

/-- The activity after a bound moved which enters the minimal activity, if `inMin` holds, and the
maximal one otherwise. -/
def moveTerm (a : Activity α) (inMin : Bool) (coefficient old new : α) :
    Checked (Activity α) := do
  if inMin then
    return { a with min := ← a.min.moveTerm coefficient old new, updates := a.updates + 1 }
  else
    return { a with max := ← a.max.moveTerm coefficient old new, updates := a.updates + 1 }

end Activity

end BranchBound
