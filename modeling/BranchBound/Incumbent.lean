import BranchBound.Number.Scalar

/-!
# The incumbent

The best solution known so far. A new one replaces it only if its objective value is smaller, so
the value never increases.
-/

namespace BranchBound

/-- The best known solution with its objective value, which is infinite if there is none. -/
structure Incumbent (α : Type) where
  solution : Option (Array α)
  objective : α
  /-- Whether every solution has an integral objective value. -/
  integralObjective : Bool
  feastol : α
  deriving Repr

namespace Incumbent

variable {α : Type} [Scalar α]

def empty (integralObjective : Bool) (feastol : α) : Incumbent α :=
  ⟨none, Scalar.infinity, integralObjective, feastol⟩

def hasSolution (i : Incumbent α) : Bool := i.objective < Scalar.infinity

/-- The largest objective value that improves the incumbent enough. With integral objective values
the next better solution is at least one unit better. -/
def cutoff (i : Incumbent α) : α :=
  if i.objective == Scalar.infinity then Scalar.infinity
  else if i.integralObjective then i.objective - 1 + i.feastol
  else i.objective - i.feastol * Scalar.max (Scalar.abs i.objective) 1

/-- Replaces the incumbent by a solution with a smaller objective value. The flag says whether it
did. -/
def tryUpdate (i : Incumbent α) (point : Array α) (objective : α) : Bool × Incumbent α :=
  if i.objective ≤ objective then (false, i)
  else (true, { i with solution := some point, objective := objective })

end Incumbent

end BranchBound
