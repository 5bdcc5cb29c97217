import BranchBound.Model.Basic

/-!
# Linear inequalities

Cuts, proofs of infeasibility and the objective cutoff are inequalities `Σ a x ≤ rhs`. Columns may
repeat; their coefficients then add up.
-/

namespace BranchBound

/-- The inequality `Σ a x ≤ rhs` over a list of columns with their coefficients. -/
structure Inequality (α : Type) where
  entries : List (ColumnId × α)
  rhs : α
  deriving Repr

namespace Inequality

variable {α : Type} [Scalar α]

/-- The value of the left-hand side at a point. -/
def activity (i : Inequality α) (point : Array α) : Checked α :=
  Model.activity i.entries point

/-- The violation at a point in relation to the euclidean norm of the coefficients. -/
def efficacy (i : Inequality α) (point : Array α) : Checked α := do
  let norm := Scalar.sqrt (Scalar.sum (i.entries.map fun (_, a) => a * a))
  if norm == 0 then return 0
  return ((← i.activity point) - i.rhs) / norm

/-- The inequality without zero coefficients and with its entries by increasing column. -/
def normalized (i : Inequality α) : Inequality α :=
  { i with entries := (i.entries.filter fun (_, a) => a != 0).mergeSort fun x y => x.1 ≤ y.1 }

/-- Whether two entries have the same column and identical coefficients. -/
def sameEntry (x y : ColumnId × α) : Bool :=
  x.1 == y.1 && x.2 == y.2 && Scalar.identical x.2 y.2

/-- Whether two inequalities consist of the same numbers. Two inequalities with a value which is
not a number are never the same, and the two zeros differ. -/
def sameAs (i j : Inequality α) : Bool :=
  i.entries.length == j.entries.length &&
    (i.entries.zip j.entries).all (fun (x, y) => sameEntry x y) &&
    i.rhs == j.rhs && Scalar.identical i.rhs j.rhs

end Inequality

end BranchBound
