import BranchBound.Domain.Basic
import BranchBound.Inequality

/-!
# Relaxations

A relaxation forgets the integrality of the columns and can therefore be solved over the box of a
domain. Its optimal value bounds the objective value of every solution in the box from below. The
solver knows a relaxation only through the operations of the class `Relaxation`.
-/

namespace BranchBound

/-- Where a column stands in a basis. -/
inductive BasisStatus where
  | atLower
  | basic
  | atUpper
  /-- A free column at zero. -/
  | zero
  deriving DecidableEq, Repr

namespace BasisStatus

/-- The letter of a status. -/
def letter : BasisStatus → Char
  | atLower => 'L'
  | basic => 'B'
  | atUpper => 'U'
  | zero => 'Z'

/-- The status with a letter; every other letter stands for a free column at zero. -/
def ofLetter (c : Char) : BasisStatus :=
  ([atLower, basic, atUpper].find? fun status => status.letter == c).getD zero

end BasisStatus

/-- A basis from which a relaxation can be solved again with few iterations. -/
structure Basis where
  columns : List BasisStatus
  rows : List BasisStatus
  deriving DecidableEq, Repr

namespace Basis

/-- The letters of the columns. -/
def text (b : Basis) : String := String.ofList (b.columns.map BasisStatus.letter)

/-- The basis whose columns have the given letters. -/
def ofText (s : String) : Basis := ⟨s.toList.map BasisStatus.ofLetter, []⟩

end Basis

/-- An optimal solution of a relaxation. -/
structure RelaxationSolution (α : Type) where
  /-- The value of every column. -/
  values : Array α
  /-- The objective value, with the constant part. -/
  objective : α
  basis : Option Basis
  /-- The number of iterations the solution took. -/
  iterations : Nat
  deriving Repr

/-- The outcome of solving a relaxation. -/
inductive RelaxationResult (α : Type) where
  | optimal (solution : RelaxationSolution α)
  /-- There is no solution; a proof is an inequality that holds for every solution of the model
  and for no point of the box. -/
  | infeasible (proof : Option (Inequality α))
  | unbounded
  | numericalTrouble
  deriving Repr

/-- What the solver needs to know of a relaxation. -/
class Relaxation (ρ : Type) (α : outParam Type) where
  /-- The number of columns. -/
  columnCount : ρ → Nat
  /-- Solves the relaxation over the box of a domain. The relaxation is there afterwards also when
  it stopped with a fault. -/
  resolve : ρ → Domain α → Checked (RelaxationResult α) × ρ
  /-- The relaxation and an independent copy of it. -/
  fork : ρ → ρ × ρ
  /-- Tries to recover from numerical trouble; the flag says whether solving is worth another
  try. -/
  recover : ρ → Bool × ρ
  /-- Adds cuts. -/
  addCuts : ρ → List (Inequality α) → ρ
  /-- Gives the basis from which to solve next. -/
  setBasis : ρ → Basis → ρ

end BranchBound
