import BranchBound.Domain.Basic

/-!
# Cliques in rows

In `Σ a x ≤ rhs` every binary column can be written with a positive coefficient, if necessary
through its complement. When the columns that are not binary are moved to the right-hand side with
the smallest activity they can have, any two literals whose coefficients together exceed the
right-hand side exclude each other. In the order of falling coefficients the longest run of
neighbours which do so is the largest clique of the row.
-/

namespace BranchBound.CliqueTable

variable {α : Type} [Scalar α]

/-- The literals of a row side with their positive coefficients, and the right-hand side that is
left for them; nothing if another column can be infinite. -/
def literalsOfSide (d : Domain α) (rhs : α) :
    List (ColumnId × α) → Checked (Option (List (BinaryLiteral × α) × α))
  | [] => .ok (some ([], rhs))
  | (c, a) :: rest => do
    let isBinary ← d.isBinary c
    let isFixed ← if isBinary then d.isFixed c else pure false
    if isBinary && !isFixed then
      let (literal, weight, rhs) : BinaryLiteral × α × α :=
        if 0 < a then (⟨c, true⟩, a, rhs) else (⟨c, false⟩, -a, rhs - a)
      return (← literalsOfSide d rhs rest).map fun (literals, rhs) =>
        ((literal, weight) :: literals, rhs)
    else
      let bound ← d.boundValue (if 0 < a then .lower else .upper) c
      if Scalar.isInfinite bound then return none
      literalsOfSide d (rhs - a * bound) rest

/-- The longest start of a list of literals in which any two neighbours exceed a limit together,
after a literal with the given coefficient. -/
def exceedingRun (limit previous : α) : List (BinaryLiteral × α) → List BinaryLiteral
  | [] => []
  | (literal, weight) :: rest =>
    if limit < previous + weight then literal :: exceedingRun limit weight rest else []

/-- The largest clique among literals with positive coefficients, for a right-hand side. -/
def largestClique (feastol rhs : α) (literals : List (BinaryLiteral × α)) : List BinaryLiteral :=
  let sorted := literals.mergeSort fun x y => Scalar.fallingOrder x.2 y.2 != .gt
  match sorted with
  | [] => []
  | (literal, weight) :: rest => literal :: exceedingRun (rhs + feastol) weight rest

/-- Adds the largest clique of `Σ a x ≤ rhs`, if there is one. -/
def extractFromSide (d : Domain α) (entries : List (ColumnId × α)) (rhs : α) :
    Action CliqueTable Bool := do
  match ← literalsOfSide d rhs entries with
  | none => return false
  | some (literals, rhs) =>
    let clique := largestClique d.feastol rhs literals
    if clique.length < 2 then return false else add clique

/-- Adds the largest clique of each side of a row to those added so far. -/
def extractFromRow (d : Domain α) (added : Nat) (row : Row α) : Action CliqueTable Nat := do
  let fromUpper ←
    if row.upper < Scalar.infinity then extractFromSide d row.entries row.upper else pure false
  let fromLower ←
    if -Scalar.infinity < row.lower then
      extractFromSide d (row.entries.map fun (c, a) => (c, -a)) (-row.lower)
    else pure false
  return added + fromUpper.toNat + fromLower.toNat

/-- Adds the largest clique of every side of every row of the model over the current bounds.
Returns the number of added cliques. -/
def extract (d : Domain α) : Action CliqueTable Nat :=
  d.model.rows.toList.foldlM (extractFromRow d) 0

end BranchBound.CliqueTable
