import BranchBound.Domain.Literal
import BranchBound.Inequality
import BranchBound.Number.CompensatedSum

/-!
# Tightening coefficients

A coefficient of an integer column that is larger than what the inequality can be violated by is
larger than it needs to be: it can be reduced, together with the right-hand side, without changing
the integral points of the global box that satisfy the inequality.
-/

namespace BranchBound.Domain

variable {α : Type} [Scalar α]

/-- A bound of a column in every node. -/
def globalValue (d : Domain α) (side : Side) (c : ColumnId) : Checked α := do
  return (← d.boundBefore side c d.globalLength).value

/-- The maximal activity over the global bounds, if it is finite. -/
def globalMaxActivity? (d : Domain α) (sum : CompensatedSum α) :
    List (ColumnId × α) → Checked (Option (CompensatedSum α))
  | [] => .ok (some sum)
  | (c, a) :: rest => do
    let bound ← d.globalValue (if 0 < a then .upper else .lower) c
    if Scalar.isInfinite bound then return none
    globalMaxActivity? d (sum.addSum (.product a bound)) rest

/-- Reduces the coefficients of integer columns above a limit. The results are the number of
reduced coefficients, the new entries, and the new right-hand side. -/
def reduceCoefficients (d : Domain α) (limit : α) (rhs : CompensatedSum α) :
    List (ColumnId × α) → Checked (Nat × List (ColumnId × α) × CompensatedSum α)
  | [] => .ok (0, [], rhs)
  | (c, a) :: rest => do
    if !(← d.model.isInteger c) then
      let (n, entries, rhs) ← reduceCoefficients d limit rhs rest
      return (n, (c, a) :: entries, rhs)
    else if limit < a then
      let excess := CompensatedSum.product (a - limit) (← d.globalValue .upper c)
      let (n, entries, rhs) ← reduceCoefficients d limit (rhs.subSum excess) rest
      return (n + 1, (c, limit) :: entries, rhs)
    else if a < -limit then
      let excess := CompensatedSum.product (-a - limit) (← d.globalValue .lower c)
      let (n, entries, rhs) ← reduceCoefficients d limit (rhs.addSum excess) rest
      return (n + 1, (c, -limit) :: entries, rhs)
    else
      let (n, entries, rhs) ← reduceCoefficients d limit rhs rest
      return (n, (c, a) :: entries, rhs)

/-- Tightens the coefficients of integer columns with respect to the global bounds. The number of
changed coefficients comes with the new inequality. -/
def tighten (d : Domain α) (i : Inequality α) : Checked (Nat × Inequality α) := do
  match ← d.globalMaxActivity? .zero i.entries with
  | none => return (0, i)
  | some maxActivity =>
    let limit := (maxActivity.sub i.rhs).value
    if limit ≤ d.feastol then return (0, i)
    let (n, entries, rhs) ← d.reduceCoefficients limit (.ofScalar i.rhs) i.entries
    return (n, ⟨entries, if 0 < n then rhs.value else i.rhs⟩)

end BranchBound.Domain
