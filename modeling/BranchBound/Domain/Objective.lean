import BranchBound.Domain.Basic
import BranchBound.Inequality

/-!
# The objective cutoff of a domain

The cutoff is the largest objective value, constant part included, that a solution may have to be
of interest. It only ever decreases.
-/

namespace BranchBound.Domain

variable {α : Type} [Scalar α]

/-- Whether columns form a partition: there are several of them, all binary with a negative cost,
and none of them belongs to an earlier partition. -/
def isPartition (d : Domain α) (partitionOf : Array (Option Nat)) (columns : List ColumnId) :
    Checked Bool := do
  if columns.length ≤ 1 then return false
  allHold (fun c => do
    if !(← d.isBinary c) then return false
    if !((← d.model.column c).cost < 0) then return false
    return (← fetch partitionOf c).isNone) columns

/-- Numbers the valid partitions of a list, skipping the others. The result tells every column its
partition. -/
def numberPartitions (d : Domain α) (numbered : Nat) (partitionOf : Array (Option Nat)) :
    List (List ColumnId) → Checked (Nat × Array (Option Nat))
  | [] => .ok (numbered, partitionOf)
  | columns :: rest => do
    if ← d.isPartition partitionOf columns then
      let partitionOf ← columns.foldlM (fun table c => store table c (some numbered)) partitionOf
      numberPartitions d (numbered + 1) partitionOf rest
    else numberPartitions d numbered partitionOf rest

/-- Starts to propagate the objective, with partitions of binary columns of which at most one can
be one. A cutoff that was set before is kept. -/
def setupObjective (d : Domain α) (partitions : List (List ColumnId)) : Checked (Domain α) := do
  let none' := Array.replicate d.columnCount (none : Option Nat)
  let (count, partitionOf) ← d.numberPartitions 0 none' partitions
  let objective : ObjectivePropagation α :=
    { cutoff := d.objective.elim Scalar.infinity ObjectivePropagation.cutoff
      costs := d.model.columns.map Column.cost
      partitionOf := partitionOf
      partitions := Array.replicate count .empty
      min := .zero
      needsPropagation := false }
  return { d with objective := some (← objective.recompute d.lower d.upper) }

/-- Lowers the cutoff to an objective value. Without a set up objective nothing happens. -/
def setObjectiveCutoff (d : Domain α) (cutoff : α) : Domain α :=
  match d.objective with
  | none => d
  | some o =>
    let value := cutoff - d.model.offset
    if value < o.cutoff then
      { d with objective := some { o with cutoff := value, needsPropagation := true } }
    else d

/-- The cutoff, infinite if there is none. -/
def objectiveCutoff (d : Domain α) : α :=
  d.objective.elim Scalar.infinity fun o => o.cutoff + d.model.offset

/-- A lower bound on the objective value of every solution in the domain. -/
def objectiveLowerBound (d : Domain α) : α :=
  d.objective.elim (-Scalar.infinity) fun o => o.lowerBound + d.model.offset

/-- The cutoff as an inequality on the columns with a cost, without the constant part. -/
def cutoffInequality? (d : Domain α) : Option (Inequality α) := do
  let o ← d.objective
  if o.cutoff == Scalar.infinity then none
  else
    let entries := o.costs.toList.zipIdx.filterMap fun (cost, c) =>
      if cost == 0 then none else some (c, cost)
    some ⟨entries, o.cutoff⟩

end BranchBound.Domain
