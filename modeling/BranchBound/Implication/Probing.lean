import BranchBound.Domain.Propagation
import BranchBound.VariableBound.Detection

/-!
# Consequences of fixing binary columns

What follows from fixing a binary column is found by fixing it in a copy of the domain and
propagating. The outcome is computed once for each value of a column and kept, also when the
domain has changed in the meantime; recording new variable bounds forgets it.
-/

namespace BranchBound

/-- The changes that follow from a fixing, or why it is impossible. -/
abbrev Consequences (α : Type) := Except Infeasibility (List (BoundChange α))

/-- Variable bounds together with the consequences computed so far. -/
structure Implications (α : Type) where
  bounds : VariableBounds α
  known : List ((ColumnId × Bool) × Consequences α)

namespace Implications

variable {α : Type} [Scalar α]

def empty (columnCount : Nat) : Implications α := ⟨.empty columnCount, []⟩

def forget (i : Implications α) : Implications α := { i with known := [] }

/-- Performs an action on the variable bounds. -/
def onBounds {β : Type} (x : Action (VariableBounds α) β) : Action (Implications α) β :=
  Action.within Implications.bounds (fun i bounds => { i with bounds := bounds }) x

/-- Records a variable bound; see `VariableBounds.add`. -/
def add (d : Domain α) (side : Side) (x y : ColumnId) (bound : VariableBound α) :
    Action (Implications α) Bool := do
  let changed ← onBounds (VariableBounds.add d side x y bound)
  if changed then modify forget
  return changed

/-- Restates the bounds of a transformed column; see `VariableBounds.transform`. -/
def transform (c : ColumnId) (scale constant : α) : Action (Implications α) Unit := do
  onBounds (Action.change fun t => t.transform c scale constant)
  modify forget

/-- Removes the bounds of a substituted column; see `VariableBounds.substitute`. -/
def substitute (c : ColumnId) : Action (Implications α) Unit := do
  onBounds (VariableBounds.substitute c)
  modify forget

/-- The bounds of other columns which are tighter in a probed domain. -/
def tightenings (before after : Domain α) (probed : ColumnId) :
    List ColumnId → Checked (List (BoundChange α))
  | [] => .ok []
  | c :: rest => do
    let others ← tightenings before after probed rest
    if c == probed then return others
    let lower ← after.boundValue .lower c
    let upper ← after.boundValue .upper c
    let raised := if (← before.boundValue .lower c) < lower then [.atLeast c lower] else []
    let lowered := if upper < (← before.boundValue .upper c) then [.atMost c upper] else []
    return raised ++ lowered ++ others

/-- A copy of the domain in which a binary column is fixed and everything that follows is
propagated over the pools. -/
def probe (d : Domain α) (c : ColumnId) (value : Bool) : Action (Pools α) (Domain α) := do
  let copy ← d.fixColumn c (if value then 1 else 0) .branching
  let (outcome, after) := PropagationStep.propagate.perform ⟨← get, copy⟩
  set after.pools
  outcome
  return after.domain

/-- What follows from a probed domain. -/
def consequencesOf (d probed : Domain α) (c : ColumnId) : Checked (Consequences α) := do
  match probed.infeasible with
  | some infeasibility => return .error infeasibility
  | none => return .ok (← tightenings d probed c d.model.columnIds)

/-- The consequences of a fixing, with the probed copy of the domain if one was needed. -/
structure Answer (α : Type) where
  consequences : Consequences α
  probed : Option (Domain α)

/-- The consequences of fixing a binary column in a domain. -/
def consequences (d : Domain α) (c : ColumnId) (value : Bool) :
    Action (Implications α × Pools α) (Answer α) := do
  match (← get).1.known.lookup (c, value) with
  | some known => return ⟨known, none⟩
  | none =>
    let probed ← Action.within Prod.snd (fun s pools => (s.1, pools)) (probe d c value)
    let found ← consequencesOf d probed c
    modify fun (i, pools) => ({ i with known := ((c, value), found) :: i.known }, pools)
    return ⟨found, some probed⟩

end Implications

end BranchBound
