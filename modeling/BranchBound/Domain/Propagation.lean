import BranchBound.Action
import BranchBound.Domain.Change
import BranchBound.Domain.ImpliedBound
import BranchBound.Domain.Literal
import BranchBound.Iteration
import BranchBound.Pool.Shared

/-!
# Propagation

`Domain.propagate` tightens bounds until no constraint implies a change that is worth making, or
until the domain is infeasible. Every round applies the cliques and variable bounds of new
fixings and visits the rows that wait; conflicts, cuts and the objective follow only in rounds in
which nothing has changed so far. A round which does not end the propagation has appended to the
log or made a row wait, and nothing but the constraints themselves bounds the number of rounds.
-/

namespace BranchBound

namespace Domain

variable {α : Type} [Scalar α]

/-- The binary column that a log entry fixes, with its value. -/
def fixedBy (d : Domain α) (entry : LogEntry α) : Checked (Option (ColumnId × Bool)) := do
  if !(← d.isBinary entry.change.column) then return none
  match entry.change.side with
  | .lower =>
    return if 1 ≤ entry.change.value then some (entry.change.column, true) else none
  | .upper =>
    return if entry.change.value ≤ 0 then some (entry.change.column, false) else none

/-- The changes which follow from the value of a binary column through cliques and variable
bounds. -/
def impliedByFixing (d : Domain α) (c : ColumnId) (value : Bool) :
    Checked (List (BoundChange α × Reason)) := do
  let cliqueChanges ← match d.cliques with
    | none => pure []
    | some cliques => do
      pure ((← cliques.impliedBy ⟨c, value⟩).map fun literal =>
        (BoundChange.fixing literal.column !literal.value, Reason.clique c value))
  let variableChanges ← match d.variableBounds with
    | none => pure []
    | some bounds => do
      pure ((← bounds.impliedBy c value).map fun change => (change, Reason.variableBound c value))
  return cliqueChanges ++ variableChanges

/-- The changes which follow from every fixing in the next part of the log. The cursor moves on
before an entry is looked at. -/
def impliedByEntries : List (LogEntry α) → Action (Domain α) (List (BoundChange α × Reason))
  | [] => return []
  | entry :: rest => do
    modify fun d => { d with implicationCursor := d.implicationCursor + 1 }
    let d ← get
    let changes ← match ← d.fixedBy entry with
      | none => pure []
      | some (c, value) => d.impliedByFixing c value
    return changes ++ (← impliedByEntries rest)

/-- Makes a change if it is worth it. -/
def changeIfWorthwhile (d : Domain α) (change : BoundChange α) (reason : Reason) :
    Checked (Domain α) := do
  match ← d.acceptedBound change.side change.column (.ofScalar change.value) with
  | none => return d
  | some change => d.changeBound change reason

/-- Makes changes which are worth it, up to the first one that makes the domain infeasible. -/
def applyWorthwhile : List (BoundChange α × Reason) → Action (Domain α) Unit
  | [] => return
  | (change, reason) :: rest => do
    Action.change fun d => d.changeIfWorthwhile change reason
    if !(← get).isInfeasible then applyWorthwhile rest

/-- Applies the cliques and variable bounds of the fixings logged since the last time. -/
def propagateImplications : Action (Domain α) Unit := do
  let d ← get
  if d.cliques.isNone && d.variableBounds.isNone then
    set { d with implicationCursor := d.log.size }
  else
    applyWorthwhile (← impliedByEntries (d.log.toList.drop d.implicationCursor))

/-- The changes implied by a row, computed from a fresh activity if it was updated too often. -/
def rowChanges (d : Domain α) (r : RowId) :
    Checked (Domain α × List (BoundChange α × Reason)) := do
  let d ← if Activity.refreshInterval < (← fetch d.activities r).updates then d.refreshActivity r
    else pure d
  let row ← d.model.row r
  let activity ← fetch d.activities r
  let fromUpper ←
    if row.upper < Scalar.infinity && activity.min.infinite ≤ 1 then
      d.impliedChanges row.upper activity.min row.entries
    else pure []
  let fromLower ←
    if -Scalar.infinity < row.lower && activity.max.infinite ≤ 1 then
      d.impliedChanges (-row.lower) activity.max.neg (row.entries.map fun (c, a) => (c, -a))
    else pure []
  return (d, fromUpper.map (·, .rowUpper r) ++ fromLower.map (·, .rowLower r))

/-- Visits rows up to the first one that makes the domain infeasible; the others wait again. -/
def visitRows (d : Domain α) : List RowId → Checked (Domain α)
  | [] => .ok d
  | r :: rest => do
    let (d, changes) ← d.rowChanges r
    let d ← d.changeBounds changes
    if d.isInfeasible then rest.foldlM markRowDirty d else visitRows d rest

/-- Visits the rows that wait. -/
def propagateRows (d : Domain α) : Checked (Domain α) := do
  let rows := d.waitingRows
  let rowDirty ← rows.foldlM (fun flags r => store flags r false) d.rowDirty
  visitRows { d with waitingRows := [], rowDirty := rowDirty } rows

/-- Makes changes with one reason. -/
def changeAll (d : Domain α) (changes : List (BoundChange α)) (reason : Reason) :
    Checked (Domain α) :=
  d.changeBounds (changes.map (·, reason))

/-- Changes what the domain knows of an attached cut pool. -/
def onCuts (d : Domain α) (index : Nat) (f : CutPropagation α → CutPropagation α) :
    Checked (Domain α) := do
  return { d with cutPropagations := ← update d.cutPropagations index fun p => .ok (f p) }

/-- Changes what the domain knows of an attached conflict pool. -/
def onConflicts (d : Domain α) (index : Nat) (f : ConflictPropagation α → ConflictPropagation α) :
    Checked (Domain α) := do
  return { d with
    conflictPropagations := ← update d.conflictPropagations index fun p => .ok (f p) }

/-- Visits cuts of an attached pool up to the first one that makes the domain infeasible. -/
def visitCuts (d : Domain α) (index : Nat) : List CutId → Checked (Domain α)
  | [] => .ok d
  | id :: rest => do
    match (← fetch d.cutPropagations index).cuts.get? id with
    | none => visitCuts d index rest
    | some known =>
      let d ← d.onCuts index fun p =>
        { p with cuts := p.cuts.insert id { known with dirty := false } }
      if 1 < known.min.infinite then visitCuts d index rest
      else
        let changes ← d.impliedChanges known.cut.rhs known.min known.cut.entries
        let d ← d.changeAll changes (.cut index id)
        if d.isInfeasible then d.onCuts index fun p => rest.foldl CutPropagation.markDirty p
        else visitCuts d index rest

/-- Visits the cuts of an attached pool that wait. -/
def visitWaitingCuts (d : Domain α) (index : Nat) : Checked (Domain α) := do
  let waiting := (← fetch d.cutPropagations index).waiting
  (← d.onCuts index fun p => { p with waiting := [] }).visitCuts index waiting

/-- Visits one conflict that waits. With no literal left that does not hold the domain is
infeasible, and a single one that does not hold is negated; a conflict that achieves something is
young again. -/
def visitConflict (pools : Pools α) (d : Domain α) (index : Nat) (id : ConflictId)
    (literals : List (BoundChange α)) : Checked (Pools α × Domain α) := do
  let pool := (← fetch d.conflictPropagations index).pool
  let inactive ← keepIf (fun literal => do return !(← d.isActive literal)) literals
  let renewed : Checked (Pools α) := do
    return (← pools.onConflicts pool fun p => ((), p.resetAge id)).2
  match inactive with
  | [] => return (← renewed, d.markInfeasible (.conflict index id))
  | [literal] =>
    let after ← d.changeBound (← d.flip literal) (.conflict index id)
    let pools ← if d.log.size < after.log.size then renewed else pure pools
    return (pools, after)
  | _ => return (pools, d)

/-- Visits conflicts of an attached pool up to the first one that makes the domain infeasible. -/
def visitConflicts (pools : Pools α) (d : Domain α) (index : Nat) :
    List ConflictId → Checked (Pools α × Domain α)
  | [] => .ok (pools, d)
  | id :: rest => do
    match (← fetch d.conflictPropagations index).conflicts.get? id with
    | none => visitConflicts pools d index rest
    | some known =>
      let d ← d.onConflicts index fun p =>
        { p with conflicts := p.conflicts.insert id { known with dirty := false } }
      let (pools, d) ← visitConflict pools d index id known.literals
      if d.isInfeasible then
        return (pools, ← d.onConflicts index fun p =>
          rest.foldl ConflictPropagation.markDirty p)
      else visitConflicts pools d index rest

/-- Visits the conflicts of an attached pool that wait. -/
def visitWaitingConflicts (pools : Pools α) (d : Domain α) (index : Nat) :
    Checked (Pools α × Domain α) := do
  let waiting := (← fetch d.conflictPropagations index).waiting
  visitConflicts pools (← d.onConflicts index fun p => { p with waiting := [] }) index waiting

/-- The columns of a partition which cannot be one because that would exceed the cutoff: the most
expensive ones, as far as they do. -/
def excludedFromPartition (residual : CompensatedSum α) (threshold : α)
    (available : List (α × ColumnId)) : List ColumnId :=
  (available.reverse.takeWhile fun (cost, _) => !((residual.add cost).value ≤ threshold)).map
    Prod.snd

/-- The changes that the cutoff implies for the columns of a partition. The only column left has
to be one if leaving it at zero exceeds the cutoff. -/
def partitionChanges (o : ObjectivePropagation α) (feastol : α) (p : ObjectivePartition α) :
    List (BoundChange α) :=
  if !p.fixedToOne.isEmpty then []
  else
    let residual := o.min.finite.sub p.contribution
    let threshold := o.cutoff + feastol
    let excluded := (excludedFromPartition residual threshold p.available).map fun c =>
      BoundChange.atMost c 0
    match p.available with
    | [(_, c)] => if threshold < residual.value then excluded ++ [.atLeast c 1] else excluded
    | _ => excluded

/-- The changes implied by the objective cutoff. -/
def objectiveChanges (d : Domain α) (o : ObjectivePropagation α) :
    Checked (List (BoundChange α)) := do
  let entries := o.costs.toList.zipIdx.filterMap fun (cost, c) =>
    if cost == 0 || (o.partitionOf[c]?.join).isSome then none else some (c, cost)
  let linear ← d.impliedChanges o.cutoff o.min entries
  let fromPartitions :=
    if o.min.infinite == 0 then o.partitions.toList.flatMap (partitionChanges o d.feastol) else []
  return linear ++ fromPartitions

/-- Applies the objective cutoff, if something changed since the last time. -/
def propagateObjective (d : Domain α) : Checked (Domain α) := do
  match d.objective with
  | none => return d
  | some o =>
    if !o.needsPropagation || o.cutoff == Scalar.infinity then return d
    let o := { o with needsPropagation := false }
    let d := { d with objective := some o }
    if 1 < o.min.infinite then return d
    if o.isViolated d.feastol then return d.markInfeasible .objective
    d.changeAll (← d.objectiveChanges o) .objective

/-- Whether a domain is feasible and its log has the given length. -/
def isQuietSince (d : Domain α) (length : Nat) : Bool := !d.isInfeasible && d.log.size == length

end Domain

/-- A domain together with the pools that it follows. -/
structure PropagationState (α : Type) where
  pools : Pools α
  domain : Domain α
  deriving Repr

/-- A step of propagation. -/
abbrev PropagationStep (α : Type) := Action (PropagationState α)

namespace PropagationStep

variable {α : Type} [Scalar α]

def domain : PropagationStep α (Domain α) := return (← get).domain

/-- Performs an action on the domain. -/
def onDomain {β : Type} (x : Action (Domain α) β) : PropagationStep α β :=
  Action.within PropagationState.domain (fun s d => { s with domain := d }) x

/-- Changes the domain. -/
def changeDomain (f : Domain α → Checked (Domain α)) : PropagationStep α Unit :=
  onDomain (Action.change f)

/-- Reads the news of an attached cut pool. -/
def synchroniseCuts (index : Nat) : PropagationStep α Unit := do
  let s ← get
  let propagation ← fetch s.domain.cutPropagations index
  let pool ← s.pools.cutPool propagation.pool
  let (outcome, after) :=
    (CutPropagation.synchronise pool s.domain.lower s.domain.upper).perform propagation
  changeDomain fun d => d.onCuts index fun _ => after
  outcome

/-- Reads the news of an attached conflict pool. -/
def synchroniseConflicts (index : Nat) : PropagationStep α Unit := do
  let s ← get
  let propagation ← fetch s.domain.conflictPropagations index
  let pool ← s.pools.conflictPool propagation.pool
  let (outcome, after) := (ConflictPropagation.synchronise pool).perform propagation
  changeDomain fun d => d.onConflicts index fun _ => after
  outcome

/-- Reads the news of an attached cut pool and visits the cuts that wait. -/
def propagateCuts (index : Nat) : PropagationStep α Unit := do
  synchroniseCuts index
  changeDomain fun d => d.visitWaitingCuts index

/-- Reads the news of an attached conflict pool and visits the conflicts that wait. -/
def propagateConflicts (index : Nat) : PropagationStep α Unit := do
  synchroniseConflicts index
  let s ← get
  let (pools, d) ← s.domain.visitWaitingConflicts s.pools index
  set (⟨pools, d⟩ : PropagationState α)

/-- Takes steps in order, up to the first one that makes the domain infeasible. -/
def untilInfeasible (step : Nat → PropagationStep α Unit) : List Nat → PropagationStep α Unit
  | [] => return
  | index :: rest => do
    step index
    if !(← domain).isInfeasible then untilInfeasible step rest

/-- One round of propagation of a feasible domain. -/
def propagateRound : PropagationStep α Unit := do
  let start := (← domain).log.size
  onDomain Domain.propagateImplications
  if !(← domain).isInfeasible then changeDomain Domain.propagateRows
  let d ← domain
  if d.isQuietSince start then
    untilInfeasible propagateConflicts (List.range d.conflictPropagations.size)
  let d ← domain
  if d.isQuietSince start then
    untilInfeasible propagateCuts (List.range d.cutPropagations.size)
  if (← domain).isQuietSince start then changeDomain Domain.propagateObjective

/-- Whether a round after which the domain is feasible is to be followed by another one: the log
became longer, or a row waits. -/
def goesOn (before after : Domain α) : Bool :=
  after.log.size != before.log.size || !after.waitingRows.isEmpty

/-- Takes a round if the domain is feasible. Propagation ends when the domain is infeasible or a
round changed nothing. -/
def nextRound (s : PropagationState α) :
    PropagationState α ⊕ (Checked Unit × PropagationState α) :=
  if s.domain.isInfeasible then .inr (.ok (), s)
  else
    match propagateRound.perform s with
    | (.error fault, after) => .inr (.error fault, after)
    | (.ok (), after) =>
      if after.domain.isInfeasible || !goesOn s.domain after.domain then .inr (.ok (), after)
      else .inl after

/-- What propagation ends with. There is no outcome if the rounds never end. -/
def outcome? (s : PropagationState α) : Option (Checked Unit × PropagationState α) :=
  iterate? nextRound s

/-- Propagates until nothing changes any more or the domain is infeasible. -/
def propagate : PropagationStep α Unit :=
  ExceptT.mk fun s => (outcome? s).getD (.error .stepsExhausted, s)

end PropagationStep

/-- The domain once it is propagated, with the pools afterwards. -/
def Domain.propagate {α : Type} [Scalar α] (pools : Pools α) (d : Domain α) :
    Checked (Pools α × Domain α) := do
  let ((), after) ← PropagationStep.propagate.finish ⟨pools, d⟩
  return (after.pools, after.domain)

end BranchBound
