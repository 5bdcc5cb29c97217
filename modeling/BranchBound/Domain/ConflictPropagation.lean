import BranchBound.Action
import BranchBound.Pool.Conflict
import BranchBound.Slots

/-!
# Conflicts as a domain sees them

A domain follows a conflict pool as it follows a cut pool. Conflicts are found through the columns
of their literals: when a bound of a column becomes tighter, every conflict over it waits for its
propagation.
-/

namespace BranchBound

/-- A conflict as a domain knows it. -/
structure PropagatedConflict (α : Type) where
  literals : List (BoundChange α)
  /-- Whether the conflict waits for its propagation. -/
  dirty : Bool
  deriving Repr

/-- What a domain knows of a conflict pool. -/
structure ConflictPropagation (α : Type) where
  /-- The pool among the shared pools. -/
  pool : Nat
  /-- The number of events read so far. -/
  seen : Nat
  conflicts : Slots (PropagatedConflict α)
  /-- For every column the conflicts over it. -/
  occurrences : Array (List ConflictId)
  /-- The conflicts that wait for their propagation, in the order in which they are visited. -/
  waiting : List ConflictId
  deriving Repr

namespace ConflictPropagation

variable {α : Type} [Scalar α]

/-- Knows nothing of a pool yet. -/
def ofPool (pool : Nat) (columnCount : Nat) : ConflictPropagation α :=
  { pool := pool
    seen := 0
    conflicts := .empty
    occurrences := Array.replicate columnCount []
    waiting := [] }

/-- Makes a conflict wait for its propagation, if it does not do so already. -/
def markDirty (p : ConflictPropagation α) (id : ConflictId) : ConflictPropagation α :=
  match p.conflicts.get? id with
  | some conflict =>
    if conflict.dirty then p
    else
      { p with
        conflicts := p.conflicts.insert id { conflict with dirty := true }
        waiting := p.waiting ++ [id] }
  | none => p

/-- Makes the conflicts over a column wait after one of its bounds became tighter. -/
def boundTightened (p : ConflictPropagation α) (c : ColumnId) :
    Checked (ConflictPropagation α) := do
  return (← fetch p.occurrences c).foldl markDirty p

/-- Reads an event. An added conflict that is no longer there is skipped; its removal follows. -/
def readEvent (pool : ConflictPool α) (p : ConflictPropagation α) :
    PoolEvent → Checked (ConflictPropagation α)
  | .added id =>
    match pool.get? id with
    | none => .ok p
    | some literals => do
      let occurrences ← literals.foldlM
        (fun lists literal => update lists literal.column fun found =>
          .ok (if found.getLast? == some id then found else found ++ [id])) p.occurrences
      let p := { p with
        conflicts := p.conflicts.insert id ⟨literals, false⟩
        occurrences := occurrences }
      return p.markDirty id
  | .removed id =>
    match p.conflicts.get? id with
    | none => .ok p
    | some known => do
      let occurrences ← known.literals.foldlM
        (fun lists literal => update lists literal.column fun found =>
          .ok (found.filter (· != id))) p.occurrences
      return { p with conflicts := p.conflicts.erase id, occurrences := occurrences }

/-- Reads every event that was not read yet. None of them is read again, even if one cannot be
followed. -/
def synchronise (pool : ConflictPool α) : Action (ConflictPropagation α) Unit := do
  let events := pool.eventsSince (← get).seen
  modify fun p => { p with seen := p.seen + events.length }
  events.forM fun event => Action.change fun p => readEvent pool p event

end ConflictPropagation

end BranchBound
