import BranchBound.Action
import BranchBound.Activity
import BranchBound.Bound
import BranchBound.Pool.Cut
import BranchBound.Slots

/-!
# Cuts as a domain sees them

A domain follows a cut pool at its own pace. It reads the events of the pool it has not seen yet,
keeps a copy of every cut that is there for it, and updates the minimal activity of a cut whenever
a bound of one of its columns moves. Cuts whose minimal activity changed wait in a list until they
are propagated.
-/

namespace BranchBound

/-- A cut together with its minimal activity over the current bounds. -/
structure PropagatedCut (α : Type) where
  cut : Inequality α
  min : PartialSum α
  /-- Whether the cut waits for its propagation. -/
  dirty : Bool
  deriving Repr

/-- What a domain knows of a cut pool. -/
structure CutPropagation (α : Type) where
  /-- The pool among the shared pools. -/
  pool : Nat
  /-- The number of events read so far. -/
  seen : Nat
  cuts : Slots (PropagatedCut α)
  /-- For every column the cuts over it, with the coefficients. -/
  occurrences : Array (List (CutId × α))
  /-- The cuts that wait for their propagation, in the order in which they have to be visited. -/
  waiting : List CutId
  deriving Repr

namespace CutPropagation

variable {α : Type} [Scalar α]

/-- Knows nothing of a pool yet. -/
def ofPool (pool : Nat) (columnCount : Nat) : CutPropagation α :=
  { pool := pool
    seen := 0
    cuts := .empty
    occurrences := Array.replicate columnCount []
    waiting := [] }

/-- Makes a cut wait for its propagation, if it does not do so already. -/
def markDirty (p : CutPropagation α) (id : CutId) : CutPropagation α :=
  match p.cuts.get? id with
  | some cut =>
    if cut.dirty then p
    else
      { p with cuts := p.cuts.insert id { cut with dirty := true }, waiting := p.waiting ++ [id] }
  | none => p

/-- The minimal activity of a list of entries over the given bounds. -/
def minActivity (lower upper : Array (Bound α)) (entries : List (ColumnId × α)) :
    Checked (PartialSum α) :=
  entries.foldlM
    (fun sum (c, a) => do
      let bound ← fetch (if 0 < a then lower else upper) c
      return sum.addTerm a bound.value) .zero

/-- Reads an event. An added cut that is no longer there is skipped; its removal follows. -/
def readEvent (pool : CutPool α) (lower upper : Array (Bound α)) (p : CutPropagation α) :
    PoolEvent → Checked (CutPropagation α)
  | .added id =>
    match pool.get? id with
    | none => .ok p
    | some cut => do
      let min ← minActivity lower upper cut.entries
      let occurrences ← cut.entries.foldlM
        (fun lists (c, a) => update lists c fun found => .ok (found ++ [(id, a)])) p.occurrences
      let p := { p with cuts := p.cuts.insert id ⟨cut, min, false⟩, occurrences := occurrences }
      return p.markDirty id
  | .removed id =>
    match p.cuts.get? id with
    | none => .ok p
    | some known => do
      let occurrences ← known.cut.entries.foldlM
        (fun lists (c, _) => update lists c fun found => .ok (found.filter fun o => o.1 != id))
        p.occurrences
      return { p with cuts := p.cuts.erase id, occurrences := occurrences }

/-- Reads every event that was not read yet. None of them is read again, even if one cannot be
followed. -/
def synchronise (pool : CutPool α) (lower upper : Array (Bound α)) :
    Action (CutPropagation α) Unit := do
  let events := pool.eventsSince (← get).seen
  modify fun p => { p with seen := p.seen + events.length }
  events.forM fun event => Action.change fun p => readEvent pool lower upper p event

/-- Updates one cut after a bound entering its minimal activity moved. The result holds the first
cut found so far whose minimal activity exceeds its right-hand side. -/
def moveOccurrence (side : Side) (old new feastol : α)
    (state : Option CutId × CutPropagation α) (occurrence : CutId × α) :
    Checked (Option CutId × CutPropagation α) := do
  let (violated, p) := state
  let (id, a) := occurrence
  if decide (0 < a) != (side == .lower) then return state
  match p.cuts.get? id with
  | none => return state
  | some known =>
    let moved := { known with min := ← known.min.moveTerm a old new }
    let p := { p with cuts := p.cuts.insert id moved }
    let violated :=
      if violated.isNone && moved.min.exceeds moved.cut.rhs feastol then some id else violated
    return (violated, if moved.min.infinite ≤ 1 then p.markDirty id else p)

/-- Updates the cuts over a column after one of its bounds moved. Returns a cut that is violated
now, if there is one. -/
def boundMoved (p : CutPropagation α) (c : ColumnId) (side : Side) (old new feastol : α) :
    Checked (Option CutId × CutPropagation α) := do
  (← fetch p.occurrences c).foldlM (moveOccurrence side old new feastol) (none, p)

end CutPropagation

end BranchBound
