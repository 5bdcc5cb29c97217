import BranchBound.Conflict.Explanation

/-!
# Learning conflicts

A conflict set holds local log positions whose changes cannot all hold. It is resolved backwards:
the last position is replaced by the positions which explain it, until only one position of the
deepest level is left. The literals at the positions then form a conflict from which the negation
of that one literal follows as soon as the level is undone. Resolving further gives conflicts of
the levels above.
-/

namespace BranchBound

/-- The local positions of a set, in increasing order. -/
structure ConflictSet where
  positions : List Nat
  deriving DecidableEq, Repr

namespace ConflictSet

def empty : ConflictSet := ⟨[]⟩

/-- Inserts a position into an increasing list. -/
def insertPosition (position : Nat) : List Nat → List Nat
  | [] => [position]
  | p :: rest =>
    if position < p then position :: p :: rest
    else if position == p then p :: rest
    else p :: insertPosition position rest

/-- Adds positions, leaving out those before the local part of the log. -/
def insert (s : ConflictSet) (globalLength : Nat) (positions : List Nat) : ConflictSet :=
  ⟨(positions.filter (globalLength ≤ ·)).foldl (fun set p => insertPosition p set) s.positions⟩

def erase (s : ConflictSet) (position : Nat) : ConflictSet := ⟨s.positions.filter (· != position)⟩

end ConflictSet

/-- The outcome of resolving a conflict set. -/
structure Resolution (α : Type) where
  conflicts : List (List (BoundChange α))
  /-- The set when the resolution ended. -/
  rest : ConflictSet
  /-- The number of literals and the depth of a conflict which was too large. -/
  abandoned : Option (Nat × Nat)
  deriving Repr

namespace Domain

variable {α : Type} [Scalar α]

/-- Local positions whose changes cannot all hold: those behind the violation of a proof or, without
one, behind the infeasibility of the domain. There are none if that cannot be explained. -/
def conflictSet? (d : Domain α) (pools : Pools α) (proof : Option (Inequality α)) :
    Checked (Option ConflictSet) := do
  let explanation ← match proof with
    | some proof => d.explainViolation proof
    | none => d.explainInfeasibility pools
  return explanation.map (ConflictSet.empty.insert d.globalLength)

/-- The number of depth levels opened up to a position. -/
def depthOf (d : Domain α) (position : Nat) : Nat :=
  (d.branchings.toList.takeWhile (· ≤ position)).length

/-- The log entries at the positions of a set. -/
def entriesAt (d : Domain α) (s : ConflictSet) : Checked (List (LogEntry α)) :=
  s.positions.mapM (fetch d.log)

/-- The changes in a list of entries, of several on one bound only the last. -/
def tightestChanges : List (LogEntry α) → List (BoundChange α)
  | [] => []
  | entry :: rest =>
    if rest.any fun later =>
        later.change.column == entry.change.column && later.change.side == entry.change.side then
      tightestChanges rest
    else entry.change :: tightestChanges rest

/-- The literals of a conflict set. -/
def literalsOf (d : Domain α) (s : ConflictSet) : Checked (List (BoundChange α)) := do
  return tightestChanges (← d.entriesAt s)

/-- Resolves a set in at most a given number of steps. Every step replaces the last position by
earlier ones, so there are no more steps than the log has entries. -/
def resolveWithin (d : Domain α) (pools : Pools α) (maxSize maxConflicts : Nat) :
    Nat → ConflictSet → List (List (BoundChange α)) → Checked (Resolution α)
  | 0, _, _ => .error .stepsExhausted
  | steps + 1, s, conflicts => do
    if maxConflicts ≤ conflicts.length then return ⟨conflicts, s, none⟩
    match s.positions.getLast? with
    | none => return ⟨conflicts ++ [[]], s, none⟩
    | some deepest =>
      let depth := d.depthOf deepest
      let levelStart ← fetch d.branchings (← uncount depth 1)
      let isSingle := (s.positions.filter (levelStart ≤ ·)).length ≤ 1
      let literals ← d.literalsOf s
      if isSingle && maxSize < literals.length then
        return ⟨conflicts, s, some (literals.length, depth)⟩
      let conflicts := if isSingle then conflicts ++ [literals] else conflicts
      if isSingle && maxConflicts ≤ conflicts.length then return ⟨conflicts, s, none⟩
      match ← d.explainChange pools deepest with
      | some explanation =>
        let s := (s.erase deepest).insert d.globalLength explanation
        resolveWithin d pools maxSize maxConflicts steps s conflicts
      | none =>
        let fits := !isSingle && literals.length ≤ maxSize
        return ⟨if fits then conflicts ++ [literals] else conflicts, s, none⟩

/-- Resolves a conflict set into at most `maxConflicts` conflicts of at most `maxSize` literals. A
conflict without literals means that the infeasibility holds in every node. -/
def computeConflicts (d : Domain α) (pools : Pools α) (s : ConflictSet)
    (maxSize maxConflicts : Nat) : Checked (Resolution α) :=
  resolveWithin d pools maxSize maxConflicts (d.log.size + 2) s []

end Domain

end BranchBound
