import BranchBound.Bound
import BranchBound.Table

/-!
# Pools of learned conflicts

A conflict is a set of bound changes which cannot all hold. Once all but one of them hold, the
remaining one is false. The pool gives every conflict an identifier and keeps a list of events
from which the domains that propagate the conflicts bring themselves up to date.
-/

namespace BranchBound

/-- The position of a conflict in its pool. -/
abbrev ConflictId := Nat

/-- A conflict with the number of agings since it was last useful. -/
structure PooledConflict (α : Type) where
  literals : List (BoundChange α)
  age : Nat
  deriving Repr

/-- A pool of conflicts. -/
structure ConflictPool (α : Type) where
  /-- Every conflict ever added, absent once it was removed. -/
  conflicts : Table ConflictId (Option (PooledConflict α))
  events : Array PoolEvent
  /-- The number of conflicts in the pool. -/
  size : Nat
  ageLimit : Nat
  /-- With more conflicts than this the age limit is halved. -/
  softLimit : Nat
  deriving Repr

namespace ConflictPool

variable {α : Type} [Scalar α]

def empty (ageLimit softLimit : Nat) : ConflictPool α := ⟨.empty, #[], 0, ageLimit, softLimit⟩

def pooled? (p : ConflictPool α) (id : ConflictId) : Option (PooledConflict α) :=
  (p.conflicts.get? id).join

/-- The literals of a conflict, if it is still there. -/
def get? (p : ConflictPool α) (id : ConflictId) : Option (List (BoundChange α)) :=
  (p.pooled? id).map PooledConflict.literals

/-- The conflicts in the pool with their identifiers, oldest first. -/
def toList (p : ConflictPool α) : List (ConflictId × PooledConflict α) :=
  p.conflicts.keys.filterMap fun id => (p.pooled? id).map fun conflict => (id, conflict)

/-- A list without the entries which equal the entry kept before them, the first of which is
given. -/
def withoutRepeatsOf (last : BoundChange α) : List (BoundChange α) → List (BoundChange α)
  | [] => []
  | x :: rest =>
    if last.sameAs x then withoutRepeatsOf last rest else x :: withoutRepeatsOf x rest

/-- A list in which no entry equals the one before it. -/
def withoutRepeats : List (BoundChange α) → List (BoundChange α)
  | [] => []
  | x :: rest => x :: withoutRepeatsOf x rest

/-- The stored form of a set of literals: sorted, each literal once. -/
def storedForm (literals : List (BoundChange α)) : List (BoundChange α) :=
  withoutRepeats (literals.mergeSort BoundChange.storedBefore)

/-- Adds the conflict that the literals cannot all hold. Without literals it would say that the
problem is infeasible, and it is not added. -/
def add (p : ConflictPool α) (literals : List (BoundChange α)) :
    Option ConflictId × ConflictPool α :=
  if literals.isEmpty then (none, p)
  else
    let (id, conflicts) := p.conflicts.push (some ⟨storedForm literals, 0⟩)
    (some id,
      { p with conflicts := conflicts, events := p.events.push (.added id), size := p.size + 1 })

/-- Marks a conflict as useful. -/
def resetAge (p : ConflictPool α) (id : ConflictId) : ConflictPool α :=
  { p with conflicts := p.conflicts.modify id fun slot => slot.map fun c => { c with age := 0 } }

def remove (p : ConflictPool α) (id : ConflictId) : ConflictPool α :=
  match p.pooled? id with
  | none => p
  | some _ =>
    { p with
      conflicts := p.conflicts.setIfPresent id none
      events := p.events.push (.removed id)
      size := p.size - 1 }

/-- The age limit for the present number of conflicts. -/
def effectiveAgeLimit (p : ConflictPool α) : Nat :=
  if p.softLimit < p.size then p.ageLimit / 2 else p.ageLimit

/-- Every conflict one aging older. -/
def older (p : ConflictPool α) : ConflictPool α :=
  { p with
    conflicts :=
      ⟨p.conflicts.entries.map fun slot => slot.map fun c => { c with age := c.age + 1 }⟩ }

/-- Ages every conflict, and removes and returns those above the age limit. -/
def age (p : ConflictPool α) : List ConflictId × ConflictPool α :=
  let expired :=
    (p.older.toList.filter fun (_, c) => p.effectiveAgeLimit < c.age).map Prod.fst
  (expired, expired.foldl remove p.older)

/-- The events from a position onwards. -/
def eventsSince (p : ConflictPool α) (position : Nat) : List PoolEvent :=
  p.events.toList.drop position

end ConflictPool

end BranchBound
