import BranchBound.Inequality
import BranchBound.Table

/-!
# Pools of cuts

A pool keeps the cuts of every search of a solve. Cuts never change once they are in the pool and
are known by an identifier which is never used again. Every insertion and every removal is an
event; a domain which propagates the cuts of a pool reads the events it has not seen yet, so the
pool need not know who reads it.
-/

namespace BranchBound

/-- The position of a cut in its pool. -/
abbrev CutId := Nat

/-- A cut with the number of rounds in which it was not used. -/
structure PooledCut (α : Type) where
  cut : Inequality α
  age : Nat
  ageLimit : Nat
  deriving Repr

/-- A pool of cuts. -/
structure CutPool (α : Type) where
  /-- Every cut ever inserted, absent once it was removed. -/
  cuts : Table CutId (Option (PooledCut α))
  events : Array PoolEvent
  /-- The number of cuts in the pool. -/
  size : Nat
  /-- The age limit of cuts inserted without one. -/
  ageLimit : Nat
  deriving Repr

namespace CutPool

variable {α : Type} [Scalar α]

def empty (ageLimit : Nat) : CutPool α := ⟨.empty, #[], 0, ageLimit⟩

/-- The pooled cut of an identifier, if it is still there. -/
def pooled? (p : CutPool α) (id : CutId) : Option (PooledCut α) := (p.cuts.get? id).join

def get? (p : CutPool α) (id : CutId) : Option (Inequality α) :=
  (p.pooled? id).map PooledCut.cut

/-- The cuts in the pool with their identifiers, oldest first. -/
def toList (p : CutPool α) : List (CutId × PooledCut α) :=
  p.cuts.keys.filterMap fun id => (p.pooled? id).map fun cut => (id, cut)

/-- Inserts a cut in its normal form, with an age limit of its own. A cut without entries and a
copy of a cut in the pool are not inserted. -/
def insertWithAgeLimit (p : CutPool α) (cut : Inequality α) (ageLimit : Nat) :
    Option CutId × CutPool α :=
  let cut := cut.normalized
  if cut.entries.isEmpty then (none, p)
  else if p.toList.any fun (_, other) => other.cut.sameAs cut then (none, p)
  else
    let (id, cuts) := p.cuts.push (some ⟨cut, 0, ageLimit⟩)
    (some id, { p with cuts := cuts, events := p.events.push (.added id), size := p.size + 1 })

/-- Inserts a cut with the age limit of the pool. -/
def insert (p : CutPool α) (cut : Inequality α) : Option CutId × CutPool α :=
  p.insertWithAgeLimit cut p.ageLimit

def remove (p : CutPool α) (id : CutId) : CutPool α :=
  match p.pooled? id with
  | none => p
  | some _ =>
    { p with
      cuts := p.cuts.setIfPresent id none
      events := p.events.push (.removed id)
      size := p.size - 1 }

/-- The cut after another round in which it was used or not. -/
def aged (used : List CutId) (id : CutId) (cut : PooledCut α) : PooledCut α :=
  if used.contains id then { cut with age := 0 } else { cut with age := cut.age + 1 }

/-- Ends a round in which some cuts were used. Every other cut ages, and those above their age
limit are removed and returned. -/
def age (p : CutPool α) (used : List CutId) : List CutId × CutPool α :=
  let older := p.toList.foldl
    (fun pool (id, cut) =>
      { pool with cuts := pool.cuts.setIfPresent id (some (aged used id cut)) }) p
  let expired := (older.toList.filter fun (id, cut) =>
    !used.contains id && cut.ageLimit < cut.age).map Prod.fst
  (expired, expired.foldl remove older)

/-- Whether a cut comes before another one, given the efficacy of each. Between cuts of one efficacy
the older one does; the cuts whose efficacy is not a number come last. -/
def moreEffective (x y : α × CutId) : Bool :=
  ((Scalar.fallingOrder x.1 y.1).then (compare x.2 y.2)) != .gt

/-- The cuts which a point violates by more than a tolerance, the most effective first. -/
def violated (p : CutPool α) (point : Array α) (feastol : α) :
    Checked (List (CutId × Inequality α)) := do
  let found ← collect (fun (id, pooled) => do
    let activity ← pooled.cut.activity point
    if pooled.cut.rhs + feastol < activity then
      return some (← pooled.cut.efficacy point, id, pooled.cut)
    else return none) p.toList
  let sorted := found.mergeSort fun x y => moreEffective (x.1, x.2.1) (y.1, y.2.1)
  return sorted.map fun x => (x.2.1, x.2.2)

/-- The events from a position onwards. -/
def eventsSince (p : CutPool α) (position : Nat) : List PoolEvent :=
  p.events.toList.drop position

end CutPool

end BranchBound
