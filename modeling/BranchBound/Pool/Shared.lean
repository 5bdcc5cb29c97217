import BranchBound.Pool.Conflict
import BranchBound.Pool.Cut

/-!
# Pools shared by domains

Several domains may propagate the cuts and conflicts of one pool. The pools therefore live outside
of the domains, which refer to them by position and pass them along.
-/

namespace BranchBound

/-- The position of a pool among the shared pools of its kind. -/
abbrev PoolId := Nat

/-- The pools which domains and searches share. -/
structure Pools (α : Type) where
  cuts : Array (CutPool α)
  conflicts : Array (ConflictPool α)
  deriving Repr

namespace Pools

variable {α : Type}

def empty : Pools α := ⟨#[], #[]⟩

instance : Inhabited (Pools α) := ⟨empty⟩

def cutPool (p : Pools α) (id : PoolId) : Checked (CutPool α) := fetch p.cuts id

def conflictPool (p : Pools α) (id : PoolId) : Checked (ConflictPool α) := fetch p.conflicts id

/-- Changes a cut pool, with a result. -/
def onCuts {β : Type} (p : Pools α) (id : PoolId) (f : CutPool α → β × CutPool α) :
    Checked (β × Pools α) := do
  let (result, pool) := f (← p.cutPool id)
  return (result, { p with cuts := ← store p.cuts id pool })

/-- Changes a conflict pool, with a result. -/
def onConflicts {β : Type} (p : Pools α) (id : PoolId)
    (f : ConflictPool α → β × ConflictPool α) : Checked (β × Pools α) := do
  let (result, pool) := f (← p.conflictPool id)
  return (result, { p with conflicts := ← store p.conflicts id pool })

end Pools

end BranchBound
