import BranchBound.Action
import BranchBound.Domain.Tightening
import BranchBound.Options
import BranchBound.Pool.Cut
import BranchBound.Relaxation.Basic

/-!
# Separation of cuts

A separator returns inequalities which every solution within the global bounds satisfies and
which, if possible, the solution of the relaxation violates. Their coefficients are tightened and
they go into the cut pool, from which the violated ones are taken.
-/

namespace BranchBound

/-- A generator of cuts. -/
class Separator (σ : Type) (α : outParam Type) where
  name : σ → String
  separate : σ → Domain α → RelaxationSolution α → List (Inequality α) × σ

/-- A list of rounds of cuts, one of which is returned in every call as long as there are some. -/
structure CutList (α : Type) where
  name : String
  rounds : List (List (Inequality α))
  /-- The number of calls so far. -/
  calls : Nat
  deriving Repr

instance {α : Type} : Separator (CutList α) α where
  name := CutList.name
  separate list _ _ :=
    (list.rounds.headD [], { list with rounds := list.rounds.tail, calls := list.calls + 1 })

/-- The separators of a solve. -/
structure SeparationManager (α σ : Type) where
  separators : List σ
  options : SeparationOptions α
  feastol : α
  deriving Repr

/-- What separation works on. -/
structure SeparationState (α σ : Type) where
  manager : SeparationManager α σ
  pool : CutPool α

/-- The outcome of a round of separation. -/
structure SeparationRound (α : Type) where
  /-- The number of cuts that were new to the pool. -/
  inserted : Nat
  /-- The cuts of the pool which the relaxation solution violates, the most effective first. -/
  violated : List (CutId × Inequality α)
  deriving Repr

namespace SeparationManager

variable {α σ : Type} [Scalar α] [Separator σ α]

def add (m : SeparationManager α σ) (separator : σ) : SeparationManager α σ :=
  { m with separators := m.separators ++ [separator] }

/-- Whether cuts are separated at a depth. -/
def separatesAt (m : SeparationManager α σ) (depth : Nat) : Bool :=
  0 < depth && 0 < m.options.nodeFrequency && depth % m.options.nodeFrequency == 0

/-- Tightens a cut and inserts it into the pool. Returns the number of cuts inserted so far. -/
def insertCut (d : Domain α) (inserted : Nat) (cut : Inequality α) :
    Action (SeparationState α σ) Nat := do
  let (_, tightened) ← d.tighten cut
  let (id, pool) := (← get).pool.insert tightened
  modify fun s => { s with pool := pool }
  return inserted + id.isSome.toNat

/-- Runs the separator at a position and pools its cuts. -/
def runSeparator (d : Domain α) (solution : RelaxationSolution α) (inserted position : Nat) :
    Action (SeparationState α σ) Nat := do
  match (← get).manager.separators[position]? with
  | none => return inserted
  | some separator =>
    let (cuts, separator) := Separator.separate separator d solution
    modify fun s =>
      { s with manager.separators := s.manager.separators.set position separator }
    cuts.foldlM (insertCut d) inserted

/-- Runs one round of every separator over a domain and its relaxation solution. -/
def separate (d : Domain α) (solution : RelaxationSolution α) :
    Action (SeparationState α σ) (SeparationRound α) := do
  let count := (← get).manager.separators.length
  let inserted ← (List.range count).foldlM (runSeparator d solution) 0
  let s ← get
  return ⟨inserted, ← s.pool.violated solution.values s.manager.feastol⟩

end SeparationManager

end BranchBound
