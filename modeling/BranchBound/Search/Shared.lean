import BranchBound.Domain.Propagation
import BranchBound.Heuristic
import BranchBound.Notice
import BranchBound.Separation
import BranchBound.Termination

/-!
# What searches share

The searches of a solve have domains and relaxations of their own. They share the options, the
incumbent, the pools, the separators and heuristics, the condition that may stop them, and the
journal of notices. Each of them works on what is shared as a whole, one operation at a time, and
the others may have changed it in the meantime.
-/

namespace BranchBound

/-- What the searches of a solve share, with the separators `σ`, the heuristics `η` and the
condition `τ` of the user. -/
structure Shared (α σ η τ : Type) where
  options : Options α
  /-- The solution of the relaxation at the root. -/
  rootSolution : Array α
  pools : Pools α
  /-- The pool into which separated cuts go. -/
  cutPool : PoolId
  /-- The pool into which learned conflicts go. -/
  conflictPool : PoolId
  incumbent : Incumbent α
  separation : SeparationManager α σ
  heuristics : HeuristicManager α η
  condition : SharedCondition τ
  journal : Array (Notice α)
  /-- The number of turns of other searches, as far as they count them. -/
  turns : Nat

/-- What other searches of the solve do to what is shared in between. Searches run at the same
time: one that looks at what is shared finds it as the others left it. Nothing is said about what
they do, and it may differ from turn to turn, so every way to interleave the searches is a case. -/
class Others (α σ η τ : Type) where
  turn : Shared α σ η τ → Shared α σ η τ

/-- A search on its own finds what it left. -/
instance Others.none {α σ η τ : Type} : Others α σ η τ := ⟨fun s => s⟩

namespace Shared

variable {α σ η τ : Type} [Scalar α]

/-- What the searches of a solve share at its beginning: empty pools, no incumbent, no separators
and no heuristics. -/
def initial (options : Options α) (integralObjective : Bool) (condition : τ) :
    Shared α σ η τ :=
  { options := options
    rootSolution := #[]
    pools :=
      { cuts := #[.empty options.separation.cutAgeLimit]
        conflicts := #[.empty options.conflicts.ageLimit options.conflicts.softLimit] }
    cutPool := 0
    conflictPool := 0
    incumbent := .empty integralObjective options.feastol
    separation := ⟨[], options.separation, options.feastol⟩
    heuristics := ⟨[], 1, options.feastol⟩
    condition := .ofCondition condition
    journal := #[]
    turns := 0 }

/-- Adds notices to the journal. -/
def notify (s : Shared α σ η τ) (notices : List (Notice α)) : Shared α σ η τ :=
  { s with journal := s.journal ++ notices }

/-- Notes what was logged in a domain since an earlier state of it. -/
def report (s : Shared α σ η τ) (before after : Domain α) : Shared α σ η τ :=
  s.notify (Notice.ofDomains before after)

/-- Propagates a domain over the shared pools. -/
def propagate (s : Shared α σ η τ) (d : Domain α) : Checked (Shared α σ η τ × Domain α) := do
  let (pools, after) ← d.propagate s.pools
  return ({ s with pools := pools }.report d after, after)

/-- Submits a point to the incumbent. The flag says whether it was an improvement. -/
def submit (s : Shared α σ η τ) (point : Array α) (objective : α) : Bool × Shared α σ η τ :=
  let (accepted, incumbent) := s.incumbent.tryUpdate point objective
  let s := { s with incumbent := incumbent }
  (accepted, if accepted then s.notify [.incumbentImproved objective] else s)

/-- Runs the heuristics on a relaxation solution. Returns the number of improvements. -/
def runHeuristics [Proposer η α] (s : Shared α σ η τ) (d : Domain α)
    (solution : RelaxationSolution α) : Checked (Nat × Shared α σ η τ) := do
  let (improvements, incumbent, heuristics) ← s.heuristics.run d solution s.incumbent
  let notices := improvements.flatMap fun i =>
    [.incumbentImproved i.objective, .heuristicSucceeded i.heuristic i.objective]
  return (improvements.length,
    { s with incumbent := incumbent, heuristics := heuristics }.notify notices)

/-- Separates a relaxation solution. Returns the cuts of the pool which it violates. -/
def separate [Separator σ α] (s : Shared α σ η τ) (d : Domain α)
    (solution : RelaxationSolution α) :
    Checked (List (CutId × Inequality α) × Shared α σ η τ) := do
  let (round, after) ← (SeparationManager.separate d solution).finish
    ⟨s.separation, ← s.pools.cutPool s.cutPool⟩
  let s := { s with
    separation := after.manager
    pools := { s.pools with cuts := ← store s.pools.cuts s.cutPool after.pool } }
  let isNoted := 0 < round.inserted || !round.violated.isEmpty
  return (round.violated,
    if isNoted then s.notify [.cutsSeparated round.inserted round.violated.length] else s)

/-- Adds a learned conflict to the pool. The flag says whether it was added. -/
def learn (s : Shared α σ η τ) (conflict : List (BoundChange α)) :
    Checked (Bool × Shared α σ η τ) := do
  let (id, pools) ← s.pools.onConflicts s.conflictPool fun pool => pool.add conflict
  return (id.isSome, { s with pools := pools })

/-- Ends a round in which some cuts were used. -/
def ageCuts (s : Shared α σ η τ) (used : List CutId) : Checked (Shared α σ η τ) := do
  let (expired, pools) ← s.pools.onCuts s.cutPool fun pool => pool.age used
  let s := { s with pools := pools }
  return if expired.isEmpty then s else s.notify [.cutsExpired expired.length]

/-- Ages the learned conflicts. -/
def ageConflicts (s : Shared α σ η τ) : Checked (Shared α σ η τ) := do
  let (expired, pools) ← s.pools.onConflicts s.conflictPool ConflictPool.age
  let s := { s with pools := pools }
  return if expired.isEmpty then s else s.notify [.conflictsExpired expired.length]

/-- The largest objective value that is still of interest. -/
def cutoff (s : Shared α σ η τ) : α := s.incumbent.cutoff

end Shared

end BranchBound
