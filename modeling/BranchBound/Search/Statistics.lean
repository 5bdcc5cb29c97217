import BranchBound.Fault
import BranchBound.Number.Scalar
import BranchBound.Statistics.Sink

/-!
# Statistics of a search

Counters of what a search did since they were last taken. Every counter has 64 binary digits; one
that would need more is a fault.
-/

namespace BranchBound

/-- What a search did. -/
structure SearchStatistics where
  /-- The number of evaluated nodes. -/
  nodes : Nat
  /-- The number of nodes finished without branching. -/
  leaves : Nat
  /-- The number of nodes finished because their bound exceeded the cutoff. -/
  boundExceeding : Nat
  /-- The number of nodes given up. -/
  givenUp : Nat
  /-- The iterations of the relaxation. -/
  iterations : Nat
  /-- The number of relaxations solved by strong branching. -/
  strongBranchings : Nat
  /-- The number of cuts added to the relaxation. -/
  cuts : Nat
  /-- The number of solutions found. -/
  solutions : Nat
  /-- The depth of the deepest evaluated node. -/
  maxDepth : Nat
  deriving DecidableEq, Repr

namespace SearchStatistics

def zero : SearchStatistics := ⟨0, 0, 0, 0, 0, 0, 0, 0, 0⟩

/-- What two searches did together. -/
def merge (s t : SearchStatistics) : Checked SearchStatistics := do
  return {
    nodes := ← count 64 s.nodes t.nodes
    leaves := ← count 64 s.leaves t.leaves
    boundExceeding := ← count 64 s.boundExceeding t.boundExceeding
    givenUp := ← count 64 s.givenUp t.givenUp
    iterations := ← count 64 s.iterations t.iterations
    strongBranchings := ← count 64 s.strongBranchings t.strongBranchings
    cuts := ← count 64 s.cuts t.cuts
    solutions := ← count 64 s.solutions t.solutions
    maxDepth := max s.maxDepth t.maxDepth }

/-- The statistics by name. -/
def listing {α : Type} (s : SearchStatistics) : StatisticList α :=
  [("num_nodes", .count s.nodes), ("num_leaves", .count s.leaves),
    ("num_bound_exceeding", .count s.boundExceeding), ("num_suboptimal", .count s.givenUp),
    ("lp_iterations", .count s.iterations),
    ("num_strong_branching_lps", .count s.strongBranchings), ("num_cuts_added", .count s.cuts),
    ("num_solutions", .count s.solutions), ("max_depth", .count s.maxDepth)]

end SearchStatistics

/-- What a search learned from infeasibilities. -/
structure ConflictStatistics where
  /-- The number of conflicts added to the pool. -/
  learned : Nat
  /-- The number of analyses without a conflict. -/
  failures : Nat
  /-- The number of literals of all learned conflicts. -/
  literals : Nat
  deriving DecidableEq, Repr

namespace ConflictStatistics

def zero : ConflictStatistics := ⟨0, 0, 0⟩

/-- What two searches learned together. -/
def merge (s t : ConflictStatistics) : Checked ConflictStatistics := do
  return {
    learned := ← count 64 s.learned t.learned
    failures := ← count 64 s.failures t.failures
    literals := ← count 64 s.literals t.literals }

variable {α : Type} [Scalar α]

/-- The average number of literals of a learned conflict, zero without conflicts. -/
def averageSize (s : ConflictStatistics) : α :=
  if 0 < s.learned then Scalar.ofCount s.literals / Scalar.ofCount s.learned else 0

/-- The statistics by name. -/
def listing (s : ConflictStatistics) : StatisticList α :=
  [("num_conflicts_learned", .count s.learned), ("num_failed_analyses", .count s.failures),
    ("average_conflict_size", .quantity s.averageSize)]

end ConflictStatistics

end BranchBound
