import BranchBound.Options
import BranchBound.Search.Statistics

/-!
# Statistics of a solve

What the root and the searches of a solve did together, and the lines in which that is written.
-/

namespace BranchBound

/-- What was done at the root. -/
structure RootStatistics where
  separationRounds : Nat
  /-- The number of violated cuts found by separation. -/
  cuts : Nat
  iterations : Nat
  /-- The number of cliques found in the rows. -/
  cliques : Nat
  /-- The number of columns fixed by probing. -/
  probingFixings : Nat
  /-- The number of columns fixed by orbital fixing. -/
  orbitalFixings : Nat
  /-- The number of solutions found by the heuristics. -/
  solutions : Nat
  deriving DecidableEq, Repr

namespace RootStatistics

def zero : RootStatistics := ⟨0, 0, 0, 0, 0, 0, 0⟩

/-- The statistics by name. -/
def listing {α : Type} (s : RootStatistics) : StatisticList α :=
  [("num_separation_rounds", .count s.separationRounds), ("num_cuts_added", .count s.cuts),
    ("lp_iterations", .count s.iterations), ("num_cliques", .count s.cliques),
    ("num_probing_fixings", .count s.probingFixings),
    ("num_orbital_fixings", .count s.orbitalFixings),
    ("num_heuristic_solutions", .count s.solutions)]

end RootStatistics

/-- What a solve did. -/
structure SolverStatistics where
  search : SearchStatistics
  conflicts : ConflictStatistics
  root : RootStatistics
  deriving DecidableEq, Repr

namespace SolverStatistics

def zero : SolverStatistics := ⟨.zero, .zero, .zero⟩

/-- The number of evaluated nodes. -/
def nodes (s : SolverStatistics) : Nat := s.search.nodes

/-- The iterations of the relaxation at the root and below. -/
def iterations (s : SolverStatistics) : Checked Nat :=
    count 64 s.search.iterations s.root.iterations

/-- The statistics by name: four that sum a solve up and, if asked for, all others. -/
def listing {α : Type} [Scalar α] (s : SolverStatistics) (isVerbose : Bool) :
    Checked (StatisticList α) := do
  let summary : StatisticList α :=
    [("nodes", .count s.nodes), ("lpIterations", .count (← s.iterations)),
      ("conflicts", .count s.conflicts.learned), ("cuts", .count s.root.cuts)]
  let details : StatisticList α :=
    s.search.listing.under "search" ++ s.conflicts.listing.under "conflicts" ++
      s.root.listing.under "root"
  return if isVerbose then summary ++ details else summary

end SolverStatistics

/-! ### Gaps

The gap is the distance between the objective value of the incumbent and the dual bound, which no
solution is better than. -/

namespace Gap

variable {α : Type} [Scalar α]

/-- The gap in relation to the objective value; infinite if one of the two is not known. -/
def relative (primal dual : α) : α :=
  if primal == Scalar.infinity || dual == -Scalar.infinity then Scalar.infinity
  else Scalar.max ((primal - dual) / Scalar.max (Scalar.abs primal) 1) 0

/-- Whether the gap is within the tolerances of the options. -/
def isClosed (o : Options α) (primal dual : α) : Bool :=
  primal < Scalar.infinity &&
    (primal - dual ≤ o.absoluteGap || relative primal dual ≤ o.relativeGap)

end Gap

end BranchBound
