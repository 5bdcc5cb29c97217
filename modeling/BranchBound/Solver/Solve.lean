import BranchBound.Solver.Root
import BranchBound.Solver.Tree
import BranchBound.Symmetry

/-!
# Solving a model

A `Solver` holds a model with its relaxation, the options, and the separators and heuristics of
the user. It is made by `Solver.ofModel`, which refuses options without a meaning and a relaxation
that does not fit the model.

A solve propagates the model, processes the root, uses the symmetries of the model, and explores
the tree below the root. It ends with a status, the best solution found, and a bound that no
solution is better than.
-/

namespace BranchBound

/-- Why there is no solver. -/
inductive SolverError where
  | invalidOption (option : InvalidOption)
  /-- The relaxation and the model have different numbers of columns. -/
  | relaxationMismatch (relaxation model : Nat)
  deriving DecidableEq, Repr

/-- The message of an error. -/
def SolverError.message : SolverError → String
  | invalidOption option => option.message
  | relaxationMismatch relaxation model =>
    s!"the relaxation has {relaxation} columns but the model has {model}"

/-- The outcome of a solve. -/
structure SolveResult (α : Type) where
  status : Status
  /-- The best solution found. -/
  solution : Option (Array α)
  /-- The objective value of the solution, infinite if there is none. -/
  objective : α
  /-- A lower bound on the objective value of every solution. -/
  dualBound : α
  statistics : SolverStatistics
  deriving Repr

/-- The gap between the objective value and the dual bound. -/
def SolveResult.gap {α : Type} [Scalar α] (r : SolveResult α) : α :=
  Gap.relative r.objective r.dualBound

/-- A solver over relaxations `ρ`, separators `σ` and heuristics `η`. -/
structure Solver (α ρ σ η : Type) where
  model : Model α
  relaxation : ρ
  options : Options α
  separation : SeparationManager α σ
  heuristics : HeuristicManager α η
  /-- Finds generators of a symmetry group of the model. -/
  detectSymmetry : Option (Model α → List (List ColumnId))
  /-- The source of random decisions for every seed. -/
  coin : UInt64 → Coin
  /-- What the last solve did. -/
  statistics : SolverStatistics

namespace Solver

variable {α ρ σ η : Type} [Scalar α]

/-- A solver with simple rounding as its only heuristic. -/
def ofModel [Relaxation ρ α] (model : Model α) (relaxation : ρ) (options : Options α)
    (coin : UInt64 → Coin := Generator.coin) : Except SolverError (Solver α ρ σ η) :=
  match options.validate with
  | some option => .error (.invalidOption option)
  | none =>
    let columns := Relaxation.columnCount relaxation
    if columns != model.columnCount then .error (.relaxationMismatch columns model.columnCount)
    else
      .ok { model := model
            relaxation := relaxation
            options := options
            separation := ⟨[], options.separation, options.feastol⟩
            heuristics :=
              ⟨[.rounding options.feastol], options.separation.heuristicFrequency, options.feastol⟩
            detectSymmetry := none
            coin := coin
            statistics := .zero }

def addSeparator (s : Solver α ρ σ η) (separator : σ) : Solver α ρ σ η :=
  { s with separation := { s.separation
    with separators := s.separation.separators ++ [separator] } }

def addHeuristic (s : Solver α ρ σ η) (heuristic : Heuristic α η) : Solver α ρ σ η :=
  { s with
    heuristics := { s.heuristics with heuristics := s.heuristics.heuristics ++ [heuristic] } }

end Solver

/-- A solve that has ended. -/
structure SolveOutcome (α ρ σ η : Type) where
  result : SolveResult α
  /-- The solver, ready for another solve. -/
  solver : Solver α ρ σ η
  /-- The copies of the relaxation that the workers used. -/
  copies : List ρ
  journal : Array (Notice α)

namespace Solver

variable {α ρ σ η τ : Type} [Scalar α]

/-- What the searches of a solve share at its beginning. -/
def initialShared (s : Solver α ρ σ η) (condition : τ) : Shared α σ η τ :=
  let start : Shared α σ η τ := .initial s.options s.model.integralObjective condition
  { start with separation := s.separation, heuristics := s.heuristics }

/-- The domain of a model that propagates the pools of a solve. -/
def initialDomain (s : Solver α ρ σ η) : Checked (Domain α) := do
  let d ← Domain.ofModel s.model s.options.feastol
  let (_, d) := d.attachCuts 0
  return (d.attachConflicts 0).2

/-- Ends a solve. -/
def finish (s : Solver α ρ σ η) (relaxation : ρ) (copies : List ρ) (shared : Shared α σ η τ)
    (statistics : SolverStatistics) (status : Status) (dualBound : α) :
    SolveOutcome α ρ σ η :=
  let objective := shared.incumbent.objective
  { result := ⟨status, shared.incumbent.solution, objective, dualBound, statistics⟩
    solver := { s with
      relaxation := relaxation
      separation := shared.separation
      heuristics := shared.heuristics
      statistics := statistics }
    copies := copies
    journal := (shared.notify [.finished status statistics.nodes objective dualBound]).journal }

/-- Ends a solve that did not get beyond the root. -/
def finishAtRoot (s : Solver α ρ σ η) (root : RootState α ρ σ η τ) (notice : Notice α)
    (status : Status) (dualBound : α) : SolveOutcome α ρ σ η :=
  s.finish root.relaxation [] (root.shared.notify [notice])
    { SolverStatistics.zero with root := root.statistics } status dualBound

/-- Fixes columns by the symmetries of the model and propagates. Returns whether the domain is
still feasible. -/
def useSymmetry (generators : List (List ColumnId)) : RootStep α ρ σ η τ Bool := do
  let symmetry := Symmetry.ofGenerators (← get).domain.columnCount generators
  RootStep.notify (.symmetriesFound symmetry.generators.length symmetry.orbits.length)
  let (fixed, d) ← symmetry.orbitalFixing (← get).domain
  RootStep.changeDomain fun _ => .ok d
  if 0 < fixed then RootStep.notify (.orbitsFixed fixed)
  RootStep.changeStatistics fun s => return { s with orbitalFixings := fixed }
  RootStep.propagate

/-- The status of a solve whose tree was explored. -/
def statusOf (t : TreeState α ρ σ η τ) : Status :=
  match t.stopped with
  | some status => status
  | none =>
    let isProved := t.givenUpBound == Scalar.infinity ||
      Gap.isClosed t.shared.options t.shared.incumbent.objective t.givenUpBound
    if !isProved then .interrupted
    else if t.shared.incumbent.hasSolution then .optimal
    else .infeasible

/-- Ends a solve whose tree was explored. Nothing was lost by giving nodes up if nothing can be
improved. -/
def finishTree (s : Solver α ρ σ η) (relaxation : ρ) (t : TreeState α ρ σ η τ) :
    SolveOutcome α ρ σ η :=
  let t := if t.improvementExcluded then { t with givenUpBound := Scalar.infinity } else t
  let t :=
    if t.givenUpBound < Scalar.infinity then
      t.notify (.nodesGivenUp t.statistics.search.givenUp t.givenUpBound)
    else t
  s.finish relaxation (t.workers.map Search.relaxation) t.shared t.statistics (statusOf t)
    t.dualBound

variable [Relaxation ρ α]

/-- Searches over copies of a domain and of the relaxation, each with a seed of its own. -/
def makeWorkers (options : Options α) (d : Domain α) (coin : UInt64 → Coin) (seed : UInt64)
    (relaxation : ρ) : Nat → List (Search α ρ) × ρ
  | 0 => ([], relaxation)
  | workers + 1 =>
    let (relaxation, copy) := Relaxation.fork relaxation
    let (rest, relaxation) := makeWorkers options d coin (seed + 1) relaxation workers
    (Search.ofDomain d copy options seed coin :: rest, relaxation)

/-- The tree below a processed root, with the relaxation from which its workers have copies. -/
def treeBelow (s : Solver α ρ σ η) (root : RootState α ρ σ η τ)
    (solution : Option (RelaxationSolution α)) : Checked (TreeState α ρ σ η τ × ρ) := do
  let bound := solution.elim (-Scalar.infinity) RelaxationSolution.objective
  let shared := { root.shared with
    rootSolution := solution.elim #[] RelaxationSolution.values }.notify
      [.rootFinished bound root.shared.incumbent.objective
        (← root.shared.pools.cutPool root.shared.cutPool).size root.statistics.cliques]
  let (_, queue) ← NodeQueue.empty.push (.root bound (solution.bind RelaxationSolution.basis))
  let (workers, relaxation) :=
    makeWorkers s.options root.domain s.coin s.options.randomSeed root.relaxation s.options.threads
  return (
    { shared := shared
      queue := queue
      workers := workers
      statistics := { SolverStatistics.zero with root := root.statistics }
      givenUpBound := Scalar.infinity
      improvementExcluded := false
      nextProgress := s.options.logFrequency
      stopped := none }, relaxation)

variable [Others α σ η τ] [Separator σ α] [Proposer η α] [StopCondition τ]

/-- Explores the tree below a processed root. -/
def solveTree (s : Solver α ρ σ η) (root : RootState α ρ σ η τ)
    (solution : Option (RelaxationSolution α)) : Checked (SolveOutcome α ρ σ η) := do
  let (tree, relaxation) ← s.treeBelow root solution
  return s.finishTree relaxation (← tree.run)

/-- Solves the model until the gap is closed, infeasibility is proved, or the condition stops the
search. -/
def solve (s : Solver α ρ σ η) (condition : τ) : Checked (SolveOutcome α ρ σ η) := do
  let root : RootState α ρ σ η τ :=
    ⟨← s.initialDomain, s.relaxation, s.initialShared condition, .zero⟩
  let (isFeasible, root) ← RootStep.propagate.run root
  if !isFeasible then
    return s.finishAtRoot root .infeasibleByRootPropagation .infeasible Scalar.infinity
  let (result, root) ← RootStep.process.run root
  match result with
  | .infeasible => return s.finishAtRoot root .infeasibleRoot .infeasible Scalar.infinity
  | .unbounded => return s.finishAtRoot root .unboundedRoot .unbounded (-Scalar.infinity)
  | .processed solution =>
    match if s.options.symmetry then s.detectSymmetry else none with
    | none => s.solveTree root solution
    | some detect =>
      let (isFeasible, root) ← (useSymmetry (detect s.model)).run root
      if isFeasible then s.solveTree root solution
      else return s.finishAtRoot root .infeasibleByOrbitalFixing .infeasible Scalar.infinity

end Solver

end BranchBound
