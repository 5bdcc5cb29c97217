import BranchBound.Search.Traversal
import BranchBound.Solver.Statistics

/-!
# Exploring the tree

The open nodes of a solve are in a queue. In every round each worker takes a node and explores its
subtree; what it suspends goes back into the queue. The rounds end when the queue is empty, when
the gap is closed, when a conflict shows that nothing can be improved, when too many nodes are
open, or when the condition of the solve asks to stop.
-/

namespace BranchBound

/-- The state of exploring a tree. -/
structure TreeState (α ρ σ η τ : Type) where
  shared : Shared α σ η τ
  queue : NodeQueue α
  workers : List (Search α ρ)
  statistics : SolverStatistics
  /-- The smallest lower bound of a node that was given up. -/
  givenUpBound : α
  improvementExcluded : Bool
  /-- The number of nodes at which progress is noted next. -/
  nextProgress : Nat
  /-- The status of a search that was stopped. -/
  stopped : Option Status

namespace TreeState

variable {α ρ σ η τ : Type} [Scalar α]

/-- Adds a notice to the journal. -/
def notify (t : TreeState α ρ σ η τ) (notice : Notice α) : TreeState α ρ σ η τ :=
  { t with shared := t.shared.notify [notice] }

/-- A bound that no solution of an open node or of a node that was given up is better than. -/
def openBound (t : TreeState α ρ σ η τ) : α := Scalar.min t.queue.minLowerBound t.givenUpBound

/-- A bound that no solution is better than. -/
def dualBound (t : TreeState α ρ σ η τ) : α :=
  Scalar.min t.openBound t.shared.incumbent.objective

/-- Takes a node from the queue for each of some workers. -/
def takeNodes (queue : NodeQueue α) : List (Search α ρ) →
    List (Search α ρ × Option (OpenNode α)) × NodeQueue α
  | [] => ([], queue)
  | worker :: rest =>
    let (node, queue) := queue.pop
    let (rest, queue) := takeNodes queue rest
    ((worker, node) :: rest, queue)

/-- Takes back what a worker suspended, and counts what it did. -/
def collectWorker (t : TreeState α ρ σ η τ) (worker : Search α ρ)
    (suspended : List (OpenNode α)) : Checked (TreeState α ρ σ η τ) := do
  let queue ← suspended.foldlM (fun queue node => return (← queue.push node).2) t.queue
  return { t with
    queue := queue
    workers := t.workers ++ [worker.resetStatistics]
    statistics := { t.statistics with
      search := ← t.statistics.search.merge worker.statistics
      conflicts := ← t.statistics.conflicts.merge worker.conflictStatistics }
    givenUpBound := Scalar.min t.givenUpBound worker.givenUpBound
    improvementExcluded := t.improvementExcluded || worker.improvementExcluded }

/-- Notes the progress if enough nodes were evaluated since the last time. -/
def noteProgress (t : TreeState α ρ σ η τ) : Checked (TreeState α ρ σ η τ) := do
  let frequency := t.shared.options.logFrequency
  let nodes := t.statistics.nodes
  if 0 < frequency && t.nextProgress ≤ nodes then
    let primalBound := t.shared.incumbent.objective
    let gap := Gap.relative primalBound t.dualBound
    return { t with nextProgress := ← count 64 nodes frequency }.notify
      (.progressed nodes t.queue.size t.dualBound primalBound gap)
  else return t

variable [Others α σ η τ] [Relaxation ρ α] [Separator σ α] [Proposer η α] [StopCondition τ]

/-- Lets a worker explore the subtree of a node. Returns the worker and the nodes it suspended. The
others may go on after it. -/
def explore (shared : Shared α σ η τ) (worker : Search α ρ) :
    Option (OpenNode α) → Checked (Search α ρ × List (OpenNode α) × Shared α σ η τ)
  | none => .ok (worker, [], shared)
  | some node =>
    let step : SearchStep α ρ σ η τ (List (OpenNode α)) := do
      SearchStep.install node
      let suspended ← SearchStep.solveDepthFirst
      SearchStep.yield
      return suspended
    match step.run.run ⟨worker, shared⟩ with
    | (.ok suspended, state) => .ok (state.search, suspended, state.shared)
    | (.error fault, _) => .error fault

/-- Lets workers explore their nodes. They do so at the same time: the order of the list is that in
which they are written down, and what each of them finds of the work of the others, earlier and
later ones, is up to the turns of `Others`. -/
def exploreAll (shared : Shared α σ η τ) : List (Search α ρ × Option (OpenNode α)) →
    Checked (List (Search α ρ × List (OpenNode α)) × Shared α σ η τ)
  | [] => .ok ([], shared)
  | (worker, node) :: rest => do
    let (worker, suspended, shared) ← explore shared worker node
    let (rest, shared) ← exploreAll shared rest
    return ((worker, suspended) :: rest, shared)

/-- Gives the workers nodes, lets them explore, and takes back what they suspended. -/
def runRound (t : TreeState α ρ σ η τ) : Checked (TreeState α ρ σ η τ) := do
  let (assigned, queue) := takeNodes t.queue t.workers
  let (explored, shared) ← exploreAll t.shared assigned
  let start := { t with queue := queue, workers := [], shared := shared }
  explored.foldlM (fun t (worker, suspended) => t.collectWorker worker suspended) start

/-- Whether the search goes on, and the state in which it does. -/
def continues (t : TreeState α ρ σ η τ) : Bool × TreeState α ρ σ η τ :=
  let (stop, condition) := t.shared.condition.shouldStop
  let t := { t with shared := { t.shared with condition := condition } }
  if stop then (false, { t with stopped := some condition.status })
  else
    let t := { t with queue := (t.queue.prune t.shared.cutoff).2 }
    if t.queue.isEmpty then (false, t)
    else if Gap.isClosed t.shared.options t.shared.incumbent.objective t.openBound then (false, t)
    else if t.shared.options.maxOpenNodes < t.queue.size then
      (false, { t with stopped := some .memoryLimit }.notify (.tooManyOpenNodes t.queue.size))
    else (true, t)

/-- Runs at most a given number of rounds. Every round evaluates a node or is the last one. -/
def runWithin (t : TreeState α ρ σ η τ) : Nat → Checked (TreeState α ρ σ η τ)
  | 0 => .error .counterOverflow
  | rounds + 1 => do
    match t.continues with
    | (false, t) => return t
    | (true, t) =>
      let t ← t.runRound
      if t.improvementExcluded then
        return { t with queue := t.queue.clear }.notify .openNodesDropped
      else
        let t ← { t with shared := ← t.shared.ageConflicts }.noteProgress
        runWithin t rounds

/-- Runs rounds until there is nothing left to explore or the search is stopped. -/
def run (t : TreeState α ρ σ η τ) : Checked (TreeState α ρ σ η τ) :=
  t.runWithin (SearchStep.nodeLimit + 1)

end TreeState

end BranchBound
