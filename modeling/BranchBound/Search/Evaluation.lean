import BranchBound.Conflict.Analysis
import BranchBound.Search.Basic

/-!
# Evaluating nodes

To evaluate the current node, its domain is propagated and its relaxation is solved, once more if
cuts were separated. The node is finished if one of the two is infeasible, if its lower bound
exceeds the cutoff, or if the solution of the relaxation is integral. Infeasibilities are analysed
and the conflicts behind them learned.
-/

namespace BranchBound

namespace Domain

variable {α : Type} [Scalar α]

/-- The value of a column in a relaxation solution within its bounds, if the column is an integer
column that is not fixed and the value is fractional. -/
def fractionalValue? (d : Domain α) (solution : RelaxationSolution α) (c : ColumnId) :
    Checked (Option (ColumnId × α)) := do
  if ← d.isFixed c then return none
  match solution.values[c]? with
  | none => return none
  | some value =>
    let value := Scalar.min (Scalar.max value (← d.boundValue .lower c)) (← d.boundValue .upper c)
    let isFractional :=
      d.feastol < value - Scalar.floor value && d.feastol < Scalar.ceil value - value
    return if isFractional then some (c, value) else none

/-- The integer columns with a fractional value in a relaxation solution. -/
def fractionalColumns (d : Domain α) (solution : RelaxationSolution α) :
    Checked (List (ColumnId × α)) :=
  collect (d.fractionalValue? solution) d.model.integerColumns

end Domain

/-- The objective value of a relaxation solution with, for every fractional column, the cheaper of
the costs of rounding it. -/
def Pseudocost.estimate {α : Type} [Scalar α] (p : Pseudocost α)
    (solution : RelaxationSolution α) (fractional : List (ColumnId × α)) : Checked α := do
  let costs ← fractional.mapM fun (c, value) => do
    let down := (← p.cost c .down) * (value - Scalar.floor value)
    let up := (← p.cost c .up) * (Scalar.ceil value - value)
    return Scalar.min down up
  return solution.objective + Scalar.sum costs

namespace SearchStep

variable {α ρ σ η τ : Type} [Scalar α] [Others α σ η τ]

/-- Changes the statistics about conflicts. -/
def changeConflictStatistics (f : ConflictStatistics → Checked ConflictStatistics) :
    SearchStep α ρ σ η τ Unit := do
  let statistics ← f (← search).conflictStatistics
  changeSearch fun s => { s with conflictStatistics := statistics }

/-- Adds a conflict to the pool. A conflict without literals shows that nothing can be improved. -/
def learn (conflict : List (BoundChange α)) : SearchStep α ρ σ η τ Unit := do
  if conflict.isEmpty then
    notify .improvementExcluded
    changeSearch fun s => { s with improvementExcluded := true }
  else
    let (added, shared) ← (← shared).learn conflict
    setShared shared
    if added then
      changeConflictStatistics fun s => return { s with
        learned := ← count 64 s.learned 1
        literals := ← count 64 s.literals conflict.length }

/-- Learns the conflicts behind the infeasibility of the domain, or of the relaxation if there is a
proof of that. -/
def analyse (proof : Option (Inequality α)) : SearchStep α ρ σ η τ Unit := do
  let d ← domain
  let pools := (← shared).pools
  let failed := changeConflictStatistics fun s =>
    return { s with failures := ← count 64 s.failures 1 }
  match ← d.conflictSet? pools proof with
  | none => failed
  | some positions =>
    let options := (← shared).options.conflicts
    let resolution ← d.computeConflicts pools positions options.maxConflictSize
      options.conflictsPerInfeasibility
    match resolution.abandoned with
    | some (size, depth) => notify (.conflictAbandoned size depth)
    | none => pure ()
    if resolution.conflicts.isEmpty then failed
    resolution.conflicts.forM learn

/-- Records how many changes were propagated after the decision that created the current node, the
first time the node is evaluated. -/
def recordInferences : SearchStep α ρ σ η τ Unit := do
  match (← search).nodes with
  | [] => return ()
  | node :: _ =>
    match node.isEvaluated, node.decision with
    | false, some decision =>
      let inferred ← uncount (← domain).log.size (node.position + 1)
      changePseudocost fun p => p.infer decision.change.column decision.direction inferred
    | _, _ => return ()

/-- Raises the lower bound of the current node to the objective value of its relaxation, and
records the gain of the decision that created it, the first time the node is evaluated. -/
def recordObjective (objective : α) : SearchStep α ρ σ η τ Unit := do
  let node ← currentNode
  changeNode fun node =>
    { node with lowerBound := Scalar.max node.lowerBound objective, isEvaluated := true }
  match node.isEvaluated, node.decision with
  | false, some decision =>
    changePseudocost fun p => p.observe decision.change.column decision.direction
      decision.distance (objective - decision.parentObjective)
  | _, _ => return ()

variable [Relaxation ρ α]

/-- The outcome of solving the relaxation of the current node: a solution, or the result of the
node. -/
abbrev Bounded (α : Type) := Except NodeResult (RelaxationSolution α)

/-- Solves the relaxation of the current node; there is no outcome after numerical trouble. -/
def resolveOnce : SearchStep α ρ σ η τ (Option (Bounded α)) := do
  match ← resolve with
  | .optimal solution =>
    changeStatistics fun s =>
      return { s with iterations := ← count 64 s.iterations solution.iterations }
    return some (.ok solution)
  | .infeasible proof =>
    analyse proof
    return some (.error .relaxationInfeasible)
  | .unbounded =>
    notify (.nodeUnbounded (← search).depth)
    return some (.error .givenUp)
  | .numericalTrouble => return none

/-- Gives the current node up after numerical trouble. -/
def giveUp (retries : Nat) : SearchStep α ρ σ η τ (Bounded α) := do
  notify (.nodeInTrouble (← search).depth retries)
  return .error .givenUp

/-- Solves the relaxation of the current node. After numerical trouble it is solved again as often
as the budget allows and the relaxation can recover. -/
def resolveNode (retries : Nat) : Nat → SearchStep α ρ σ η τ (Bounded α)
  | 0 => do
    match ← resolveOnce with
    | some outcome => return outcome
    | none => giveUp retries
  | budget + 1 => do
    match ← resolveOnce with
    | some outcome => return outcome
    | none =>
      if ← recover then
        notify (.relaxationRetried (retries + 1))
        resolveNode (retries + 1) budget
      else giveUp retries

/-- Solves the relaxation of the current node and raises its lower bound; the node is finished if
that exceeds the cutoff. -/
def boundNode : SearchStep α ρ σ η τ (Bounded α) := do
  match ← resolveNode 0 (← shared).options.retryBudget with
  | .error result => return .error result
  | .ok solution =>
    recordObjective solution.objective
    if (← shared).cutoff < solution.objective then return .error .boundExceeding
    else return .ok solution

variable [Separator σ α]

/-- Adds cuts which a relaxation solution violates to the relaxation, if the depth of the current
node is one at which cuts are separated. Returns whether there were some. -/
def separateNode (solution : RelaxationSolution α) : SearchStep α ρ σ η τ Bool := do
  if !(← shared).separation.separatesAt (← search).depth then return false
  if (← (← domain).fractionalColumns solution).isEmpty then return false
  let (violated, shared) ← (← shared).separate (← domain) solution
  setShared shared
  if violated.isEmpty then return false
  changeStatistics fun s => return { s with cuts := ← count 64 s.cuts violated.length }
  changeSearch fun s =>
    { s with relaxation := Relaxation.addCuts s.relaxation (violated.map Prod.snd) }
  return true

/-- Solves the relaxation of the current node, once more if cuts were separated. -/
def boundNodeWithCuts : SearchStep α ρ σ η τ (Bounded α) := do
  match ← boundNode with
  | .error result => return .error result
  | .ok solution =>
    if ← separateNode solution then
      if ← propagate then boundNode
      else
        analyse none
        return .error .domainInfeasible
    else return .ok solution

/-- Submits an integral relaxation solution, which solves the current node. -/
def submitIntegral (solution : RelaxationSolution α) : SearchStep α ρ σ η τ NodeResult := do
  let model := (← domain).model
  let point ← model.integerColumns.foldlM
    (fun point c => update point c fun value => .ok (Scalar.round value)) solution.values
  let shared ← shared
  if model.check point shared.options.feastol then
    let (accepted, shared) := shared.submit point (model.objectiveValue point)
    setShared shared
    changeStatistics fun s =>
      return { s with solutions := ← count 64 s.solutions accepted.toNat }
    return .boundExceeding
  else
    notify .integralPointRejected
    return .givenUp

variable [Proposer η α]

/-- Runs the heuristics on a relaxation solution, if the number of the node is one at which they
run. -/
def runHeuristics (solution : RelaxationSolution α) : SearchStep α ρ σ η τ Unit := do
  let shared ← shared
  if shared.heuristics.runsAt (← search).statistics.nodes then
    let (found, shared) ← shared.runHeuristics (← domain) solution
    setShared shared
    changeStatistics fun s => return { s with solutions := ← count 64 s.solutions found }

/-- What follows from the solution of the relaxation of the current node. -/
def concludeNode (solution : RelaxationSolution α) : SearchStep α ρ σ η τ NodeResult := do
  if solution.basis.isSome then changeNode fun node => { node with basis := solution.basis }
  runHeuristics solution
  let fractional ← (← domain).fractionalColumns solution
  if fractional.isEmpty then submitIntegral solution
  else if (← shared).cutoff < solution.objective then return .boundExceeding
  else
    let estimate ← (← search).pseudocost.estimate solution fractional
    changeNode fun node => { node with estimate := estimate }
    changeSearch fun s => { s with solution := some solution }
    return .unsolved

/-- Evaluates the current node without counting it. -/
def evaluateOnce : SearchStep α ρ σ η τ NodeResult := do
  changeSearch fun s => { s with solution := none }
  let cutoff := (← shared).cutoff
  changeDomain fun d => return d.setObjectiveCutoff cutoff
  let isFeasible ← propagate
  recordInferences
  if !isFeasible then
    analyse none
    return .domainInfeasible
  if (← shared).cutoff < (← currentNode).lowerBound then return .boundExceeding
  match ← boundNodeWithCuts with
  | .error result => return result
  | .ok solution => concludeNode solution

variable [StopCondition τ]

/-- Evaluates the current node: counts it, propagates its domain and solves its relaxation. -/
def evaluate : SearchStep α ρ σ η τ NodeResult := do
  let depth := (← search).depth
  changeStatistics fun s => return { s with
    nodes := ← count 64 s.nodes 1
    maxDepth := max s.maxDepth depth }
  changeSearch fun s => { s with plungeNodes := s.plungeNodes + 1 }
  let shared ← shared
  setShared { shared with condition := shared.condition.nodeProcessed }
  let result ← evaluateOnce
  if result.isPruned then prune result else return result

end SearchStep

end BranchBound
