import BranchBound.Search.Evaluation

/-!
# Branching

The current node is branched on a fractional column of its relaxation solution. The column is
chosen by pseudocosts; columns whose pseudocosts are not reliable yet are tried first by strong
branching, which solves the relaxations of both children. A column with an infeasible child is not
branched on: the bound of the other child holds in the node, which is evaluated again.
-/

namespace BranchBound

/-- A fractional column with its score. -/
structure Candidate (α : Type) where
  score : α
  column : ColumnId
  value : α
  deriving Repr

namespace Candidate

variable {α : Type} [Scalar α]

/-- Whether a candidate comes before another one: those with a higher score do, and then those with
a smaller column. -/
def comesBefore (x y : Candidate α) : Bool :=
  ((Scalar.fallingOrder x.score y.score).then (compare x.column y.column)) != .gt

end Candidate

namespace Pseudocost

variable {α : Type} [Scalar α]

/-- Fractional columns with their scores, the best one first. -/
def rank (p : Pseudocost α) (fractional : List (ColumnId × α)) : Checked (List (Candidate α)) := do
  let scored ← fractional.mapM fun (c, value) => do
    let score ← p.score c (value - Scalar.floor value) (Scalar.ceil value - value)
    return Candidate.mk score c value
  return scored.mergeSort Candidate.comesBefore

/-- The estimate of a child: that of its parent, in which the cheaper rounding of the branching
column is replaced by the rounding of the child. -/
def childEstimate (p : Pseudocost α) (parentEstimate : α) (decision : Decision α) :
    Checked α := do
  let c := decision.change.column
  let downDistance := match decision.direction with
    | .down => decision.distance
    | .up => 1 - decision.distance
  let down := (← p.cost c .down) * downDistance
  let up := (← p.cost c .up) * (1 - downDistance)
  let chosen := match decision.direction with
    | .down => down
    | .up => up
  return parentEstimate - Scalar.min down up + chosen

/-- The number of inferences in relation to the cost, for a child at a distance. -/
def hybridScore (p : Pseudocost α) (weight : α) (c : ColumnId) (direction : Direction)
    (distance : α) : Checked α := do
  return (1 + (← p.inferenceRate c direction)) / (1 + weight * ((← p.cost c direction) * distance))

end Pseudocost

/-- What strong branching tells of a child. -/
inductive ChildOutcome (α : Type) where
  | infeasible
  | bounded (objective : α)
  | unknown
  deriving Repr

/-- What to do with a node that has to be branched on. -/
inductive Selection (α : Type) where
  /-- To branch on a column with a fractional value. -/
  | column (c : ColumnId) (value : α)
  /-- To evaluate the node again, in which a column was tightened. -/
  | tightened
  /-- Both children of a column are infeasible. -/
  | infeasible
  deriving Repr

namespace SearchStep

variable {α ρ σ η τ : Type} [Scalar α] [Others α σ η τ] [Relaxation ρ α]

/-- Solves the relaxation of a child whose domain was propagated. -/
def boundChild (parentObjective : α) (decision : Decision α) :
    SearchStep α ρ σ η τ (ChildOutcome α) := do
  changeStatistics fun s =>
    return { s with strongBranchings := ← count 64 s.strongBranchings 1 }
  match ← resolve with
  | .optimal child =>
    changeStatistics fun s =>
      return { s with iterations := ← count 64 s.iterations child.iterations }
    changePseudocost fun p => p.observe decision.change.column decision.direction
      decision.distance (child.objective - parentObjective)
    if (← shared).cutoff < child.objective then return .infeasible
    notify (.childEstimated decision.change child.objective)
    return .bounded child.objective
  | .infeasible _ => return .infeasible
  | .unbounded | .numericalTrouble => return .unknown

/-- Tries a child: applies its decision, propagates, solves the relaxation, and undoes all of it
but what was learned. -/
def tryChild (solution : RelaxationSolution α) (c : ColumnId) (value : α)
    (direction : Direction) : SearchStep α ρ σ η τ (ChildOutcome α) := do
  let decision := Decision.ofValue c value solution.objective direction
  changeDomain fun d => d.changeBound decision.change .branching
  let outcome ← if ← propagate then boundChild solution.objective decision else pure .infeasible
  undoLevel
  return outcome

/-- Tightens a column whose other child is infeasible. -/
def tighten (decision : Decision α) : SearchStep α ρ σ η τ Unit :=
  changeDomain fun d => d.changeBound decision.change .unknown

/-- Tries both children of candidates up to the first one with an infeasible child. -/
def tryCandidates (solution : RelaxationSolution α) :
    List (Candidate α) → SearchStep α ρ σ η τ (Option (Selection α))
  | [] => return none
  | candidate :: rest => do
    let down ← tryChild solution candidate.column candidate.value .down
    let up ← tryChild solution candidate.column candidate.value .up
    let decision := Decision.ofValue candidate.column candidate.value solution.objective
    match down, up with
    | .infeasible, .infeasible => return some .infeasible
    | .infeasible, _ =>
      tighten (decision .up)
      return some .tightened
    | _, .infeasible =>
      tighten (decision .down)
      return some .tightened
    | _, _ => tryCandidates solution rest

/-- Ranks fractional columns by the present pseudocosts. -/
def rank (fractional : List (ColumnId × α)) : SearchStep α ρ σ η τ (List (Candidate α)) := do
  (← search).pseudocost.rank fractional

/-- The best of ranked candidates. -/
def best : List (Candidate α) → Selection α
  | [] => .infeasible
  | candidate :: _ => .column candidate.column candidate.value

/-- Chooses a fractional column. The best unreliable candidates are tried first. -/
def selectColumn (solution : RelaxationSolution α) (fractional : List (ColumnId × α)) :
    SearchStep α ρ σ η τ (Selection α) := do
  let options := (← shared).options.branching
  let ranked ← rank fractional
  if options.pseudocostReliability == 0 || options.strongBranchingCandidates == 0 then
    return best ranked
  let pseudocost := (← search).pseudocost
  let unreliable ← keepIf (fun candidate => return !(← pseudocost.isReliable candidate.column))
    ranked
  match ← tryCandidates solution (unreliable.take options.strongBranchingCandidates) with
  | some selection => return selection
  | none =>
    warmStart (← currentNode).basis
    return best (← rank fractional)

/-- The child to enter first. -/
def firstDirection (c : ColumnId) (value : α) : SearchStep α ρ σ η τ Direction := do
  let s ← search
  let shared ← shared
  let downDistance := value - Scalar.floor value
  let upDistance := Scalar.ceil value - value
  let cost (direction : Direction) (distance : α) : Checked α :=
    return (← s.pseudocost.cost c direction) * distance
  let hybrid := s.pseudocost.hybridScore shared.options.branching.hybridInferenceWeight c
  let isUp ← match shared.options.branching.childSelection with
    | .up => pure true
    | .down => pure false
    | .rootSolution => pure (shared.rootSolution[c]?.all fun root => value ≤ root)
    | .objective => pure (decide ((← s.domain.model.column c).cost < 0))
    | .random => do
      let (up, random) := s.random.toss
      changeSearch fun s => { s with random := random }
      pure up
    | .bestCost => pure (decide ((← cost .up upDistance) ≤ (← cost .down downDistance)))
    | .worstCost => pure (decide ((← cost .down downDistance) ≤ (← cost .up upDistance)))
    | .hybridInferenceCost =>
      pure (decide ((← hybrid .down downDistance) ≤ (← hybrid .up upDistance)))
  return if isUp then .up else .down

/-- Applies a decision to the current node and makes the child the current node. -/
def enterChild (decision : Decision α) : SearchStep α ρ σ η τ Unit := do
  let parent ← currentNode
  let estimate ← (← search).pseudocost.childEstimate parent.estimate decision
  let openSubtrees ← uncount parent.openSubtrees 1
  changeNode fun node => { node with openSubtrees := openSubtrees }
  let depth ← count 64 parent.depth 1
  let position := (← domain).log.size
  changeDomain fun d => d.changeBound decision.change .branching
  warmStart parent.basis
  let child := SearchNode.fresh parent.lowerBound estimate depth parent.basis (some decision)
    position
  changeSearch fun s => { s with nodes := child :: s.nodes }

/-- Branches the current node into two children and enters the first one. -/
def splitNode (first second : Decision α) : SearchStep α ρ σ η τ Unit := do
  changeNode fun node =>
    { node with isExplored := true, openSubtrees := 2, pending := some second }
  enterChild first

/-- Branches the current node on a column and enters the first child. -/
def branchOn (solution : RelaxationSolution α) (c : ColumnId) (value : α) :
    SearchStep α ρ σ η τ Unit := do
  let decision := Decision.ofValue c value solution.objective
  match ← firstDirection c value with
  | .up => splitNode (decision .up) (decision .down)
  | .down => splitNode (decision .down) (decision .up)

variable [Separator σ α] [Proposer η α]

/-- Tries once to branch on the current node. There is no result if the node was tightened instead
and is still unsolved. -/
def branchOnce : SearchStep α ρ σ η τ (Option NodeResult) := do
  let solution? := (← search).solution
  changeSearch fun s => { s with solution := none }
  match solution? with
  | none => return some (← prune .givenUp)
  | some solution =>
    let fractional ← (← domain).fractionalColumns solution
    if fractional.isEmpty then return some (← prune .givenUp)
    else
      match ← selectColumn solution fractional with
      | .column c value =>
        branchOn solution c value
        return some .branched
      | .infeasible => return some (← prune .relaxationInfeasible)
      | .tightened =>
        let result ← evaluateOnce
        if result == .unsolved then return none else return some (← prune result)

/-- Tries to branch, and then again for as long as there is no result. -/
def nextBranching (s : SearchState α ρ σ η τ) :
    SearchState α ρ σ η τ ⊕ (Checked NodeResult × SearchState α ρ σ η τ) :=
  match branchOnce.perform s with
  | (.error fault, after) => .inr (.error fault, after)
  | (.ok (some result), after) => .inr (.ok result, after)
  | (.ok none, after) => .inl after

/-- What branching ends with. There is no outcome if the node can be tightened forever. -/
def branchOutcome? (s : SearchState α ρ σ η τ) :
    Option (Checked NodeResult × SearchState α ρ σ η τ) :=
  iterate? nextBranching s

/-- Branches on the current node, evaluating it again whenever it was tightened. -/
def branch : SearchStep α ρ σ η τ NodeResult :=
  ExceptT.mk fun s => (branchOutcome? s).getD (.error .stepsExhausted, s)

end SearchStep

end BranchBound
