import BranchBound.Node.Queue
import BranchBound.Search.Branching

/-!
# Walking through a subtree

From the current node the search dives: it evaluates and branches until a node is finished. It
then backtracks to the deepest node with a child that was not entered. When the budget of a plunge
is used up, or when the search is asked to stop, the children that are left are suspended as open
nodes, which any search can install later.
-/

namespace BranchBound.SearchStep

variable {α ρ σ η τ : Type} [Scalar α] [Others α σ η τ]

/-- Removes finished nodes from the top of a stack and undoes the decisions that created them. -/
def dropFinished : List (SearchNode α) → Domain α → Checked (List (SearchNode α) × Domain α)
  | [], d => .ok ([], d)
  | node :: rest, d =>
    if !node.isFinished then .ok (node :: rest, d)
    else do
      let d ← if node.decision.isSome then pure (← d.backtrack).2 else pure d
      dropFinished rest d

/-- Removes finished nodes from the top of the stack. -/
def popFinished : SearchStep α ρ σ η τ Unit := do
  let s ← search
  let (nodes, d) ← dropFinished s.nodes s.domain
  changeSearch fun s => { s with nodes := nodes, domain := d }

/-- Takes the decision for the child that was not entered from the current node. -/
def takePending : SearchStep α ρ σ η τ (Option (Decision α)) := do
  match (← search).nodes with
  | [] => return none
  | node :: _ =>
    changeNode fun node => { node with pending := none }
    return node.pending

/-- Removes the current node and returns it as an open node. -/
def suspendNode : SearchStep α ρ σ η τ (OpenNode α) := do
  let (changes, branchings) := (← domain).reducedStack
  let node ← currentNode
  changeNode fun node => { node.finish with pending := none }
  changeSearch fun s => { s with solution := none }
  popFinished
  return ⟨changes, branchings, node.lowerBound, node.estimate, node.depth, node.basis⟩

variable [Relaxation ρ α]

/-- Makes an open node the current one and forgets all other nodes. -/
def install (node : OpenNode α) : SearchStep α ρ σ η τ Unit := do
  changeSearch fun s => { s with nodes := [], solution := none, plungeNodes := 0 }
  changeDomain Domain.backtrackToGlobal
  changeDomain fun d => return (← (Domain.applyStack node.branchings 0 node.changes).finish d).2
  warmStart node.basis
  let installed := SearchNode.fresh node.lowerBound node.estimate node.depth node.basis none 0
  changeSearch fun s => { s with nodes := [installed] }

/-- Enters the pending child of the deepest node that has one once the finished nodes are removed.
Returns whether there was one. -/
def backtrack : SearchStep α ρ σ η τ Bool := do
  popFinished
  match ← takePending with
  | some decision =>
    enterChild decision
    return true
  | none => return false

/-- Looks for the next child in at most a given number of steps. A child whose bound exceeds the
cutoff is dropped; the others are suspended if the plunge is exhausted. -/
def backtrackWithin (isExhausted : Bool) (suspended : List (OpenNode α)) :
    Nat → SearchStep α ρ σ η τ (Bool × List (OpenNode α))
  | 0 => throw .stepsExhausted
  | steps + 1 => do
    popFinished
    match ← takePending with
    | none => return (false, suspended)
    | some decision =>
      if (← shared).cutoff < (← currentNode).lowerBound then
        changeNode fun node => { node with openSubtrees := 0 }
        backtrackWithin isExhausted suspended steps
      else
        enterChild decision
        if isExhausted then
          let node ← suspendNode
          backtrackWithin isExhausted (suspended ++ [node]) steps
        else return (true, suspended)

/-- Enters the next child or, once the plunge has used up its budget, suspends every child that is
left. Returns whether a child was entered, and the suspended nodes. Every step takes a pending
decision from the stack. -/
def backtrackPlunge : SearchStep α ρ σ η τ (Bool × List (OpenNode α)) := do
  let s ← search
  let isExhausted := decide ((← shared).options.plungeNodeBudget ≤ s.plungeNodes)
  backtrackWithin isExhausted [] (s.nodes.length + 1)

/-- Suspends the nodes of the stack that are not finished, in at most a given number of steps. -/
def suspendWithin (suspended : List (OpenNode α)) :
    Nat → SearchStep α ρ σ η τ (List (OpenNode α))
  | 0 => throw .stepsExhausted
  | steps + 1 => do
    match (← search).nodes with
    | [] => return suspended
    | node :: _ =>
      if !node.isExplored then
        let node ← suspendNode
        suspendWithin (suspended ++ [node]) steps
      else
        popFinished
        match ← takePending with
        | none => return suspended
        | some decision =>
          enterChild decision
          let node ← suspendNode
          suspendWithin (suspended ++ [node]) steps

/-- Suspends every node that is not finished. Every step removes a node that is not explored or
takes a pending decision. -/
def suspendOpenNodes : SearchStep α ρ σ η τ (List (OpenNode α)) := do
  let suspended ← suspendWithin [] (2 * (← search).nodes.length + 1)
  changeSearch fun s => { s with nodes := [] }
  return suspended

variable [Separator σ α] [Proposer η α] [StopCondition τ]

/-- Whether the search should stop. -/
def shouldStop : SearchStep α ρ σ η τ Bool := do
  let shared ← shared
  let (stop, condition) := shared.condition.shouldStop
  setShared { shared with condition := condition }
  return stop

/-- Dives over at most a given number of nodes. -/
def diveWithin : Nat → SearchStep α ρ σ η τ NodeResult
  | 0 => throw .counterOverflow
  | nodes + 1 => do
    if ← shouldStop then return .unsolved
    let result ← evaluate
    if result != .unsolved then return result
    let result ← branch
    if result != .branched then return result
    diveWithin nodes

/-- A number of nodes which no search evaluates, since the counter of evaluated nodes has fewer
values. -/
def nodeLimit : Nat := (1 <<< 64) + 1

/-- Evaluates and branches until a node is finished. Returns its result, or that it is unsolved if
the search was asked to stop. -/
def dive : SearchStep α ρ σ η τ NodeResult := diveWithin nodeLimit

/-- Dives at most a given number of times. -/
def exploreWithin (suspended : List (OpenNode α)) :
    Nat → SearchStep α ρ σ η τ (List (OpenNode α))
  | 0 => throw .counterOverflow
  | dives + 1 => do
    let result ← dive
    if result == .unsolved || (← search).improvementExcluded then
      return suspended ++ (← suspendOpenNodes)
    let (entered, more) ← backtrackPlunge
    if entered then exploreWithin (suspended ++ more) dives else return suspended ++ more

/-- Explores the subtree of the installed node until it is finished, the plunge is exhausted or the
search is asked to stop. Returns the suspended nodes. -/
def solveDepthFirst : SearchStep α ρ σ η τ (List (OpenNode α)) := exploreWithin [] nodeLimit

end BranchBound.SearchStep
