import BranchBound.Domain.Stack
import BranchBound.Random
import BranchBound.Search.Node
import BranchBound.Search.Shared
import BranchBound.Search.Statistics

/-!
# Tree search

A `Search` explores the subtree of an installed node depth first, over a domain and a relaxation
of its own. Its operations are `SearchStep`s: they work on the state of the search and on what it
shares with others, and both are there afterwards also when a step stopped with a fault.
-/

namespace BranchBound

/-- The state of a search over a relaxation `ρ`. -/
structure Search (α ρ : Type) where
  domain : Domain α
  relaxation : ρ
  pseudocost : Pseudocost α
  random : Coin
  /-- The nodes from the current one up to the installed one. -/
  nodes : List (SearchNode α)
  /-- The relaxation solution of the current node while it has to be branched on. -/
  solution : Option (RelaxationSolution α)
  /-- The number of nodes evaluated since a node was installed. -/
  plungeNodes : Nat
  /-- The smallest lower bound of a node that was given up. -/
  givenUpBound : α
  /-- Whether a conflict without literals was learned, so that nothing can be improved. -/
  improvementExcluded : Bool
  statistics : SearchStatistics
  conflictStatistics : ConflictStatistics

namespace Search

variable {α ρ : Type} [Scalar α]

/-- A search without nodes, with the coin of a seed. -/
def ofDomain (domain : Domain α) (relaxation : ρ) (options : Options α) (seed : UInt64)
    (coin : UInt64 → Coin := Generator.coin) : Search α ρ :=
  { domain := domain
    relaxation := relaxation
    pseudocost := .empty domain.columnCount options.branching.pseudocostReliability
    random := coin seed
    nodes := []
    solution := none
    plungeNodes := 0
    givenUpBound := Scalar.infinity
    improvementExcluded := false
    statistics := .zero
    conflictStatistics := .zero }

/-- Whether some node on the stack is not finished. -/
def hasOpenNodes (s : Search α ρ) : Bool := s.nodes.any fun node => !node.isFinished

/-- The depth of the current node. -/
def depth (s : Search α ρ) : Nat := s.nodes.head?.elim 0 SearchNode.depth

/-- The search with its statistics set back. -/
def resetStatistics (s : Search α ρ) : Search α ρ :=
  { s with statistics := .zero, conflictStatistics := .zero }

end Search

/-- A search together with what it shares. -/
structure SearchState (α ρ σ η τ : Type) where
  search : Search α ρ
  shared : Shared α σ η τ

/-- A step of a search. -/
abbrev SearchStep (α ρ σ η τ : Type) := Action (SearchState α ρ σ η τ)

namespace SearchStep

variable {α ρ σ η τ : Type} [Scalar α]

/-- The state of the search. -/
def search : SearchStep α ρ σ η τ (Search α ρ) := return (← get).search

/-- Gives the other searches their turn. -/
def yield [Others α σ η τ] : SearchStep α ρ σ η τ Unit :=
  modify fun s => { s with shared := Others.turn s.shared }

/-- What the search shares, as the others left it. -/
def shared [Others α σ η τ] : SearchStep α ρ σ η τ (Shared α σ η τ) := do
  yield
  return (← get).shared

def changeSearch (f : Search α ρ → Search α ρ) : SearchStep α ρ σ η τ Unit :=
  modify fun s => { s with search := f s.search }

def setShared (shared : Shared α σ η τ) : SearchStep α ρ σ η τ Unit :=
  modify fun s => { s with shared := shared }

/-- Adds a notice to the journal. -/
def notify (notice : Notice α) : SearchStep α ρ σ η τ Unit :=
  modify fun s => { s with shared := s.shared.notify [notice] }

/-- The domain of the search. -/
def domain : SearchStep α ρ σ η τ (Domain α) := return (← get).search.domain

def setDomain (d : Domain α) : SearchStep α ρ σ η τ Unit :=
  changeSearch fun s => { s with domain := d }

variable [Others α σ η τ]

/-- Changes the domain and notes what was logged. -/
def changeDomain (f : Domain α → Checked (Domain α)) : SearchStep α ρ σ η τ Unit := do
  let before ← domain
  let after ← f before
  setDomain after
  setShared ((← shared).report before after)

/-- Propagates the domain; the flag says whether it is still feasible. -/
def propagate : SearchStep α ρ σ η τ Bool := do
  let (shared, d) ← (← shared).propagate (← domain)
  setShared shared
  setDomain d
  return !d.isInfeasible

/-- Undoes the deepest depth level of the domain. -/
def undoLevel : SearchStep α ρ σ η τ Unit := do
  let (_, d) ← (← domain).backtrack
  setDomain d

/-- The current node. -/
def currentNode : SearchStep α ρ σ η τ (SearchNode α) := do
  match (← search).nodes with
  | node :: _ => return node
  | [] => throw .noCurrentNode

/-- Changes the current node. -/
def changeNode (f : SearchNode α → SearchNode α) : SearchStep α ρ σ η τ Unit := do
  match (← search).nodes with
  | node :: rest => changeSearch fun s => { s with nodes := f node :: rest }
  | [] => throw .noCurrentNode

/-- Changes what was observed of branchings. -/
def changePseudocost (f : Pseudocost α → Checked (Pseudocost α)) : SearchStep α ρ σ η τ Unit := do
  let pseudocost ← f (← search).pseudocost
  changeSearch fun s => { s with pseudocost := pseudocost }

/-- Changes the statistics. -/
def changeStatistics (f : SearchStatistics → Checked SearchStatistics) :
    SearchStep α ρ σ η τ Unit := do
  let statistics ← f (← search).statistics
  changeSearch fun s => { s with statistics := statistics }

variable [Relaxation ρ α]

/-- Solves the relaxation over the box of the domain. -/
def resolve : SearchStep α ρ σ η τ (RelaxationResult α) := do
  let s ← search
  let (result, relaxation) := Relaxation.resolve s.relaxation s.domain
  changeSearch fun s => { s with relaxation := relaxation }
  result

/-- Tries to recover from numerical trouble. -/
def recover : SearchStep α ρ σ η τ Bool := do
  let (recovered, relaxation) := Relaxation.recover (← search).relaxation
  changeSearch fun s => { s with relaxation := relaxation }
  return recovered

/-- Gives the relaxation a basis to start from, if there is one. -/
def warmStart (basis : Option Basis) : SearchStep α ρ σ η τ Unit :=
  match basis with
  | some basis =>
    changeSearch fun s => { s with relaxation := Relaxation.setBasis s.relaxation basis }
  | none => return ()

/-- Finishes the current node with a result. -/
def prune (result : NodeResult) : SearchStep α ρ σ η τ NodeResult := do
  changeSearch fun s => { s with solution := none }
  changeNode SearchNode.finish
  let bound := (← currentNode).lowerBound
  changeStatistics fun s => return { s with
    leaves := ← count 64 s.leaves 1
    boundExceeding := ← count 64 s.boundExceeding (result == .boundExceeding).toNat
    givenUp := ← count 64 s.givenUp (result == .givenUp).toNat }
  if result == .givenUp then
    changeSearch fun s => { s with givenUpBound := Scalar.min s.givenUpBound bound }
  return result

end SearchStep

end BranchBound
