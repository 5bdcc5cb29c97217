import BranchBound.Proofs.Domain.Unrolling
import BranchBound.Proofs.Search.Steps
import BranchBound.Solver.Solve

/-!
# Searches and solves that can be computed

A search comes down to a value once the loops and sorts in it are unrolled: those of the propagation
and the conflict analysis at every node, of separation and of branching. So does a solve, over the
root and the searches. The parts are unrolled one after the other, each over the parts it is made
of.
-/

namespace BranchBound

section Search

variable {α ρ σ η τ : Type} [Scalar α]

/-! ## Nodes -/

def Shared.separateUnrolled [Separator σ α] (n : Nat) : Unrolled (@Shared.separate α σ η τ _ _) :=
  ⟨_, by
    delta Shared.separate SeparationManager.separate SeparationManager.runSeparator
      SeparationManager.insertCut CutPool.insert CutPool.insertWithAgeLimit Inequality.normalized
      CutPool.violated
    rw [mergeSort_unrolled n]⟩

namespace SearchStep

variable [Others α σ η τ]

def propagateUnrolled (n : Nat) : Unrolled (@propagate α ρ σ η τ _ _) :=
  ⟨_, by
    delta propagate Shared.propagate
    rw [(Domain.propagateUnrolled n).property]⟩

def analyseUnrolled (n : Nat) : Unrolled (@analyse α ρ σ η τ _ _) :=
  ⟨_, by
    delta analyse learn Shared.learn ConflictPool.add ConflictPool.storedForm
    rw [(Domain.conflictSetUnrolled n).property, (Domain.computeConflictsUnrolled n).property,
      mergeSort_unrolled n]⟩

variable [Relaxation ρ α]

def resolveNodeUnrolled (n : Nat) : Unrolled (@resolveNode α ρ σ η τ _ _ _) :=
  ⟨_, by
    delta resolveNode resolveNode._f resolveOnce
    rw [(analyseUnrolled n).property]⟩

variable [Separator σ α]

def boundCurrentUnrolled (n : Nat) : Unrolled (@boundCurrent α ρ σ η τ _ _ _ _) :=
  ⟨_, by
    delta boundCurrent boundNodeWithCuts boundNode separateNode
    rw [(propagateUnrolled n).property, (analyseUnrolled n).property,
      (resolveNodeUnrolled n).property, (Shared.separateUnrolled n).property]⟩

variable [Proposer η α]

def evaluateOnceUnrolled (n : Nat) : Unrolled (@evaluateOnce α ρ σ η τ _ _ _ _ _) :=
  ⟨_, by
    rw [evaluateOnce_eq, (boundCurrentUnrolled n).property]⟩

def branchUnrolled (n : Nat) : Unrolled (@branch α ρ σ η τ _ _ _ _ _) :=
  ⟨_, by
    delta branch branchOutcome? nextBranching branchOnce selectColumn tryCandidates tryCandidates._f
      tryChild rank Pseudocost.rank
    rw [(propagateUnrolled n).property, (evaluateOnceUnrolled n).property, iterate?_unrolled n,
      mergeSort_unrolled n]⟩

/-! ## Subtrees -/

variable [StopCondition τ]

def evaluateUnrolled (n : Nat) : Unrolled (@evaluate α ρ σ η τ _ _ _ _ _ _) :=
  ⟨_, by
    delta evaluate
    rw [(evaluateOnceUnrolled n).property]⟩

def diveWithinUnrolled (n : Nat) : Unrolled (@diveWithin α ρ σ η τ _ _ _ _ _ _) :=
  ⟨_, by
    delta diveWithin diveWithin._f
    rw [(evaluateUnrolled n).property, (branchUnrolled n).property]⟩

def diveUnrolled (n : Nat) : Unrolled (@dive α ρ σ η τ _ _ _ _ _ _) :=
  ⟨_, by
    delta dive
    rw [(diveWithinUnrolled n).property]⟩

def exploreWithinUnrolled (n : Nat) : Unrolled (@exploreWithin α ρ σ η τ _ _ _ _ _ _) :=
  ⟨_, by
    delta exploreWithin exploreWithin._f
    rw [(diveUnrolled n).property]⟩

def solveDepthFirstUnrolled (n : Nat) : Unrolled (@solveDepthFirst α ρ σ η τ _ _ _ _ _ _) :=
  ⟨_, by
    delta solveDepthFirst
    rw [(exploreWithinUnrolled n).property]⟩

end SearchStep

end Search

variable {α ρ σ η τ : Type} [Scalar α]

/-! ## The root -/

def Implications.consequencesUnrolled (n : Nat) : Unrolled (@Implications.consequences α _) :=
  ⟨_, by
    delta Implications.consequences Implications.probe PropagationStep.propagate
      PropagationStep.outcome?
    rw [iterate?_unrolled n]⟩

namespace RootStep

def propagateUnrolled (n : Nat) : Unrolled (@propagate α ρ σ η τ _) :=
  ⟨_, by
    delta propagate Shared.propagate
    rw [(Domain.propagateUnrolled n).property]⟩

def detectStructureUnrolled (n : Nat) : Unrolled (@detectStructure α ρ σ η τ _) :=
  ⟨_, by
    delta detectStructure CliqueTable.extract CliqueTable.extractFromRow CliqueTable.extractFromSide
      CliqueTable.add CliqueTable.distinct CliqueTable.largestClique
    rw [mergeSort_unrolled n]⟩

def probeColumnsUnrolled (n : Nat) : Unrolled (@probeColumns α ρ σ η τ _) :=
  ⟨_, by
    delta probeColumns probe probe._f consequences
    rw [(propagateUnrolled n).property, (Implications.consequencesUnrolled n).property]⟩

variable [Relaxation ρ α] [Separator σ α] [Proposer η α]

def processUnrolled (n : Nat) : Unrolled (@process α ρ σ η τ _ _ _ _) :=
  ⟨_, by
    delta process solveRelaxation separate separate._f conclude
    rw [(propagateUnrolled n).property, (detectStructureUnrolled n).property,
      (probeColumnsUnrolled n).property, (Shared.separateUnrolled n).property]⟩

end RootStep

/-! ## The tree and the whole -/

variable [Others α σ η τ] [Relaxation ρ α] [Separator σ α] [Proposer η α] [StopCondition τ]

def TreeState.runRoundUnrolled (n : Nat) : Unrolled (@TreeState.runRound α ρ σ η τ _ _ _ _ _ _) :=
  ⟨_, by
    delta TreeState.runRound TreeState.exploreAll TreeState.exploreAll._f TreeState.explore
    rw [(SearchStep.solveDepthFirstUnrolled n).property]⟩

def TreeState.runWithinUnrolled (n : Nat) : Unrolled (@TreeState.runWithin α ρ σ η τ _ _ _ _ _ _) :=
  ⟨_, by
    delta TreeState.runWithin TreeState.runWithin._f
    rw [(TreeState.runRoundUnrolled n).property]⟩

def Solver.solveUnrolled (n : Nat) : Unrolled (@Solver.solve α ρ σ η τ _ _ _ _ _ _) :=
  ⟨_, by
    delta Solver.solve Solver.useSymmetry Solver.solveTree TreeState.run
    rw [(RootStep.propagateUnrolled n).property, (RootStep.processUnrolled n).property,
      (TreeState.runWithinUnrolled n).property]⟩

end BranchBound
