import BranchBound.Number.Scalar

/-!
# Options of the solver

Every option has a default. `Options.validate` accepts the options whose values have a meaning;
the first value without one is reported, together with what it has to satisfy. Conditions are
written as the acceptance of a value, so a value which is not a number is never accepted.
-/

namespace BranchBound

/-- Which child of a branching is explored first. -/
inductive ChildSelection where
  /-- Always the child with the raised lower bound. -/
  | up
  /-- Always the child with the lowered upper bound. -/
  | down
  /-- The child in the direction of the column's value in the root relaxation. -/
  | rootSolution
  /-- The child in the direction in which the objective improves. -/
  | objective
  /-- A random child. -/
  | random
  /-- The child with the smaller pseudocost. -/
  | bestCost
  /-- The child with the larger pseudocost. -/
  | worstCost
  /-- The child with more inferences in relation to its pseudocost. -/
  | hybridInferenceCost
  deriving DecidableEq, Repr

/-- Options for choosing the branching column and the first child. -/
structure BranchingOptions (α : Type) where
  childSelection : ChildSelection
  /-- The number of observations in each direction after which a pseudocost is trusted. -/
  pseudocostReliability : Nat
  /-- The weight of the pseudocost against the inferences in the hybrid rule. -/
  hybridInferenceWeight : α
  /-- The number of unreliable candidates evaluated by strong branching at a node. -/
  strongBranchingCandidates : Nat
  deriving Repr

/-- Options for separation and heuristics. -/
structure SeparationOptions (α : Type) where
  /-- The largest number of separation rounds at the root. -/
  rootRounds : Nat
  /-- The least relative improvement of the bound by a round after which another one follows. -/
  rootMinImprovement : α
  /-- Cuts are separated at depths which are multiples of this number; never if it is zero. -/
  nodeFrequency : Nat
  /-- Heuristics run at nodes whose number is a multiple of this number; never if it is zero. -/
  heuristicFrequency : Nat
  /-- The number of unused rounds after which a cut is removed. -/
  cutAgeLimit : Nat
  deriving Repr

/-- Options for learning and keeping conflicts. -/
structure ConflictOptions where
  /-- Larger conflicts are not learned. -/
  maxConflictSize : Nat
  /-- The largest number of conflicts learned from one infeasibility. -/
  conflictsPerInfeasibility : Nat
  /-- The number of agings without propagation after which a conflict is removed. -/
  ageLimit : Nat
  /-- Above this number of conflicts the age limit is halved. -/
  softLimit : Nat
  deriving Repr

/-- Options of the solver. -/
structure Options (α : Type) where
  /-- The amount by which bounds and rows may be violated. -/
  feastol : α
  /-- Values closer than this are considered equal. -/
  epsilon : α
  /-- The relative gap at which the search stops. -/
  relativeGap : α
  /-- The absolute gap at which the search stops. -/
  absoluteGap : α
  branching : BranchingOptions α
  separation : SeparationOptions α
  conflicts : ConflictOptions
  /-- How often a relaxation is solved again after numerical trouble. -/
  retryBudget : Nat
  /-- Whether binary columns are probed at the root. -/
  rootProbing : Bool
  /-- The largest number of columns probed at the root. -/
  maxProbingColumns : Nat
  /-- Whether symmetries are used at the root. -/
  symmetry : Bool
  /-- The search stops when more nodes are open. -/
  maxOpenNodes : Nat
  /-- The number of nodes explored before open nodes go back to the queue. -/
  plungeNodeBudget : Nat
  /-- The number of searches which share the open nodes. -/
  threads : Nat
  randomSeed : UInt64
  /-- The number of nodes between two progress messages; zero for none. -/
  logFrequency : Nat
  deriving Repr

namespace Options

variable {α : Type} [Scalar α]

/-- The options when nothing is chosen. -/
def standard : Options α :=
  { feastol := 1e-6
    epsilon := 1e-9
    relativeGap := 1e-4
    absoluteGap := 1e-6
    branching :=
      { childSelection := .hybridInferenceCost
        pseudocostReliability := 8
        hybridInferenceWeight := 1
        strongBranchingCandidates := 8 }
    separation :=
      { rootRounds := 10
        rootMinImprovement := 1e-3
        nodeFrequency := 10
        heuristicFrequency := 10
        cutAgeLimit := 20 }
    conflicts :=
      { maxConflictSize := 100
        conflictsPerInfeasibility := 2
        ageLimit := 50
        softLimit := 10000 }
    retryBudget := 2
    rootProbing := true
    maxProbingColumns := 100
    symmetry := true
    maxOpenNodes := 1000000
    plungeNodeBudget := 100
    threads := 1
    randomSeed := 42
    logFrequency := 1000 }

instance : Inhabited (Options α) := ⟨standard⟩

end Options

/-- The options which can have a value without a meaning. -/
inductive InvalidOption where
  | feastol
  | epsilon
  | relativeGap
  | absoluteGap
  | hybridInferenceWeight
  | rootMinImprovement
  | maxConflictSize
  | threads
  | plungeNodeBudget
  | maxOpenNodes
  deriving DecidableEq, Repr

namespace InvalidOption

/-- The name under which an option is set. -/
def name : InvalidOption → String
  | feastol => "feastol"
  | epsilon => "epsilon"
  | relativeGap => "relative_gap"
  | absoluteGap => "absolute_gap"
  | hybridInferenceWeight => "hybrid_inference_weight"
  | rootMinImprovement => "root_min_improvement"
  | maxConflictSize => "max_conflict_size"
  | threads => "num_threads"
  | plungeNodeBudget => "plunge_node_budget"
  | maxOpenNodes => "max_open_nodes"

/-- What the value of an option has to satisfy. -/
def requirement : InvalidOption → String
  | feastol => "must be in (0, 1)"
  | epsilon => "must be positive and at most feastol"
  | relativeGap | absoluteGap | hybridInferenceWeight | rootMinImprovement =>
    "must be non-negative"
  | maxConflictSize | threads | plungeNodeBudget | maxOpenNodes => "must be positive"

/-- The message for an option whose value has no meaning. -/
def message (i : InvalidOption) : String :=
  s!"invalid value for option \x60{i.name}\x60: {i.requirement}"

end InvalidOption

namespace Options

variable {α : Type} [Scalar α]

/-- Whether the value of an option has a meaning. -/
def accepts (o : Options α) : InvalidOption → Bool
  | .feastol => 0 < o.feastol && o.feastol < 1
  | .epsilon => 0 < o.epsilon && o.epsilon ≤ o.feastol
  | .relativeGap => 0 ≤ o.relativeGap
  | .absoluteGap => 0 ≤ o.absoluteGap
  | .hybridInferenceWeight => 0 ≤ o.branching.hybridInferenceWeight
  | .rootMinImprovement => 0 ≤ o.separation.rootMinImprovement
  | .maxConflictSize => o.conflicts.maxConflictSize != 0
  | .threads => o.threads != 0
  | .plungeNodeBudget => o.plungeNodeBudget != 0
  | .maxOpenNodes => o.maxOpenNodes != 0

/-- The first option without a meaningful value, in the order in which they are checked. -/
def validate (o : Options α) : Option InvalidOption :=
  [.feastol, .epsilon, .relativeGap, .absoluteGap, .hybridInferenceWeight, .rootMinImprovement,
    .maxConflictSize, .threads, .plungeNodeBudget, .maxOpenNodes].find? fun option =>
      !o.accepts option

end Options

end BranchBound
