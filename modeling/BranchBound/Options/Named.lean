import BranchBound.Options

/-!
# Options by name

Every option has a name under which it can be set and listed, so that a caller need not know the
structure in which the options are kept. `Options.listing` has the present values in a fixed
order, and `Options.set` changes one of them.
-/

namespace BranchBound

/-- The value of an option. -/
inductive OptionValue (α : Type) where
  | number (x : α)
  | count (n : Nat)
  | flag (b : Bool)
  | rule (r : ChildSelection)
  deriving Repr

namespace ChildSelection

/-- The rules with their names. -/
def named : List (String × ChildSelection) :=
  [("up", up), ("down", down), ("root_solution", rootSolution), ("objective", objective),
    ("random", random), ("best_cost", bestCost), ("worst_cost", worstCost),
    ("hybrid", hybridInferenceCost)]

end ChildSelection

namespace Options

variable {α : Type}

/-- Every option by name. -/
def listing (o : Options α) : List (String × OptionValue α) :=
  [("feastol", .number o.feastol), ("epsilon", .number o.epsilon),
    ("relative_gap", .number o.relativeGap), ("absolute_gap", .number o.absoluteGap),
    ("child_selection_rule", .rule o.branching.childSelection),
    ("pseudocost_reliability", .count o.branching.pseudocostReliability),
    ("hybrid_inference_weight", .number o.branching.hybridInferenceWeight),
    ("strong_branching_candidates", .count o.branching.strongBranchingCandidates),
    ("root_rounds", .count o.separation.rootRounds),
    ("root_min_improvement", .number o.separation.rootMinImprovement),
    ("node_frequency", .count o.separation.nodeFrequency),
    ("heuristic_frequency", .count o.separation.heuristicFrequency),
    ("cut_age_limit", .count o.separation.cutAgeLimit),
    ("max_conflict_size", .count o.conflicts.maxConflictSize),
    ("conflicts_per_infeasibility", .count o.conflicts.conflictsPerInfeasibility),
    ("conflict_age_limit", .count o.conflicts.ageLimit),
    ("conflict_soft_limit", .count o.conflicts.softLimit),
    ("lp_retry_budget", .count o.retryBudget), ("root_probing", .flag o.rootProbing),
    ("max_probing_columns", .count o.maxProbingColumns), ("symmetry", .flag o.symmetry),
    ("max_open_nodes", .count o.maxOpenNodes), ("plunge_node_budget", .count o.plungeNodeBudget),
    ("num_threads", .count o.threads), ("random_seed", .count o.randomSeed.toNat),
    ("log_frequency", .count o.logFrequency)]

/-- Sets an option for searching. -/
def setBranching (b : BranchingOptions α) (name : String) :
    OptionValue α → BranchingOptions α
  | .rule r => if name == "child_selection_rule" then { b with childSelection := r } else b
  | .number x =>
      if name == "hybrid_inference_weight" then { b with hybridInferenceWeight := x } else b
  | .count n =>
    match name with
    | "pseudocost_reliability" => { b with pseudocostReliability := n }
    | "strong_branching_candidates" => { b with strongBranchingCandidates := n }
    | _ => b
  | .flag _ => b

/-- Sets an option for separation and heuristics. -/
def setSeparation (s : SeparationOptions α) (name : String) :
    OptionValue α → SeparationOptions α
  | .number x => if name == "root_min_improvement" then { s with rootMinImprovement := x } else s
  | .count n =>
    match name with
    | "root_rounds" => { s with rootRounds := n }
    | "node_frequency" => { s with nodeFrequency := n }
    | "heuristic_frequency" => { s with heuristicFrequency := n }
    | "cut_age_limit" => { s with cutAgeLimit := n }
    | _ => s
  | _ => s

/-- Sets an option for conflicts. -/
def setConflicts (c : ConflictOptions) (name : String) (n : Nat) : ConflictOptions :=
  match name with
  | "max_conflict_size" => { c with maxConflictSize := n }
  | "conflicts_per_infeasibility" => { c with conflictsPerInfeasibility := n }
  | "conflict_age_limit" => { c with ageLimit := n }
  | "conflict_soft_limit" => { c with softLimit := n }
  | _ => c

/-- Sets an option which belongs to no group. -/
def setGeneral (o : Options α) (name : String) : OptionValue α → Options α
  | .number x =>
    match name with
    | "feastol" => { o with feastol := x }
    | "epsilon" => { o with epsilon := x }
    | "relative_gap" => { o with relativeGap := x }
    | "absolute_gap" => { o with absoluteGap := x }
    | _ => o
  | .count n =>
    match name with
    | "lp_retry_budget" => { o with retryBudget := n }
    | "max_probing_columns" => { o with maxProbingColumns := n }
    | "max_open_nodes" => { o with maxOpenNodes := n }
    | "plunge_node_budget" => { o with plungeNodeBudget := n }
    | "num_threads" => { o with threads := n }
    | "random_seed" => { o with randomSeed := UInt64.ofNat n }
    | "log_frequency" => { o with logFrequency := n }
    | _ => o
  | .flag b =>
    match name with
    | "root_probing" => { o with rootProbing := b }
    | "symmetry" => { o with symmetry := b }
    | _ => o
  | .rule _ => o

/-- Sets the option with a name. An unknown name and a value of the wrong kind change nothing. -/
def set (o : Options α) (name : String) (value : OptionValue α) : Options α :=
  setGeneral
    { o with
      branching := setBranching o.branching name value
      separation := setSeparation o.separation name value
      conflicts := match value with
        | .count n => setConflicts o.conflicts name n
        | _ => o.conflicts } name value

end Options

end BranchBound
