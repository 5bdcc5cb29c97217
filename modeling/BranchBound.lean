import BranchBound.Model.Draft
import BranchBound.Number.Double
import BranchBound.Options.Named
import BranchBound.Proofs.Action
import BranchBound.Proofs.Bound
import BranchBound.Proofs.Clique.Extraction
import BranchBound.Proofs.Clique.Lookup
import BranchBound.Proofs.Clique.Table
import BranchBound.Proofs.Conflict.AssertingRuns
import BranchBound.Proofs.Conflict.EarlierPositions
import BranchBound.Proofs.Conflict.Justified
import BranchBound.Proofs.Conflict.LearnedConflicts
import BranchBound.Proofs.Conflict.LinearExplanation
import BranchBound.Proofs.Conflict.LinearRuns
import BranchBound.Proofs.Conflict.LiteralExplanation
import BranchBound.Proofs.Conflict.PastBounds
import BranchBound.Proofs.Conflict.Resolution
import BranchBound.Proofs.Counted
import BranchBound.Proofs.Coverage.NodeWork
import BranchBound.Proofs.Coverage.Solve
import BranchBound.Proofs.Coverage.Spared
import BranchBound.Proofs.Coverage.SparedRuns
import BranchBound.Proofs.Domain.Activities
import BranchBound.Proofs.Domain.Backtracking
import BranchBound.Proofs.Domain.BoundLog
import BranchBound.Proofs.Domain.Cutoff
import BranchBound.Proofs.Domain.Derivation
import BranchBound.Proofs.Domain.Ensemble
import BranchBound.Proofs.Domain.FixedPoint
import BranchBound.Proofs.Domain.Growth
import BranchBound.Proofs.Domain.History
import BranchBound.Proofs.Domain.Implied
import BranchBound.Proofs.Domain.Improvement
import BranchBound.Proofs.Domain.Level
import BranchBound.Proofs.Domain.Marking
import BranchBound.Proofs.Domain.MovedColumns
import BranchBound.Proofs.Domain.Resumption
import BranchBound.Proofs.Domain.Shrinking
import BranchBound.Proofs.Domain.Tightening
import BranchBound.Proofs.Domain.ViolationRuns
import BranchBound.Proofs.Implication.Answers
import BranchBound.Proofs.Implication.Probing
import BranchBound.Proofs.Incumbent
import BranchBound.Proofs.Model.ObjectiveUnits
import BranchBound.Proofs.Model.Usable
import BranchBound.Proofs.Node.BestBound
import BranchBound.Proofs.OrbitalFixing
import BranchBound.Proofs.Pool.NormalForm
import BranchBound.Proofs.Rounding
import BranchBound.Proofs.Search.Moves
import BranchBound.Proofs.Search.NodeWork
import BranchBound.Proofs.Search.Passage
import BranchBound.Proofs.Search.StackInStep
import BranchBound.Proofs.Search.StepLimits
import BranchBound.Proofs.Search.Steps
import BranchBound.Proofs.Search.Termination
import BranchBound.Proofs.Search.Vetted
import BranchBound.Proofs.Separation
import BranchBound.Proofs.Solver.HeuristicCalls
import BranchBound.Proofs.Solver.NodeBudget
import BranchBound.Proofs.Solver.OpenBound
import BranchBound.Proofs.Solver.ReportedSolutions
import BranchBound.Proofs.Submissions
import BranchBound.Proofs.VariableBound.Accepted
import BranchBound.Proofs.VariableBound.Detection
import BranchBound.Proofs.VariableBound.Table
import BranchBound.Proofs.VariableBound.Transformation
import BranchBound.Relaxation.Elementary
import BranchBound.Solver.Solve
import BranchBound.Statistics.Sink
import BranchBound.TaskPool
