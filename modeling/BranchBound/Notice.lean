import BranchBound.Decimal
import BranchBound.Domain.Basic
import BranchBound.Termination

/-!
# Notices

While a solve runs it tells what happens by notices. A notice is a value, not a text, so that what
was told can be looked at like any other result; `Notice.text` writes it, and `Notice.level` says
how detailed it is.
-/

namespace BranchBound

/-! ### Changes, reasons and infeasibilities as they are written -/

/-- A change of a bound, such as `x0 >= 1`. -/
def BoundChange.text (change : BoundChange Float) : String :=
  let relation := match change.side with
    | .lower => ">="
    | .upper => "<="
  s!"x{change.column} {relation} {Decimal.text change.value}"

namespace Reason

/-- A named column with a value, between braces. -/
def describeFixing (name : String) (column : ColumnId) (value : Bool) : String :=
  s!"{name} \x7b column: ColumnId({column}), value: {value} \x7d"

/-- The description of a reason. -/
def describe : Reason → String
  | branching => "Branching"
  | unknown => "Unknown"
  | rowUpper row => s!"RowUpper(RowId({row}))"
  | rowLower row => s!"RowLower(RowId({row}))"
  | clique column value => describeFixing "Clique" column value
  | variableBound column value => describeFixing "VariableBound" column value
  | cut pool id => s!"Cut \x7b pool: {pool}, cut: CutId({id}) \x7d"
  | conflict pool id => s!"Conflict \x7b pool: {pool}, conflict: ConflictId({id}) \x7d"
  | conflictingBounds position => s!"ConflictingBounds({position})"
  | objective => "Objective"

end Reason

/-- The message of an infeasibility. -/
def Infeasibility.message (i : Infeasibility) : String :=
  s!"the domain became infeasible at log position {i.position} ({i.reason.describe})"

/-! ### Notices -/

/-- How detailed a notice is. -/
inductive Level where
  | warning
  | summary
  | detail
  | trace
  deriving DecidableEq, Repr

namespace Level

/-- The name of a level. -/
def text : Level → String
  | warning => "WARN"
  | summary => "INFO"
  | detail => "DEBUG"
  | trace => "TRACE"

/-- The rank of a level, the least detailed one first. -/
def rank : Level → Nat
  | warning => 0
  | summary => 1
  | detail => 2
  | trace => 3

/-- The levels by the names under which they are asked for. -/
def named : List (String × Level) := [("info", summary), ("debug", detail), ("trace", trace)]

end Level

/-- Something that happened during a solve. -/
inductive Notice (α : Type) where
  /-- A change was logged in a domain. -/
  | boundChanged (position : Nat) (change : BoundChange α) (reason : Reason)
  /-- A domain became infeasible. -/
  | becameInfeasible (infeasibility : Infeasibility)
  | cutsExpired (count : Nat)
  | conflictsExpired (count : Nat)
  | incumbentImproved (objective : α)
  | heuristicSucceeded (name : String) (objective : α)
  | cliquesExtracted (count rows : Nat)
  | cutsSeparated (inserted violated : Nat)
  | rootRoundSeparated (round : Nat) (objective : α) (cuts : Nat)
  | conflictAbandoned (size depth : Nat)
  /-- A conflict without literals was learned. -/
  | improvementExcluded
  | childEstimated (change : BoundChange α) (objective : α)
  | relaxationRetried (retries : Nat)
  | columnsProbed (count : Nat)
  | orbitsFixed (count : Nat)
  | symmetriesFound (generators orbits : Nat)
  /-- The open nodes were dropped after a conflict without literals. -/
  | openNodesDropped
  | nodeUnbounded (depth : Nat)
  | nodeInTrouble (depth retries : Nat)
  | integralPointRejected
  | rootUnsolved
  | tooManyOpenNodes (count : Nat)
  | nodesGivenUp (count : Nat) (bound : α)
  | infeasibleByRootPropagation
  | infeasibleRoot
  | unboundedRoot
  | infeasibleByOrbitalFixing
  | rootFinished (dualBound primalBound : α) (cuts cliques : Nat)
  | progressed (nodes openNodes : Nat) (dualBound primalBound gap : α)
  | finished (status : Status) (nodes : Nat) (objective dualBound : α)
  deriving Repr

namespace Notice

variable {α : Type}

/-- How detailed a notice is. -/
def level : Notice α → Level
  | boundChanged .. | becameInfeasible .. => .trace
  | nodeUnbounded .. | nodeInTrouble .. | integralPointRejected | rootUnsolved
  | tooManyOpenNodes .. | nodesGivenUp .. => .warning
  | infeasibleByRootPropagation | infeasibleRoot | unboundedRoot | infeasibleByOrbitalFixing
  | rootFinished .. | progressed .. | finished .. => .summary
  | _ => .detail

/-- The notices about what was logged in a domain since an earlier state of it. -/
def ofDomains (before after : Domain α) : List (Notice α) :=
  let changes := (after.log.toList.zipIdx.drop before.log.size).map fun (entry, position) =>
    boundChanged position entry.change entry.reason
  match before.infeasible, after.infeasible with
  | none, some infeasibility => changes ++ [becameInfeasible infeasibility]
  | _, _ => changes

/-- The text of a notice. -/
def text : Notice Float → String
  | boundChanged position change reason => s!"[{position}] {change.text} ({reason.describe})"
  | becameInfeasible i => s!"domain infeasible at position {i.position}: {i.reason.describe}"
  | cutsExpired count => s!"removed {count} aged cuts from the pool"
  | conflictsExpired count => s!"removed {count} aged conflicts from the pool"
  | incumbentImproved objective => s!"new incumbent with objective {Decimal.text objective}"
  | heuristicSucceeded name objective =>
    s!"{name} found a solution with objective {Decimal.text objective}"
  | cliquesExtracted count rows => s!"extracted {count} cliques from {rows} rows"
  | cutsSeparated inserted violated =>
    s!"separated {inserted} new cuts, {violated} pooled cuts are violated"
  | rootRoundSeparated round objective cuts =>
    s!"root separation round {round}: objective {Decimal.text objective} " ++
      s!"({cuts} cuts in the relaxation)"
  | conflictAbandoned size depth => s!"abandoned a conflict with {size} literals at depth {depth}"
  | improvementExcluded => "learned an empty conflict, no improving solution exists"
  | childEstimated change objective =>
    s!"strong branching on {change.text}: objective {Decimal.text objective}"
  | relaxationRetried retries =>
    s!"resolving the relaxation after numerical trouble ({retries})"
  | columnsProbed count => s!"probing fixed {count} columns"
  | orbitsFixed count => s!"orbital fixing fixed {count} columns"
  | symmetriesFound generators orbits => s!"{generators} symmetry generators with {orbits} orbits"
  | openNodesDropped => "no improving solution exists in any open node"
  | nodeUnbounded depth =>
    s!"the relaxation of a node at depth {depth} is unbounded, the node is given up"
  | nodeInTrouble depth retries =>
    s!"numerical trouble in the relaxation of a node at depth {depth} after {retries} retries, " ++
      "the node is given up"
  | integralPointRejected =>
    "an integral relaxation solution violates the model, the node is given up"
  | rootUnsolved => "the root relaxation could not be solved"
  | tooManyOpenNodes count => s!"{count} nodes are open, stopping the search"
  | nodesGivenUp count bound =>
    s!"{count} nodes were given up after numerical trouble, their bound is {Decimal.text bound}"
  | infeasibleByRootPropagation => "root propagation proved the model infeasible"
  | infeasibleRoot => "the root node is infeasible"
  | unboundedRoot => "the root relaxation is unbounded"
  | infeasibleByOrbitalFixing => "orbital fixing proved the model infeasible"
  | rootFinished dualBound primalBound cuts cliques =>
    s!"root: dual bound {Decimal.text dualBound}, primal bound {Decimal.text primalBound}, " ++
      s!"{cuts} cuts, {cliques} cliques"
  | progressed nodes openNodes dualBound primalBound gap =>
    s!"{nodes} nodes, {openNodes} open, dual bound {Decimal.text dualBound}, " ++
      s!"primal bound {Decimal.text primalBound}, gap {Decimal.fixed 2 (100 * gap)}%"
  | finished status nodes objective dualBound =>
    s!"solving finished ({status.text}) after {nodes} nodes: " ++
      s!"objective {Decimal.text objective}, dual bound {Decimal.text dualBound}"

/-- The lines of the notices of a journal that are not more detailed than a level. -/
def lines (level : Level) (journal : Array (Notice Float)) : List String :=
  (journal.toList.filter fun notice => notice.level.rank ≤ level.rank).map fun notice =>
    notice.level.text ++ " " ++ notice.text

end Notice

end BranchBound
