import BranchBound.Domain.Literal
import BranchBound.Domain.Objective
import BranchBound.Pool.Shared

/-!
# Explanations of changes

An explanation of a change is a set of earlier log positions: whatever satisfies the constraint
the change came from and the changes at these positions satisfies the change, too. For a linear
constraint the explanation starts from the minimal activity over the global bounds and takes local
changes in the order of what they add to it, until that is enough.
-/

namespace BranchBound

/-- A change to be explained by a linear constraint, with the coefficient of its column. -/
structure Explained (α : Type) where
  change : BoundChange α
  coefficient : α
  deriving Repr

/-- Where a literal became true. -/
inductive LiteralSource where
  /-- It holds in every node. -/
  | everywhere
  /-- It holds since the change at a position. -/
  | since (position : Nat)
  deriving DecidableEq, Repr

/-- The minimal activity of a constraint, split for an explanation. -/
structure Contributions (α : Type) where
  /-- The activity over the global bounds, with the local bound where the global one is infinite. -/
  activity : CompensatedSum α
  /-- The positions of the changes which replace an infinite global bound. -/
  positions : List Nat
  /-- What other local changes add to the activity, with their positions. -/
  candidates : List (α × Nat)
  deriving Repr

namespace Contributions

variable {α : Type} [Scalar α]

/-- Adds the term of one column with its local and its global bound. -/
def add (s : Contributions α) (globalLength : Nat) (a : α) (bound : Bound α) (globalValue : α) :
    Contributions α :=
  let isLocal := match bound.position with
    | some position => globalLength ≤ position && bound.value != globalValue
    | none => false
  let position := bound.position.getD 0
  if !isLocal then { s with activity := s.activity.addSum (.product a bound.value) }
  else if Scalar.isInfinite globalValue then
    { s with
      activity := s.activity.addSum (.product a bound.value)
      positions := s.positions ++ [position] }
  else
    { s with
      activity := s.activity.addSum (.product a globalValue)
      candidates := s.candidates ++ [(a * (bound.value - globalValue), position)] }

/-- Whether a candidate adds more than another one, or as much and comes first in the log. -/
def addsMore (x y : α × Nat) : Bool :=
  ((Scalar.fallingOrder x.1 y.1).then (compare x.2 y.2)) != .gt

/-- Takes candidates until an activity is enough. -/
def takeUntil (enough : CompensatedSum α → Bool) (activity : CompensatedSum α)
    (positions : List Nat) : List (α × Nat) → CompensatedSum α × List Nat
  | [] => (activity, positions)
  | (increase, position) :: rest =>
    if enough activity then (activity, positions)
    else takeUntil enough (activity.add increase) (positions ++ [position]) rest

end Contributions

namespace Domain

variable {α : Type} [Scalar α]

/-- Collects the contributions of every column but the explained one, unless one of them is
infinite. -/
def contributions (d : Domain α) (limit : Nat) (explained : Option (Explained α))
    (s : Contributions α) : List (ColumnId × α) → Checked (Option (Contributions α))
  | [] => .ok (some s)
  | (c, a) :: rest => do
    if explained.any fun e => e.change.column == c then contributions d limit explained s rest
    else
      let side := if 0 < a then Side.lower else Side.upper
      let bound ← d.boundBefore side c limit
      if Scalar.isInfinite bound.value then return none
      let globalBound ← d.boundBefore side c d.globalLength
      contributions d limit explained (s.add d.globalLength a bound globalBound.value) rest

/-- How far the explained bound may be relaxed: the next integral value has to stay out of reach
for an integer column. -/
def relaxation (d : Domain α) (c : ColumnId) : Checked α := do
  return if ← d.model.isInteger c then 1 - 10 * d.feastol else d.feastol

/-- The activity from which on a constraint implies the explained change, if it can imply one in
that direction at all. -/
def requiredActivity (d : Domain α) (rhs : α) (e : Explained α) :
    Checked (Option (CompensatedSum α)) := do
  let relax ← d.relaxation e.change.column
  let required (bound : α) :=
    (CompensatedSum.ofScalar rhs).subSum (.product e.coefficient bound)
  return match e.change.side with
    | .upper => if 0 < e.coefficient then some (required (e.change.value + relax)) else none
    | .lower => if e.coefficient < 0 then some (required (e.change.value - relax)) else none

/-- Positions before a limit under which `Σ a x ≤ rhs` implies the explained change, or is violated
if there is none. Nothing if even all changes do not suffice. -/
def explainAtMost (d : Domain α) (entries : List (ColumnId × α)) (rhs : α) (limit : Nat)
    (explained : Option (Explained α)) : Checked (Option (List Nat)) := do
  match ← d.contributions limit explained ⟨.zero, [], []⟩ entries with
  | none => return none
  | some s =>
    let candidates := s.candidates.mergeSort Contributions.addsMore
    match explained with
    | none =>
      let required := CompensatedSum.ofScalar rhs
      let enough (activity : CompensatedSum α) := activity.gt (required.add d.feastol)
      let (activity, positions) := Contributions.takeUntil enough s.activity s.positions candidates
      return if activity.gt required then some positions else none
    | some e =>
      match ← d.requiredActivity rhs e with
      | none => return none
      | some required =>
        let enough (activity : CompensatedSum α) := activity.ge required
        let (activity, positions) :=
          Contributions.takeUntil enough s.activity s.positions candidates
        return if enough activity then some positions else none

/-- Positions before a limit under which `Σ a x ≥ rhs` implies the explained change, or is violated
if there is none. -/
def explainAtLeast (d : Domain α) (entries : List (ColumnId × α)) (rhs : α) (limit : Nat)
    (explained : Option (Explained α)) : Checked (Option (List Nat)) :=
  d.explainAtMost (entries.map fun (c, a) => (c, -a)) (-rhs) limit
    (explained.map fun e => { e with coefficient := -e.coefficient })

/-- Follows the changes of a bound backwards, at most a given number of them, to the one which made
a literal true. -/
def sourceFrom (d : Domain α) (literal : BoundChange α) : Nat → Option Nat → Checked LiteralSource
  | 0, _ => .ok .everywhere
  | _ + 1, none => .ok .everywhere
  | steps + 1, some position => do
    if position < d.globalLength then return .everywhere
    let entry ← fetch d.log position
    if !literal.holdsFor entry.previous.value then return .since position
    sourceFrom d literal steps entry.previous.position

/-- Where a literal became true, if it holds before a limit. -/
def literalSource (d : Domain α) (literal : BoundChange α) (limit : Nat) :
    Checked (Option LiteralSource) := do
  let bound ← d.boundBefore literal.side literal.column limit
  if !literal.holdsFor bound.value then return none
  return some (← d.sourceFrom literal d.log.size bound.position)

/-- The positions of the earliest changes that made literals true, if all of them hold before a
limit. -/
def literalPositions (d : Domain α) (limit : Nat) :
    List (BoundChange α) → Checked (Option (List Nat))
  | [] => .ok (some [])
  | literal :: rest => do
    match ← d.literalSource literal limit with
    | none => return none
    | some source =>
      let positions ← literalPositions d limit rest
      return match source with
        | .everywhere => positions
        | .since position => positions.map (position :: ·)

/-- The positions of the changes which set the bounds of columns before a limit. -/
def boundPositions (d : Domain α) (limit : Nat) (columns : List ColumnId) :
    Checked (List Nat) := do
  let found ← columns.mapM fun c => do
    let lower ← d.boundBefore .lower c limit
    let upper ← d.boundBefore .upper c limit
    return lower.position.toList ++ upper.position.toList
  return found.flatten

/-- Explains a change by the objective cutoff. The linear inequality is tried first. Propagation
may have used the partitions of the objective, which it does not see; then every bound of a column
with a cost is taken. -/
def explainByObjective (d : Domain α) (limit : Nat) (explained : Option (Explained α)) :
    Checked (Option (List Nat)) := do
  match d.cutoffInequality? with
  | none => return none
  | some i =>
    match ← d.explainAtMost i.entries i.rhs limit explained with
    | some positions => return some positions
    | none =>
      let others := (i.entries.map Prod.fst).filter fun c =>
        !(explained.any fun e => e.change.column == c)
      return some (← d.boundPositions limit others)

/-- The coefficient of the first entry of a column. -/
def coefficientOf (c : ColumnId) (entries : List (ColumnId × α)) : Option α :=
  (entries.find? fun entry => entry.1 == c).map Prod.snd

/-- Positions of earlier changes which explain the change at a position. -/
def explainChange (d : Domain α) (pools : Pools α) (position : Nat) :
    Checked (Option (List Nat)) := do
  let entry ← fetch d.log position
  let change := entry.change
  match entry.reason with
  | .rowUpper r =>
    let row ← d.model.row r
    match coefficientOf change.column row.entries with
    | none => return none
    | some a => d.explainAtMost row.entries row.upper position (some ⟨change, a⟩)
  | .rowLower r =>
    let row ← d.model.row r
    match coefficientOf change.column row.entries with
    | none => return none
    | some a => d.explainAtLeast row.entries row.lower position (some ⟨change, a⟩)
  | .cut pool id =>
    match d.cutBehind pools.cuts pool id with
    | none => return none
    | some cut =>
      match coefficientOf change.column cut.entries with
      | none => return none
      | some a => d.explainAtMost cut.entries cut.rhs position (some ⟨change, a⟩)
  | .conflict pool id =>
    match d.conflictBehind pools.conflicts pool id with
    | none => return none
    | some literals =>
      d.literalPositions position <| literals.filter fun literal =>
        literal.column != change.column || literal.side != change.side.opposite
  | .clique c value | .variableBound c value => d.literalPositions position [.fixing c value]
  | .objective =>
    let cost := (← d.model.column change.column).cost
    d.explainByObjective position (some ⟨change, cost⟩)
  | .branching | .unknown | .conflictingBounds _ => return none

/-- The changes behind two bounds which cross: the change at a position and the one that set the
opposite bound before it. -/
def explainCrossing (d : Domain α) (position : Nat) : Checked (List Nat) := do
  let change := (← fetch d.log position).change
  let opposite ← d.boundBefore change.side.opposite change.column position
  return position :: opposite.position.toList

/-- Positions which explain why the domain is infeasible. -/
def explainInfeasibility (d : Domain α) (pools : Pools α) : Checked (Option (List Nat)) := do
  match d.infeasible with
  | none => return none
  | some infeasible =>
    let limit := min (infeasible.position + 1) d.log.size
    match infeasible.reason with
    | .conflictingBounds position => return some (← d.explainCrossing position)
    | .rowUpper r =>
      let row ← d.model.row r
      d.explainAtMost row.entries row.upper limit none
    | .rowLower r =>
      let row ← d.model.row r
      d.explainAtLeast row.entries row.lower limit none
    | .cut pool id =>
      match d.cutBehind pools.cuts pool id with
      | none => return none
      | some cut => d.explainAtMost cut.entries cut.rhs limit none
    | .conflict pool id =>
      match d.conflictBehind pools.conflicts pool id with
      | none => return none
      | some literals => d.literalPositions limit literals
    | .objective => d.explainByObjective limit none
    | .branching | .unknown | .clique _ _ | .variableBound _ _ => return none

/-- Positions under which an inequality is violated by the current bounds. -/
def explainViolation (d : Domain α) (i : Inequality α) : Checked (Option (List Nat)) :=
  d.explainAtMost i.entries i.rhs d.log.size none

end Domain

end BranchBound
