import BranchBound.Incumbent
import BranchBound.Model.Basic
import BranchBound.Relaxation.Basic

/-!
# Primal heuristics

A heuristic looks for a solution near the solution of a relaxation. What it proposes need not be
feasible: every candidate is checked before it is submitted to the incumbent. Simple rounding
moves every fractional integer column in a direction in which no row can become violated, and
gives up when a column has no such direction.
-/

namespace BranchBound

/-- A heuristic of the user. -/
class Proposer (η : Type) (α : outParam Type) where
  name : η → String
  propose : η → Domain α → RelaxationSolution α → Option (Array α) × η

/-- A heuristic of the solver: simple rounding with its tolerance, or one of the user. -/
inductive Heuristic (α η : Type) where
  | rounding (feastol : α)
  | custom (proposer : η)
  deriving Repr

/-- A list of candidates, one of which is proposed in every call as long as there are some. -/
structure ProposalList (α : Type) where
  name : String
  candidates : List (Option (Array α))
  /-- The number of calls so far. -/
  calls : Nat
  deriving Repr

instance {α : Type} : Proposer (ProposalList α) α where
  name := ProposalList.name
  propose list _ _ :=
    (list.candidates.head?.join,
      { list with candidates := list.candidates.tail, calls := list.calls + 1 })

namespace Rounding

variable {α : Type} [Scalar α]

/-- The numbers of rows that may become violated when a column decreases and when it increases. -/
def locks (m : Model α) (c : ColumnId) : Checked (Nat × Nat) := do
  (← fetch m.occurrences c).foldlM
    (fun (down, up) (r, a) => do
      let row ← m.row r
      let hasLower := decide (-Scalar.infinity < row.lower)
      let hasUpper := decide (row.upper < Scalar.infinity)
      let locksDown := (decide (0 < a) && hasLower) || (decide (a < 0) && hasUpper)
      let locksUp := (decide (0 < a) && hasUpper) || (decide (a < 0) && hasLower)
      return (down + locksDown.toNat, up + locksUp.toNat)) (0, 0)

/-- A value rounded to an integer that is near, or else in a direction without locks. -/
def roundValue (m : Model α) (feastol : α) (c : ColumnId) (x : α) : Checked (Option α) := do
  let down := Scalar.floor x
  let up := Scalar.ceil x
  if x - down ≤ feastol then return some down
  if up - x ≤ feastol then return some up
  match ← locks m c with
  | (0, _) => return some down
  | (_, 0) => return some up
  | _ => return none

/-- Rounds the given columns of a point, keeping them within their bounds. -/
def roundColumns (d : Domain α) (feastol : α) :
    List ColumnId → Array α → Checked (Option (Array α))
  | [], point => .ok (some point)
  | c :: rest, point => do
    match ← roundValue d.model feastol c (← fetch point c) with
    | none => return none
    | some rounded =>
      let lower ← d.boundValue .lower c
      let upper ← d.boundValue .upper c
      let point ← store point c (Scalar.min (Scalar.max rounded lower) upper)
      roundColumns d feastol rest point

/-- The name of simple rounding. -/
def name : String := "simple rounding"

/-- The point found by rounding the integer columns of a relaxation solution. -/
def find (feastol : α) (d : Domain α) (solution : RelaxationSolution α) :
    Checked (Option (Array α)) :=
  if solution.values.size != d.model.columnCount then .ok none
  else roundColumns d feastol d.model.integerColumns solution.values

end Rounding

namespace Heuristic

variable {α η : Type} [Scalar α] [Proposer η α]

def name : Heuristic α η → String
  | rounding _ => Rounding.name
  | custom proposer => Proposer.name proposer

/-- The number of calls of a heuristic that counts them. -/
def calls? : Heuristic α (ProposalList α) → Option Nat
  | rounding _ => none
  | custom list => some list.calls

/-- The next candidate of a heuristic. -/
def find (d : Domain α) (solution : RelaxationSolution α) :
    Heuristic α η → Checked (Option (Array α) × Heuristic α η)
  | rounding feastol => do return (← Rounding.find feastol d solution, rounding feastol)
  | custom proposer =>
    let (point, proposer) := Proposer.propose proposer d solution
    .ok (point, custom proposer)

end Heuristic

/-- The heuristics of a solve. -/
structure HeuristicManager (α η : Type) where
  heuristics : List (Heuristic α η)
  /-- Heuristics run at nodes whose number is a multiple of this; never if it is zero. -/
  frequency : Nat
  feastol : α
  deriving Repr

/-- A solution by which a heuristic improved the incumbent. -/
structure Improvement (α : Type) where
  heuristic : String
  objective : α
  deriving Repr

namespace HeuristicManager

variable {α η : Type} [Scalar α] [Proposer η α]

def add (m : HeuristicManager α η) (heuristic : Heuristic α η) : HeuristicManager α η :=
  { m with heuristics := m.heuristics ++ [heuristic] }

/-- Whether heuristics run at the node with a number. -/
def runsAt (m : HeuristicManager α η) (number : Nat) : Bool :=
  0 < m.frequency && number % m.frequency == 0

/-- Submits a candidate to the incumbent if it is feasible. -/
def submit (feastol : α) (model : Model α) (incumbent : Incumbent α) (point : Array α) :
    Option α × Incumbent α :=
  if model.check point feastol then
    let objective := model.objectiveValue point
    let (accepted, incumbent) := incumbent.tryUpdate point objective
    (if accepted then some objective else none, incumbent)
  else (none, incumbent)

/-- Runs heuristics in order. -/
def runAll (feastol : α) (d : Domain α) (solution : RelaxationSolution α) :
    List (Heuristic α η) → Incumbent α →
      Checked (List (Improvement α) × Incumbent α × List (Heuristic α η))
  | [], incumbent => .ok ([], incumbent, [])
  | heuristic :: rest, incumbent => do
    let (candidate, heuristic) ← heuristic.find d solution
    let (accepted, incumbent) := match candidate with
      | none => (none, incumbent)
      | some point => submit feastol d.model incumbent point
    let (improvements, incumbent, rest) ← runAll feastol d solution rest incumbent
    let here := accepted.toList.map fun objective => ⟨heuristic.name, objective⟩
    return (here ++ improvements, incumbent, heuristic :: rest)

/-- Runs every heuristic and submits its candidate. Returns the improvements in order. -/
def run (m : HeuristicManager α η) (d : Domain α) (solution : RelaxationSolution α)
    (incumbent : Incumbent α) :
    Checked (List (Improvement α) × Incumbent α × HeuristicManager α η) := do
  let (improvements, incumbent, heuristics) ← runAll m.feastol d solution m.heuristics incumbent
  return (improvements, incumbent, { m with heuristics := heuristics })

end HeuristicManager

end BranchBound
