import BranchBound.Relaxation.Basic

/-!
# Relaxations that can be solved directly

For some relaxations an optimal solution can be written down. Without rows every column sits at
its cheapest bound. A knapsack row is filled greedily by the columns with the best ratio of cost
and weight. And when only a bound is needed, the columns may be left anywhere between their
bounds. The answers of such a relaxation can also be given in advance, and it can hold proofs and
cuts which it checks against the box before it solves.
-/

namespace BranchBound

/-- How a relaxation finds its solution. -/
inductive RelaxationRule (α : Type) where
  /-- Every column at its cheapest bound; the first few solves fail. -/
  | box (trouble : Nat)
  /-- A greedy filling of a knapsack. -/
  | knapsack (weights : List α) (capacity : α)
  /-- Integer columns at a distance above their lower bounds, with the cheapest objective. -/
  | shifted (distance : α)
  deriving Repr

/-- What was asked of a relaxation. -/
structure RelaxationTally where
  resolves : Nat
  recovers : Nat
  cuts : Nat
  bases : Nat
  forks : Nat
  deriving DecidableEq, Repr

namespace RelaxationTally

def zero : RelaxationTally := ⟨0, 0, 0, 0, 0⟩

def add (s t : RelaxationTally) : RelaxationTally :=
  ⟨s.resolves + t.resolves, s.recovers + t.recovers, s.cuts + t.cuts, s.bases + t.bases,
    s.forks + t.forks⟩

end RelaxationTally

/-- A relaxation with a direct solution. -/
structure ElementaryRelaxation (α : Type) where
  rule : RelaxationRule α
  columnCount : Nat
  /-- Answers that come before any solution. -/
  script : List (RelaxationResult α)
  /-- How often it can recover from numerical trouble. -/
  recoverable : Nat
  /-- Inequalities whose violation proves that the box holds no solution. -/
  proofs : List (Inequality α)
  /-- Whether the violated inequality is returned. -/
  sendsProof : Bool
  /-- Whether solutions come with a basis. -/
  hasBasis : Bool
  /-- What every added cut contributes to the objective. -/
  cutGain : α
  cuts : List (Inequality α)
  /-- Whether a basis was given for the next solve. -/
  isWarm : Bool
  /-- What was asked of this copy. -/
  tally : RelaxationTally
  deriving Repr

namespace ElementaryRelaxation

variable {α : Type} [Scalar α]

/-- The smallest value of the left-hand side of an inequality over the box. -/
def smallestActivity (d : Domain α) (i : Inequality α) : Checked α :=
  i.entries.foldlM
    (fun sum (c, a) => do return sum + a * (← d.boundValue (if 0 < a then .lower else .upper) c)) 0

/-- The first inequality violated by the whole box. -/
def violatedProof? (d : Domain α) (proofs : List (Inequality α)) :
    Checked (Option (Inequality α)) :=
  findFirst? (fun proof => do return proof.rhs + 1e-9 < (← smallestActivity d proof)) proofs

/-- Every column at its cheapest bound. -/
def solveBox (d : Domain α) : RelaxationResult α :=
  let values := (d.model.columns.toList.zip (d.lower.toList.zip d.upper.toList)).map
    fun (column, lower, upper) => if column.cost < 0 then upper.value else lower.value
  if values.any Scalar.isInfinite then .unbounded
  else .optimal ⟨values.toArray, d.model.objectiveValue values.toArray, none, 0⟩

/-- Raises columns in the order of a list as far as the bounds and the remaining capacity allow. -/
def fill (d : Domain α) : List (ColumnId × α) → Array α → α → Checked (Array α)
  | [], values, _ => .ok values
  | (c, weight) :: rest, values, remaining => do
    let value ← fetch values c
    let room := (← d.boundValue .upper c) - value
    let amount := Scalar.min room (Scalar.max remaining 0 / weight)
    fill d rest (← store values c (value + amount)) (remaining - amount * weight)

/-- The columns with a negative cost, those with the best ratio of cost and weight first. Each of
them needs a weight. -/
def fillingOrder (model : Model α) (weights : Array α) : Checked (List (ColumnId × α)) := do
  let rated ← collect (fun (column, c) => do
    if column.cost < 0 then
      let weight ← fetch weights c
      return some (column.cost / weight, c, weight)
    else return none) model.columns.toList.zipIdx
  return (rated.mergeSort fun x y => Scalar.totalOrder x.1 y.1 != .gt).map Prod.snd

/-- The greedy filling of a knapsack. -/
def solveKnapsack (d : Domain α) (weights : List α) (capacity : α) :
    Checked (RelaxationResult α) := do
  let values := d.lowerValues
  let used := (values.toList.zip weights).foldl (fun sum (x, w) => sum + x * w) 0
  let remaining := capacity - used
  if remaining < -1e-9 then
    return .infeasible (some ⟨d.model.columnIds.zip weights, capacity⟩)
  let values ← fill d (← fillingOrder d.model weights.toArray) values remaining
  return .optimal ⟨values, d.model.objectiveValue values, none, 1⟩

/-- The cheapest value of a column; zero if it has no cost and no bounds. -/
def cheapest (cost lower upper : α) : α :=
  if cost < 0 then upper
  else if 0 < cost then lower
  else if Scalar.isFinite lower then lower
  else if Scalar.isFinite upper then upper
  else 0

/-- Integer columns off their bounds by a distance, with the objective of the cheapest values. -/
def solveShifted (d : Domain α) (distance : α) : RelaxationResult α :=
  let columns := d.model.columns.toList.zip (d.lowerValues.toList.zip d.upperValues.toList)
  let best := columns.map fun (column, lower, upper) => cheapest column.cost lower upper
  if best.any Scalar.isInfinite then .unbounded
  else
    let values := (columns.zip best).map fun ((column, lower, upper), cheapestValue) =>
      if column.kind == .continuous || lower == upper then cheapestValue
      else if Scalar.isFinite lower then lower + distance
      else if Scalar.isFinite upper then upper - distance
      else distance
    .optimal ⟨values.toArray, d.model.objectiveValue best.toArray, none, 1⟩

/-- The basis in which every column stands where its value says. -/
def basisOf (d : Domain α) (values : Array α) : Basis :=
  let status (lower upper x : α) : BasisStatus :=
    if x == lower then .atLower
    else if x == upper then .atUpper
    else if x == 0 then .zero
    else .basic
  ⟨(values.toList.zip (d.lowerValues.toList.zip d.upperValues.toList)).map
    fun (x, lower, upper) => status lower upper x, []⟩

/-- Raises the objective of a solution by the gain of the cuts and attaches a basis. -/
def finish (r : ElementaryRelaxation α) (d : Domain α) :
    RelaxationResult α → RelaxationResult α × ElementaryRelaxation α
  | .optimal solution =>
    let solution :=
      { solution with objective := solution.objective + r.cutGain * Scalar.ofCount r.cuts.length }
    if r.hasBasis then
      (.optimal { solution with
        iterations := if r.isWarm then 1 else 5
        basis := some (basisOf d solution.values) }, { r with isWarm := false })
    else (.optimal solution, r)
  | other => (other, r)

/-- Solves by the rule of the relaxation. -/
def solve (r : ElementaryRelaxation α) (d : Domain α) :
    Checked (RelaxationResult α) × ElementaryRelaxation α :=
  match r.rule with
  | .box trouble =>
    if 0 < trouble then (.ok .numericalTrouble, { r with rule := .box (trouble - 1) })
    else (.ok (solveBox d), r)
  | .knapsack weights capacity =>
    match solveKnapsack d weights capacity with
    | .error fault => (.error fault, r)
    | .ok result =>
      let (result, r) := r.finish d result
      (.ok result, r)
  | .shifted distance =>
    let (result, r) := r.finish d (solveShifted d distance)
    (.ok result, r)

/-- Whether requests are counted. -/
def isCounted (r : ElementaryRelaxation α) : Bool :=
  match r.rule with
  | .box _ => false
  | _ => true

/-- Answers from the script, by a violated proof or cut, or by solving. -/
def resolve (r : ElementaryRelaxation α) (d : Domain α) :
    Checked (RelaxationResult α) × ElementaryRelaxation α :=
  let r :=
    if r.isCounted then { r with tally := { r.tally with resolves := r.tally.resolves + 1 } } else r
  match r.script with
  | answer :: rest => (.ok answer, { r with script := rest })
  | [] =>
    match violatedProof? d (r.proofs ++ r.cuts) with
    | .error fault => (.error fault, r)
    | .ok (some proof) => (.ok (.infeasible (if r.sendsProof then some proof else none)), r)
    | .ok none => r.solve d

def fork (r : ElementaryRelaxation α) : ElementaryRelaxation α × ElementaryRelaxation α :=
  let counted := if r.isCounted then { r.tally with forks := r.tally.forks + 1 } else r.tally
  ({ r with tally := counted }, { r with tally := .zero })

def recover (r : ElementaryRelaxation α) : Bool × ElementaryRelaxation α :=
  if r.recoverable == 0 then (false, r)
  else
    (true, { r with
      recoverable := r.recoverable - 1
      tally := { r.tally with recovers := r.tally.recovers + 1 } })

def addCuts (r : ElementaryRelaxation α) (cuts : List (Inequality α)) : ElementaryRelaxation α :=
  if r.isCounted then
    { r with
      cuts := r.cuts ++ cuts
      tally := { r.tally with cuts := r.tally.cuts + cuts.length } }
  else r

def setBasis (r : ElementaryRelaxation α) (_ : Basis) : ElementaryRelaxation α :=
  if r.isCounted then
    { r with isWarm := true, tally := { r.tally with bases := r.tally.bases + 1 } }
  else r

instance : Relaxation (ElementaryRelaxation α) α where
  columnCount := columnCount
  resolve := resolve
  fork := fork
  recover := recover
  addCuts := addCuts
  setBasis := setBasis

end ElementaryRelaxation

end BranchBound
