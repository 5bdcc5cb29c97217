import BranchBound.Clique.Extraction
import BranchBound.Domain.Objective
import BranchBound.Domain.Stack
import BranchBound.Implication.Probing
import BranchBound.Search.Shared
import BranchBound.Solver.Statistics

/-!
# Processing the root

Before a solve searches, it tightens what holds in every node: cliques and variable bounds are
detected in the rows and propagated together with the objective, the relaxation is solved and cut
off in rounds, heuristics look for a first incumbent, and binary columns are probed.
-/

namespace BranchBound

/-- The state of processing the root. -/
structure RootState (α ρ σ η τ : Type) where
  /-- The domain of the root. -/
  domain : Domain α
  relaxation : ρ
  shared : Shared α σ η τ
  statistics : RootStatistics

/-- The outcome of processing the root. -/
inductive RootResult (α : Type) where
  | infeasible
  | unbounded
  /-- The root was processed; without a solution the relaxation could not be solved. -/
  | processed (solution : Option (RelaxationSolution α))
  deriving Repr

/-- A step of processing the root. -/
abbrev RootStep (α ρ σ η τ : Type) := StateT (RootState α ρ σ η τ) Checked

namespace RootStep

variable {α ρ σ η τ : Type} [Scalar α]

def setShared (shared : Shared α σ η τ) : RootStep α ρ σ η τ Unit :=
  modify fun s => { s with shared := shared }

def setDomain (d : Domain α) : RootStep α ρ σ η τ Unit := modify fun s => { s with domain := d }

/-- Adds a notice to the journal. -/
def notify (notice : Notice α) : RootStep α ρ σ η τ Unit :=
  modify fun s => { s with shared := s.shared.notify [notice] }

/-- Changes the statistics. -/
def changeStatistics (f : RootStatistics → Checked RootStatistics) : RootStep α ρ σ η τ Unit := do
  let statistics ← f (← get).statistics
  modify fun s => { s with statistics := statistics }

/-- Changes the domain and notes what was logged. -/
def changeDomain (f : Domain α → Checked (Domain α)) : RootStep α ρ σ η τ Unit := do
  let before := (← get).domain
  let after ← f before
  setDomain after
  setShared ((← get).shared.report before after)

/-- Propagates the domain; the flag says whether it is still feasible. -/
def propagate : RootStep α ρ σ η τ Bool := do
  let s ← get
  let (shared, d) ← s.shared.propagate s.domain
  setShared shared
  setDomain d
  return !d.isInfeasible

/-- Detects cliques, the partitions they make of the columns with a cost, and variable bounds, all
of which are propagated from then on. Returns the variable bounds. -/
def detectStructure : RootStep α ρ σ η τ (Implications α) := do
  let d := (← get).domain
  let (found, cliques) ← (CliqueTable.extract d).finish (.empty d.columnCount)
  notify (.cliquesExtracted found d.model.rowCount)
  changeStatistics fun s => return { s with cliques := found }
  let withCost ← keepIf
    (fun c => do
      if !(← d.isBinary c) then return false
      return (← d.model.column c).cost != 0) d.model.columnIds
  let d ← (d.setCliques cliques).setupObjective (← cliques.partition withCost)
  let bounds ← VariableBounds.detect d
  setDomain (d.setVariableBounds bounds)
  return ⟨bounds, []⟩

/-- The consequences of fixing a binary column in the domain. -/
def consequences (implications : Implications α) (c : ColumnId) (value : Bool) :
    RootStep α ρ σ η τ (Consequences α × Implications α) := do
  let s ← get
  let (answer, implications, pools) ←
    (Implications.consequences s.domain c value).finish (implications, s.shared.pools)
  let shared := { s.shared with pools := pools }
  setShared (shared.report s.domain (answer.probed.getD s.domain))
  return (answer.consequences, implications)

/-- Fixes the binary columns of a list for which one value is impossible. Returns the number of
fixed columns, or nothing if the domain became infeasible. -/
def probe (implications : Implications α) (fixed : Nat) :
    List ColumnId → RootStep α ρ σ η τ (Option Nat)
  | [] => return some fixed
  | c :: rest => do
    let d := (← get).domain
    if ← d.isFixed c then probe implications fixed rest
    else
      let (down, implications) ← consequences implications c false
      let (up, implications) ← consequences implications c true
      let value? : Option α := match down, up with
        | .error _, _ => some 1
        | _, .error _ => some 0
        | _, _ => none
      match value? with
      | none => probe implications fixed rest
      | some value =>
        changeDomain fun d => d.fixColumn c value .unknown
        if ← propagate then probe implications (fixed + 1) rest else return none

/-- Probes binary columns that are not fixed, as many as the options allow. Returns whether the
domain is still feasible. -/
def probeColumns (implications : Implications α) : RootStep α ρ σ η τ Bool := do
  let s ← get
  let d := s.domain
  let candidates ← keepIf (fun c => return (← d.isBinary c) && !(← d.isFixed c)) d.model.columnIds
  match ← probe implications 0 (candidates.take s.shared.options.maxProbingColumns) with
  | none => return false
  | some fixed =>
    if 0 < fixed then notify (.columnsProbed fixed)
    changeStatistics fun s => return { s with probingFixings := fixed }
    return true

variable [Relaxation ρ α]

/-- Solves the relaxation and counts its iterations. -/
def resolve : RootStep α ρ σ η τ (RelaxationResult α) := do
  let s ← get
  let (result, relaxation) := Relaxation.resolve s.relaxation s.domain
  set { s with relaxation := relaxation }
  match ← result with
  | .optimal solution =>
    changeStatistics fun s =>
      return { s with iterations := ← count 64 s.iterations solution.iterations }
    return .optimal solution
  | other => return other

/-- Solves the relaxation, after numerical trouble as often again as a budget allows and the
relaxation can recover. -/
def resolveWithin : Nat → RootStep α ρ σ η τ (RelaxationResult α)
  | 0 => resolve
  | budget + 1 => do
    match ← resolve with
    | .numericalTrouble =>
      let s ← get
      let (recovered, relaxation) := Relaxation.recover s.relaxation
      set { s with relaxation := relaxation }
      if recovered then resolveWithin budget else return .numericalTrouble
    | other => return other

/-- Ends the round of the cuts in the relaxation: those that a point satisfies with equality were
used. -/
def ageCuts (cuts : List (CutId × Inequality α)) (solution : RelaxationSolution α) :
    RootStep α ρ σ η τ Unit := do
  let s ← get
  let tight ← keepIf (fun (_, cut) => return decide (cut.rhs - s.shared.separation.feastol ≤
    (← cut.activity solution.values))) cuts
  setShared (← s.shared.ageCuts (tight.map Prod.fst))

variable [Separator σ α]

/-- Separates at most a given number of rounds of cuts, until a round finds no violated cut or
improves the objective value by too little. Returns the last result of the relaxation. -/
def separate (round : Nat) (cuts : List (CutId × Inequality α))
    (solution : RelaxationSolution α) : Nat → RootStep α ρ σ η τ (RelaxationResult α)
  | 0 => return .optimal solution
  | rounds + 1 => do
    let s ← get
    let (violated, shared) ← s.shared.separate s.domain solution
    setShared shared
    if violated.isEmpty then return .optimal solution
    changeStatistics fun s => return { s with
      separationRounds := ← count 64 s.separationRounds 1
      cuts := ← count 64 s.cuts violated.length }
    modify fun s =>
      { s with relaxation := Relaxation.addCuts s.relaxation (violated.map Prod.snd) }
    let cuts := cuts ++ violated
    if !(← propagate) then return .infeasible none
    match ← resolve with
    | .optimal next =>
      ageCuts cuts next
      notify (.rootRoundSeparated round next.objective cuts.length)
      let least := s.shared.options.separation.rootMinImprovement *
        Scalar.max (Scalar.abs solution.objective) 1
      if next.objective - solution.objective < least then return .optimal next
      else separate (round + 1) cuts next rounds
    | other => return other

/-- Solves the relaxation of the root and separates cuts. -/
def solveRelaxation : RootStep α ρ σ η τ (RelaxationResult α) := do
  let options := (← get).shared.options
  match ← resolveWithin options.retryBudget with
  | .optimal solution => separate 0 [] solution options.separation.rootRounds
  | other => return other

variable [Proposer η α]

/-- Runs the heuristics on the solution of the relaxation, if there is one, and probes columns. -/
def conclude (implications : Implications α) (solution : Option (RelaxationSolution α)) :
    RootStep α ρ σ η τ (RootResult α) := do
  match solution with
  | some solution =>
    let s ← get
    let (found, shared) ← s.shared.runHeuristics s.domain solution
    setShared shared
    changeStatistics fun s => return { s with solutions := found }
  | none => notify .rootUnsolved
  let isFeasible ←
    if (← get).shared.options.rootProbing then probeColumns implications else pure true
  return if isFeasible then .processed solution else .infeasible

/-- Processes the root. -/
def process : RootStep α ρ σ η τ (RootResult α) := do
  let implications ← detectStructure
  if !(← propagate) then return .infeasible
  match ← solveRelaxation with
  | .optimal solution => conclude implications (some solution)
  | .infeasible _ => return .infeasible
  | .unbounded => return .unbounded
  | .numericalTrouble => conclude implications none

end RootStep

end BranchBound
