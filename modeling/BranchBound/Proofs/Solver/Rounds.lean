import BranchBound.Proofs.Checked
import BranchBound.Proofs.Search.Visit
import BranchBound.Proofs.Solver.VettedRoot
import BranchBound.Solver.Solve
import Mathlib.Logic.Relation

/-!
# The rounds of a solve

A solve prepares the root and then runs rounds over the tree below it: at the head of every round it
decides whether it goes on. `Solver.Prepared` and `TreeState.Round` say what the two consist of, and
a run of the tree is a number of rounds with an end.
-/

namespace BranchBound

open Checked BranchBound.Action

variable {α ρ σ η τ : Type} [Scalar α] [Relaxation ρ α] [Separator σ α] [Proposer η α]
  [StopCondition τ]

namespace TreeState

/-- Exploring a node installs it and searches below it. Then the others go on. -/
theorem explore_yields [Others α σ η τ] {shared shared' : Shared α σ η τ}
    {worker worker' : Search α ρ} {node : OpenNode α} {suspended : List (OpenNode α)}
    (h : explore shared worker (some node) = .ok (worker', suspended, shared')) :
    ∃ installed explored : SearchState α ρ σ η τ,
      (SearchStep.install node).perform ⟨worker, shared⟩ = (.ok (), installed) ∧
      SearchStep.solveDepthFirst.perform installed = (.ok suspended, explored) ∧
      worker' = explored.search ∧ shared' = Others.turn explored.shared := by
  simp only [explore] at h
  split at h
  · next hrun =>
      cases h
      obtain ⟨_, installed, hinstall, hrest⟩ := perform_bind_eq_ok.mp hrun
      obtain ⟨_, explored, hsolve, hyield⟩ := perform_bind_eq_ok.mp hrest
      cases hyield
      exact ⟨installed, explored, hinstall, hsolve, rfl, rfl⟩
  · cases h

/-- On its own a search leaves what it explored. -/
theorem explore_eq_ok {shared shared' : Shared α σ η τ} {worker worker' : Search α ρ}
    {node : OpenNode α} {suspended : List (OpenNode α)}
    (h : explore shared worker (some node) = .ok (worker', suspended, shared')) :
    ∃ installed : SearchState α ρ σ η τ,
      (SearchStep.install node).perform ⟨worker, shared⟩ = (.ok (), installed) ∧
      SearchStep.solveDepthFirst.perform installed = (.ok suspended, ⟨worker', shared'⟩) := by
  obtain ⟨installed, explored, hinstall, hsolve, rfl, rfl⟩ := explore_yields h
  exact ⟨installed, hinstall, hsolve⟩

omit [Relaxation ρ α] [Separator σ α] [Proposer η α] [StopCondition τ] in
/-- Noting the progress of a tree adds to its journal only. -/
theorem noteProgress_keeps {t t' : TreeState α ρ σ η τ} (h : t.noteProgress = .ok t') :
    t'.workers = t.workers ∧ t'.shared.condition = t.shared.condition ∧
      t'.statistics = t.statistics ∧ t'.queue = t.queue ∧ t'.stopped = t.stopped := by
  simp only [noteProgress] at h
  split at h
  · simp only [bind_eq_ok, pure_eq_ok] at h
    obtain ⟨_, -, rfl⟩ := h
    exact ⟨rfl, rfl, rfl, rfl, rfl⟩
  · cases h
    exact ⟨rfl, rfl, rfl, rfl, rfl⟩

variable [Others α σ η τ]

/-- The tree at the head of the next round, if the solve goes on and it is not shown that nothing
can be improved. -/
def next? (t : TreeState α ρ σ η τ) : Checked (Option (TreeState α ρ σ η τ)) :=
  match t.continues with
  | (false, _) => .ok none
  | (true, s) => do
    let u ← s.runRound
    if u.improvementExcluded then return none
    else return some (← noteProgress { u with shared := ← u.shared.ageConflicts })

/-- From the head of one round to the head of the next. -/
def Round (t t' : TreeState α ρ σ η τ) : Prop := t.next? = .ok (some t')

theorem round_iff {t t' : TreeState α ρ σ η τ} :
    t.Round t' ↔ ∃ (s u : TreeState α ρ σ η τ) (shared : Shared α σ η τ),
      t.continues = (true, s) ∧ s.runRound = .ok u ∧ u.improvementExcluded = false ∧
      u.shared.ageConflicts = .ok shared ∧ noteProgress { u with shared := shared } = .ok t' := by
  unfold Round next?
  constructor
  · intro h
    split at h
    · cases h
    · next s hcontinues =>
        obtain ⟨u, hrun, h⟩ := bind_eq_ok.mp h
        split at h
        · cases h
        · next hopen =>
            simp only [bind_eq_ok, pure_eq_ok, Option.some.injEq] at h
            obtain ⟨shared, hage, _, hnote, rfl⟩ := h
            exact ⟨s, u, shared, hcontinues, hrun, by simpa using hopen, hage, hnote⟩
  · rintro ⟨s, u, shared, hcontinues, hrun, hopen, hage, hnote⟩
    rw [hcontinues]
    dsimp only
    rw [hrun, ok_bind, if_neg (by simp [hopen]), hage, ok_bind, hnote]
    rfl

/-- The last round: it is not begun, or it shows that nothing can be improved. -/
def Ends (t u : TreeState α ρ σ η τ) : Prop :=
  t.continues = (false, u) ∨ ∃ s v : TreeState α ρ σ η τ, t.continues = (true, s) ∧
    s.runRound = .ok v ∧ v.improvementExcluded = true ∧
    u = { v with queue := v.queue.clear }.notify .openNodesDropped

/-- A run consists of rounds, and the last one ends it. -/
theorem runWithin_rounds {t u : TreeState α ρ σ η τ} {rounds : Nat}
    (h : t.runWithin rounds = .ok u) : ∃ t', Relation.ReflTransGen Round t t' ∧ t'.Ends u := by
  induction rounds generalizing t with
  | zero => cases h
  | succ rounds ih =>
      rw [runWithin] at h
      split at h
      · next hcontinues =>
          cases h
          exact ⟨t, .refl, .inl hcontinues⟩
      · next s hcontinues =>
          obtain ⟨v, hrun, h⟩ := bind_eq_ok.mp h
          split at h
          · next hexcluded =>
              cases h
              exact ⟨t, .refl, .inr ⟨s, v, hcontinues, hrun, hexcluded, rfl⟩⟩
          · next hopen =>
              simp only [bind_eq_ok] at h
              obtain ⟨shared, hage, next, hnote, h⟩ := h
              obtain ⟨t', hrounds, hends⟩ := ih h
              have hround : t.Round next :=
                round_iff.mpr ⟨s, v, shared, hcontinues, hrun, by simpa using hopen, hage, hnote⟩
              exact ⟨t', .head hround hrounds, hends⟩

section Stops

omit [Others α σ η τ] [Relaxation ρ α] [Separator σ α] [Proposer η α]

/-- Why a tree is not explored any further: it was stopped, everything is explored, or the gap is
closed. -/
inductive Stops (t : TreeState α ρ σ η τ) : Prop
  | asked (condition : τ) (h : t.stopped = some (StopCondition.status condition))
  | crowded (h : t.stopped = some .memoryLimit)
  | explored (hrunning : t.stopped = none) (h : t.queue.isEmpty = true)
  | closed (hrunning : t.stopped = none)
    (h : Gap.isClosed t.shared.options t.shared.incumbent.objective t.openBound = true)

variable {t t' : TreeState α ρ σ η τ}

theorem continues_stops (hrunning : t.stopped = none) (h : t.continues = (false, t')) :
    t'.Stops := by
  unfold continues at h
  dsimp only at h
  split at h
  · cases h
    exact .asked _ rfl
  · split at h
    · next hempty =>
        cases h
        exact .explored hrunning hempty
    · split at h
      · next hclosed =>
          cases h
          exact .closed hrunning hclosed
      · split at h
        · cases h
          exact .crowded rfl
        · cases h

theorem continues_stopped (h : t.continues = (true, t')) : t'.stopped = t.stopped := by
  unfold continues at h
  dsimp only at h
  split at h
  · cases h
  · split at h
    · cases h
    · split at h
      · cases h
      · split at h
        · cases h
        · cases h
          rfl

/-- Deciding whether to go on does not exclude improvements. -/
theorem continues_improvementExcluded {goes : Bool} (h : t.continues = (goes, t')) :
    t'.improvementExcluded = t.improvementExcluded := by
  unfold continues at h
  dsimp only at h
  split at h
  · cases h
    rfl
  · split at h
    · cases h
      rfl
    · split at h
      · cases h
        rfl
      · split at h
        · cases h
          rfl
        · cases h
          rfl

end Stops

variable {t t' : TreeState α ρ σ η τ}

/-- A round does not stop the tree. -/
theorem runRound_stopped (h : t.runRound = .ok t') : t'.stopped = t.stopped := by
  simp only [runRound, bind_eq_ok] at h
  obtain ⟨_, _, h⟩ := h
  refine foldlM_keeps (P := fun u => u.stopped = t.stopped) (fun u worker u' _ hu hcollect => ?_) h
    rfl
  simp only [collectWorker, bind_eq_ok, pure_eq_ok] at hcollect
  obtain ⟨_, -, _, -, _, -, rfl⟩ := hcollect
  exact hu

/-- A tree whose exploration goes on was not stopped. -/
theorem rounds_stopped (h : Relation.ReflTransGen Round t t') : t'.stopped = t.stopped := by
  induction h with
  | refl => rfl
  | tail _ hround ih =>
      obtain ⟨s, u, shared, hcontinues, hrun, -, -, hnote⟩ := round_iff.mp hround
      have hu : u.stopped = s.stopped := runRound_stopped hrun
      exact (noteProgress_keeps hnote).2.2.2.2.trans
        (hu.trans ((continues_stopped hcontinues).trans ih))

/-- A tree whose exploration goes on may hold an improvement. -/
theorem rounds_improvementExcluded (h : Relation.ReflTransGen Round t t')
    (hopen : t.improvementExcluded = false) : t'.improvementExcluded = false := by
  cases h with
  | refl => exact hopen
  | tail _ hround =>
      obtain ⟨s, u, shared, -, -, hopen, -, hnote⟩ := round_iff.mp hround
      simp only [noteProgress] at hnote
      split at hnote
      · simp only [bind_eq_ok, pure_eq_ok] at hnote
        obtain ⟨_, -, rfl⟩ := hnote
        exact hopen
      · cases hnote
        exact hopen

/-- A run ends since improvements are excluded, with nothing left in the queue, or it stops before a
round. -/
theorem run_ends (h : t.run = .ok t') (hrunning : t.stopped = none)
    (hopen : t.improvementExcluded = false) :
    t'.improvementExcluded = true ∧ t'.stopped = none ∧ t'.queue.minLowerBound = Scalar.infinity ∨
      t'.improvementExcluded = false ∧ t'.Stops := by
  obtain ⟨last, hrounds, hends⟩ := runWithin_rounds h
  have hlast : last.stopped = none := (rounds_stopped hrounds).trans hrunning
  rcases hends with hcontinues | ⟨s, v, hcontinues, hrun, hexcluded, rfl⟩
  · exact .inr ⟨(continues_improvementExcluded hcontinues).trans
      (rounds_improvementExcluded hrounds hopen), continues_stops hlast hcontinues⟩
  · exact .inl ⟨hexcluded,
      (runRound_stopped hrun).trans ((continues_stopped hcontinues).trans hlast), rfl⟩

end TreeState

/-! ### The beginning and the end of a solve -/

/-- The smallest lower bound of a node that was given up and may be the subtree of an
improvement. -/
def TreeState.lostBound (t : TreeState α ρ σ η τ) : α :=
  if t.improvementExcluded then Scalar.infinity else t.givenUpBound

/-- The solution of a root that was processed with one. -/
def RootResult.solution? : RootResult α → Option (RelaxationSolution α)
  | infeasible | unbounded => none
  | processed solution => solution

omit [Scalar α] in
theorem RootResult.eq_processed {result : RootResult α} {solution : RelaxationSolution α}
    (h : result.solution? = some solution) : result = .processed (some solution) := by
  cases result with
  | infeasible | unbounded => cases h
  | processed found => exact congrArg _ h

namespace Solver

omit [Separator σ α] [Proposer η α] [StopCondition τ] in
/-- The workers of a tree are searches without nodes over its domain. -/
theorem mem_makeWorkers {options : Options α} {d : Domain α} {coin : UInt64 → Coin} {seed : UInt64}
    {relaxation : ρ} {workers : Nat} {worker : Search α ρ}
    (h : worker ∈ (makeWorkers options d coin seed relaxation workers).1) :
    ∃ copy seed', worker = .ofDomain d copy options seed' coin := by
  induction workers generalizing seed relaxation with
  | zero => cases h
  | succ workers ih =>
      rcases List.mem_cons.mp h with rfl | hrest
      · exact ⟨_, _, rfl⟩
      · exact ih hrest

/-- The root at the beginning of a solve. -/
def rootOver (s : Solver α ρ σ η) (condition : τ) (d : Domain α) : RootState α ρ σ η τ :=
  ⟨d, s.relaxation, s.initialShared condition, .zero⟩

/-- The root of a solve is processed, with a solution of its relaxation, and it is feasible. -/
inductive Prepared (s : Solver α ρ σ η) (condition : τ)
    (solution : Option (RelaxationSolution α)) : RootState α ρ σ η τ → Prop
  | processed {d : Domain α} {start root : RootState α ρ σ η τ} (hd : s.initialDomain = .ok d)
      (hpropagate : RootStep.propagate.run (s.rootOver condition d) = .ok (true, start))
      (hprocess : RootStep.process.run start = .ok (.processed solution, root))
      (hsymmetry : (if s.options.symmetry then s.detectSymmetry else none) = none) :
      Prepared s condition solution root
  | fixed {d : Domain α} {start middle root : RootState α ρ σ η τ} (hd : s.initialDomain = .ok d)
      (hpropagate : RootStep.propagate.run (s.rootOver condition d) = .ok (true, start))
      (hprocess : RootStep.process.run start = .ok (.processed solution, middle))
      {detect : Model α → List (List ColumnId)}
      (hsymmetry : (if s.options.symmetry then s.detectSymmetry else none) = some detect)
      (hfixed : (useSymmetry (detect s.model)).run middle = .ok (true, root)) :
      Prepared s condition solution root

/-- The tree at the head of the first round of a solve, below a root with a solution. -/
def Explores (s : Solver α ρ σ η) (condition : τ) (solution : Option (RelaxationSolution α))
    (tree : TreeState α ρ σ η τ) : Prop :=
  ∃ root relaxation, s.Prepared condition solution root ∧
    s.treeBelow root solution = .ok (tree, relaxation)

/-- The solve does not get beyond the root. -/
inductive EndsAtRoot (s : Solver α ρ σ η) (condition : τ) : SolveOutcome α ρ σ η → Prop
  | propagated {d : Domain α} {root : RootState α ρ σ η τ} (hd : s.initialDomain = .ok d)
      (hpropagate : RootStep.propagate.run (s.rootOver condition d) = .ok (false, root)) :
      EndsAtRoot s condition
        (s.finishAtRoot root .infeasibleByRootPropagation .infeasible Scalar.infinity)
  | infeasible {d : Domain α} {start root : RootState α ρ σ η τ} (hd : s.initialDomain = .ok d)
      (hpropagate : RootStep.propagate.run (s.rootOver condition d) = .ok (true, start))
      (hprocess : RootStep.process.run start = .ok (.infeasible, root)) :
      EndsAtRoot s condition (s.finishAtRoot root .infeasibleRoot .infeasible Scalar.infinity)
  | unbounded {d : Domain α} {start root : RootState α ρ σ η τ} (hd : s.initialDomain = .ok d)
      (hpropagate : RootStep.propagate.run (s.rootOver condition d) = .ok (true, start))
      (hprocess : RootStep.process.run start = .ok (.unbounded, root)) :
      EndsAtRoot s condition (s.finishAtRoot root .unboundedRoot .unbounded (-Scalar.infinity))
  | fixed {d : Domain α} {start middle root : RootState α ρ σ η τ} (hd : s.initialDomain = .ok d)
      (hpropagate : RootStep.propagate.run (s.rootOver condition d) = .ok (true, start))
      {solution : Option (RelaxationSolution α)}
      (hprocess : RootStep.process.run start = .ok (.processed solution, middle))
      {detect : Model α → List (List ColumnId)}
      (hsymmetry : (if s.options.symmetry then s.detectSymmetry else none) = some detect)
      (hfixed : (useSymmetry (detect s.model)).run middle = .ok (false, root)) :
      EndsAtRoot s condition
        (s.finishAtRoot root .infeasibleByOrbitalFixing .infeasible Scalar.infinity)

omit [StopCondition τ] in
/-- A solve that does not get beyond the root evaluates no node, and ends for lack of solutions. -/
theorem EndsAtRoot.result {s : Solver α ρ σ η} {condition : τ} {outcome : SolveOutcome α ρ σ η}
    (h : s.EndsAtRoot condition outcome) : outcome.result.statistics.nodes = 0 ∧
      (outcome.result.status = .infeasible ∨ outcome.result.status = .unbounded) := by
  cases h with
  | propagated | infeasible | fixed => exact ⟨rfl, .inl rfl⟩
  | unbounded => exact ⟨rfl, .inr rfl⟩

/-- What a result tells of an explored tree. -/
structure ReportsTree (t : TreeState α ρ σ η τ) (result : SolveResult α) : Prop where
  statistics : result.statistics = t.statistics
  status : result.status = statusOf { t with givenUpBound := t.lostBound }
  solution : result.solution = t.shared.incumbent.solution
  objective : result.objective = t.shared.incumbent.objective
  dualBound : result.dualBound =
    Scalar.min (Scalar.min t.queue.minLowerBound t.lostBound) t.shared.incumbent.objective

omit [Relaxation ρ α] [Separator σ α] [Proposer η α] [StopCondition τ] in
theorem finishTree_reports (s : Solver α ρ σ η) (relaxation : ρ) (t : TreeState α ρ σ η τ) :
    ReportsTree t (s.finishTree relaxation t).result := by
  unfold finishTree
  dsimp only
  split
  · next hexcluded =>
      have hlost : t.lostBound = Scalar.infinity := if_pos hexcluded
      split
      · exact ⟨rfl, by rw [hlost]; rfl, rfl, rfl, by rw [hlost]; rfl⟩
      · exact ⟨rfl, by rw [hlost]; rfl, rfl, rfl, by rw [hlost]; rfl⟩
  · next hopen =>
      have hlost : t.lostBound = t.givenUpBound := if_neg hopen
      split
      · exact ⟨rfl, by rw [hlost]; rfl, rfl, rfl, by rw [hlost]; rfl⟩
      · exact ⟨rfl, by rw [hlost]; rfl, rfl, rfl, by rw [hlost]; rfl⟩

/-- A solve ends at the root, or it explores the tree below the root. -/
theorem solve_cases {s : Solver α ρ σ η} {condition : τ} {outcome : SolveOutcome α ρ σ η}
    (h : s.solve condition = .ok outcome) :
    s.EndsAtRoot condition outcome ∨
    ∃ (solution : Option (RelaxationSolution α)) (start last : TreeState α ρ σ η τ)
    (relaxation : ρ),
      s.Explores condition solution start ∧ start.run = .ok last ∧
      outcome = s.finishTree relaxation last := by
  have htree {root : RootState α ρ σ η τ} {solution : Option (RelaxationSolution α)}
      (hprepared : s.Prepared condition solution root)
      (hsolve : s.solveTree root solution = .ok outcome) :
      ∃ (start last : TreeState α ρ σ η τ) (relaxation : ρ),
        s.Explores condition solution start ∧ start.run = .ok last ∧
        outcome = s.finishTree relaxation last := by
    simp only [solveTree, bind_eq_ok, pure_eq_ok] at hsolve
    obtain ⟨⟨start, relaxation⟩, hbelow, last, hrun, rfl⟩ := hsolve
    exact ⟨start, last, relaxation, ⟨root, relaxation, hprepared, hbelow⟩, hrun, rfl⟩
  simp only [solve, bind_eq_ok] at h
  obtain ⟨d, hd, ⟨isFeasible, root⟩, hpropagate, h⟩ := h
  cases isFeasible with
  | false =>
      cases h
      exact .inl (.propagated hd hpropagate)
  | true =>
      obtain ⟨⟨result, processed⟩, hprocess, h⟩ := bind_eq_ok.mp h
      cases result with
      | infeasible =>
          cases h
          exact .inl (.infeasible hd hpropagate hprocess)
      | unbounded =>
          cases h
          exact .inl (.unbounded hd hpropagate hprocess)
      | processed solution =>
          dsimp only at h
          split at h
          · next hsymmetry =>
              exact .inr ⟨solution, htree (.processed hd hpropagate hprocess hsymmetry) h⟩
          · next detect hsymmetry =>
              obtain ⟨⟨isFeasible, fixed⟩, hfixed, h⟩ := bind_eq_ok.mp h
              cases isFeasible with
              | true =>
                  exact .inr ⟨solution, htree (.fixed hd hpropagate hprocess hsymmetry hfixed) h⟩
              | false =>
                  cases h
                  exact .inl (.fixed hd hpropagate hprocess hsymmetry hfixed)

end Solver

end BranchBound

/-!
## What the root leaves to the searches

Nothing at the root asks the condition whether to stop or tells it of a node, and all changes of the
domain are turns, so that its depth levels stay in order. The searches below the root begin with the
condition of the solve as it was given. Before the heuristics run, nothing at the root changes the
incumbent.
-/

namespace BranchBound

open Checked

variable {α ρ σ η τ : Type} [Scalar α]

/-- Fixing columns by symmetries changes bounds. -/
theorem Symmetry.orbitalFixing_turns {symmetry : Symmetry} {d d' : Domain α} {fixed : Nat}
    (h : symmetry.orbitalFixing d = .ok (fixed, d')) : Domain.Turns d d' :=
  orbitalFixing_keeps (P := Domain.Turns d) (fun _ _ _ hd hchange => hd.tail (.change hchange)) h
    .refl

/-- The condition of a root is a given one, its domain came from another one by turns, and its
incumbent has a property. -/
structure RootState.Framed (condition : SharedCondition τ) (d : Domain α) (I : Incumbent α → Prop)
    (s : RootState α ρ σ η τ) : Prop where
  condition : s.shared.condition = condition
  turns : Domain.Turns d s.domain
  incumbent : I s.shared.incumbent

namespace RootStep

variable {β γ : Type} {condition : SharedCondition τ} {d : Domain α} {I : Incumbent α → Prop}

/-- The step keeps the frame of the root. -/
abbrev Frames (condition : SharedCondition τ) (d : Domain α) (I : Incumbent α → Prop)
    (x : RootStep α ρ σ η τ β) : Prop :=
  Leads (RootState.Framed condition d I) x fun _ => RootState.Framed condition d I

theorem pure_frames {b : β} : Frames condition d I (pure b : RootStep α ρ σ η τ β) :=
  Leads.pure fun _ h => h

theorem setShared_frames {shared : Shared α σ η τ} (h : shared.condition = condition)
    (hincumbent : I shared.incumbent) :
    Frames condition d I (setShared shared : RootStep α ρ σ η τ Unit) :=
  Leads.modify fun _ hs => ⟨h, hs.turns, hincumbent⟩

theorem setDomain_frames {d' : Domain α} (h : Domain.Turns d d') :
    Frames condition d I (setDomain d' : RootStep α ρ σ η τ Unit) :=
  Leads.modify fun _ hs => ⟨hs.condition, h, hs.incumbent⟩

theorem notify_frames (notice : Notice α) :
    Frames condition d I (notify notice : RootStep α ρ σ η τ Unit) :=
  Leads.modify fun _ hs => ⟨hs.condition, hs.turns, hs.incumbent⟩

theorem changeStatistics_frames (f : RootStatistics → Checked RootStatistics) :
    Frames condition d I (changeStatistics f : RootStep α ρ σ η τ Unit) :=
  Leads.get.knowing fun _ _ => Leads.lift.knowing fun _ _ =>
    Leads.modify fun _ hs => ⟨hs.condition, hs.turns, hs.incumbent⟩

theorem changeDomain_frames {f : Domain α → Checked (Domain α)}
    (h : ∀ e e', Domain.Turns d e → f e = .ok e' → Domain.Turns d e') :
    Frames condition d I (changeDomain f : RootStep α ρ σ η τ Unit) :=
  Leads.get.knowing fun _ hs => Leads.lift.knowing fun _ hafter =>
    (setDomain_frames (h _ _ hs.turns hafter)).bind fun _ =>
      Leads.get.knowing fun _ ht => setShared_frames ht.condition ht.incumbent

theorem propagate_frames : Frames condition d I (propagate : RootStep α ρ σ η τ Bool) := by
  refine Leads.get.knowing fun s hs => Leads.lift.knowing fun result hresult => ?_
  have hcondition := (Shared.propagate_condition hresult).trans hs.condition
  have hincumbent : I result.1.incumbent := Shared.propagate_incumbent hresult ▸ hs.incumbent
  simp only [Shared.propagate, bind_eq_ok, pure_eq_ok] at hresult
  obtain ⟨⟨pools, after⟩, hpropagate, rfl⟩ := hresult
  exact (setShared_frames hcondition hincumbent).bind fun _ =>
    (setDomain_frames (hs.turns.trans
      (Domain.propagate_turns hpropagate))).bind fun _ => pure_frames

theorem detectStructure_frames :
    Frames condition d I (detectStructure : RootStep α ρ σ η τ (Implications α)) := by
  refine Leads.get.knowing fun s hs => Leads.lift.knowing fun found _ =>
    (notify_frames _).bind fun _ => (changeStatistics_frames _).bind fun _ =>
      Leads.lift.knowing fun withCost _ => Leads.lift.knowing fun partitions _ =>
        Leads.lift.knowing fun ready hready => Leads.lift.knowing fun bounds _ => ?_
  refine (setDomain_frames ?_).bind fun _ => pure_frames
  have hcliques : Domain.Turns d (s.domain.setCliques found.2) :=
    hs.turns.trans (Domain.Turns.keep rfl rfl rfl rfl)
  have hobjective : Domain.Turns d ready := by
    rw [Domain.setupObjective_eq_ok hready]
    exact hcliques.trans (Domain.Turns.keep rfl rfl rfl rfl)
  exact hobjective.trans (Domain.Turns.keep rfl rfl rfl rfl)

theorem consequences_frames (implications : Implications α) (c : ColumnId) (value : Bool) :
    Frames condition d I (consequences implications c value :
      RootStep α ρ σ η τ (Consequences α × Implications α)) :=
  Leads.get.knowing fun _ hs => Leads.lift.knowing fun _ _ =>
    Leads.bind (setShared_frames hs.condition hs.incumbent) fun _ => pure_frames

theorem probe_frames (implications : Implications α) (fixed : Nat) (columns : List ColumnId) :
    Frames condition d I (probe implications fixed columns : RootStep α ρ σ η τ (Option Nat)) := by
  induction columns generalizing implications fixed with
  | nil => exact pure_frames
  | cons c rest ih =>
      refine Leads.get.knowing fun s hs => Leads.lift.knowing fun isFixed _ =>
        Leads.ite (fun _ => ih _ _) fun _ => (consequences_frames _ _ _).bind fun down =>
          (consequences_frames _ _ _).bind fun up => ?_
      have hfix (value : α) : Frames condition d I (do
          changeDomain fun d => d.fixColumn c value .unknown
          if ← propagate then probe up.2 (fixed + 1) rest else return none :
          RootStep α ρ σ η τ (Option Nat)) := by
        refine (changeDomain_frames fun e e' he hfixed => ?_).bind fun _ =>
          propagate_frames.bind fun _ => Leads.ite (fun _ => ih _ _) fun _ => pure_frames
        have hperform : Operation.perform ⟨s.shared.pools, e⟩ (.fixColumn c value .unknown) =
            .ok ⟨s.shared.pools, e'⟩ := by
          rw [Operation.perform, PropagationState.onDomain_eq_ok]
          exact ⟨e', hfixed, rfl⟩
        exact he.trans (Operation.turns hperform)
      dsimp only
      split
      · exact ih _ _
      · exact hfix _

theorem probeColumns_frames (implications : Implications α) :
    Frames condition d I (probeColumns implications : RootStep α ρ σ η τ Bool) := by
  refine Leads.get.knowing fun s _ => Leads.lift.knowing fun candidates _ =>
    (probe_frames _ _ _).bind fun fixed => ?_
  cases fixed with
  | none => exact pure_frames
  | some fixed =>
      exact Leads.ite
        (fun _ => (notify_frames _).bind fun _ =>
          (changeStatistics_frames _).bind fun _ => pure_frames)
        fun _ => (changeStatistics_frames _).bind fun _ => pure_frames

variable [Relaxation ρ α]

theorem resolve_frames :
    Frames condition d I (resolve : RootStep α ρ σ η τ (RelaxationResult α)) := by
  refine Leads.get.knowing fun s hs => ?_
  refine Leads.bind (Q := fun _ => RootState.Framed condition d I)
    (Leads.modify fun _ _ => ⟨hs.condition, hs.turns, hs.incumbent⟩) fun _ => Leads.lift.knowing
      fun result _ => ?_
  cases result with
  | optimal solution => exact (changeStatistics_frames _).bind fun _ => pure_frames
  | infeasible proof => exact pure_frames
  | unbounded => exact pure_frames
  | numericalTrouble => exact pure_frames

theorem resolveWithin_frames (budget : Nat) :
    Frames condition d I (resolveWithin budget : RootStep α ρ σ η τ (RelaxationResult α)) := by
  induction budget with
  | zero => exact resolve_frames
  | succ budget ih =>
      refine resolve_frames.bind fun result => ?_
      cases result with
      | optimal solution => exact pure_frames
      | infeasible proof => exact pure_frames
      | unbounded => exact pure_frames
      | numericalTrouble =>
          refine Leads.get.knowing fun s hs => ?_
          exact Leads.bind (Q := fun _ => RootState.Framed condition d I)
            (Leads.modify fun _ _ => ⟨hs.condition, hs.turns, hs.incumbent⟩) fun _ =>
              Leads.ite (fun _ => ih) fun _ => pure_frames

omit [Relaxation ρ α] in
theorem ageCuts_frames (cuts : List (CutId × Inequality α)) (solution : RelaxationSolution α) :
    Frames condition d I (ageCuts cuts solution : RootStep α ρ σ η τ Unit) := by
  refine Leads.get.knowing fun s hs => Leads.lift.knowing fun tight _ =>
    Leads.lift.knowing fun shared hshared => ?_
  exact setShared_frames ((Shared.ageCuts_condition hshared).trans hs.condition)
    (Shared.ageCuts_incumbent hshared ▸ hs.incumbent)

variable [Separator σ α]

theorem separate_frames (round : Nat) (cuts : List (CutId × Inequality α))
    (solution : RelaxationSolution α) (rounds : Nat) :
    Frames condition d I (separate round cuts solution rounds :
      RootStep α ρ σ η τ (RelaxationResult α)) := by
  induction rounds generalizing round cuts solution with
  | zero => exact pure_frames
  | succ rounds ih =>
      refine Leads.get.knowing fun s hs => Leads.lift.knowing fun found hfound => ?_
      have hcondition : found.2.condition = condition :=
        (Shared.separate_kept hfound).condition.trans hs.condition
      have hincumbent : I found.2.incumbent := Shared.separate_incumbent hfound ▸ hs.incumbent
      refine (setShared_frames hcondition hincumbent).bind fun _ => Leads.ite (fun _ => pure_frames)
        fun _ =>
        (changeStatistics_frames _).bind fun _ => ?_
      refine Leads.bind (Q := fun _ => RootState.Framed condition d I)
        (Leads.modify fun _ ht => ⟨ht.condition, ht.turns, ht.incumbent⟩) fun _ =>
          propagate_frames.bind fun _ => ?_
      refine Leads.ite (fun _ => pure_frames) fun _ => resolve_frames.bind fun result => ?_
      cases result with
      | optimal next =>
          exact (ageCuts_frames _ _).bind fun _ => (notify_frames _).bind fun _ =>
            Leads.ite (fun _ => pure_frames) fun _ => ih _ _ _
      | infeasible proof => exact pure_frames
      | unbounded => exact pure_frames
      | numericalTrouble => exact pure_frames

theorem solveRelaxation_frames :
    Frames condition d I (solveRelaxation : RootStep α ρ σ η τ (RelaxationResult α)) := by
  refine Leads.get.knowing fun s _ => (resolveWithin_frames _).bind fun result => ?_
  cases result with
  | optimal solution => exact separate_frames _ _ _ _
  | infeasible proof => exact pure_frames
  | unbounded => exact pure_frames
  | numericalTrouble => exact pure_frames

variable [Proposer η α]

omit [Relaxation ρ α] [Separator σ α] in
theorem conclude_frames (implications : Implications α)
    (solution : Option (RelaxationSolution α)) :
    Frames condition d (fun _ => True)
      (conclude implications solution : RootStep α ρ σ η τ (RootResult α)) := by
  have hprobing : Frames condition d (fun _ => True) (do
      let isFeasible ←
        if (← get).shared.options.rootProbing then probeColumns implications else pure true
      return if isFeasible then .processed solution else .infeasible :
      RootStep α ρ σ η τ (RootResult α)) := by
    refine Leads.get.knowing fun s _ => Leads.ite (fun _ => ?_) fun _ =>
      pure_frames.bind fun _ => pure_frames
    exact (probeColumns_frames _).bind fun _ => pure_frames
  cases solution with
  | none => exact (notify_frames _).bind fun _ => hprobing
  | some solution =>
      refine Leads.get.knowing fun s hs => Leads.lift.knowing fun found hfound => ?_
      have hcondition := (Shared.runHeuristics_kept hfound).condition.trans hs.condition
      exact (setShared_frames hcondition trivial).bind fun _ =>
        (changeStatistics_frames _).bind fun _ => hprobing

theorem process_frames :
    Frames condition d (fun _ => True) (process : RootStep α ρ σ η τ (RootResult α)) := by
  refine detectStructure_frames.bind fun implications => propagate_frames.bind fun _ =>
    Leads.ite (fun _ => pure_frames) fun _ => solveRelaxation_frames.bind fun result => ?_
  cases result with
  | optimal solution => exact conclude_frames _ _
  | infeasible proof => exact pure_frames
  | unbounded => exact pure_frames
  | numericalTrouble => exact conclude_frames _ _

/-! ### Infeasibility before the heuristics run -/

variable {m : Model α} {o : Options α}

omit [Relaxation ρ α] [Separator σ α] in
/-- Once the heuristics run, only probing finds a root infeasible. -/
theorem conclude_feasible (ho : o.rootProbing = false) (implications : Implications α)
    (solution : Option (RelaxationSolution α)) :
    Leads (RootState.Vetted m o)
      (conclude implications solution : RootStep α ρ σ η τ (RootResult α))
      fun result _ => result ≠ .infeasible := by
  have hunprobed : Leads (RootState.Vetted m o) (do
      let isFeasible ←
        if (← get).shared.options.rootProbing then probeColumns implications else pure true
      return if isFeasible then .processed solution else .infeasible :
      RootStep α ρ σ η τ (RootResult α)) fun result _ => result ≠ .infeasible := by
    refine Leads.get.knowing fun s hs => ?_
    rw [hs.shared.options, ho, if_neg Bool.false_ne_true]
    exact (Leads.pure (Q := fun isFeasible _ => isFeasible = true) fun _ _ => rfl).bind
      fun isFeasible => Leads.pure fun _ hfeasible => by rw [if_pos hfeasible]; nofun
  cases solution with
  | none => exact (notify_vets _).bind fun _ => hunprobed
  | some solution =>
      refine Leads.get.knowing fun s hs => Leads.lift.knowing fun found hfound => ?_
      have hshared := hs.shared
      rw [← hs.model] at hshared
      have hfound := hshared.runHeuristics hfound
      rw [hs.model] at hfound
      exact (setShared_vets hfound).bind fun _ => (changeStatistics_vets _).bind fun _ => hunprobed

/-- Without probing, the incumbent of a root that is found infeasible is the one from before. -/
theorem process_infeasible (ho : o.rootProbing = false) :
    Leads (fun s => s.Framed condition d I ∧ s.Vetted m o)
      (process : RootStep α ρ σ η τ (RootResult α))
      fun result s => result = .infeasible → I s.shared.incumbent := by
  have hconclude (implications : Implications α) (solution : Option (RelaxationSolution α)) :
      Leads (fun s => s.Framed condition d I ∧ s.Vetted m o)
        (conclude implications solution : RootStep α ρ σ η τ (RootResult α))
        fun result s => result = .infeasible → I s.shared.incumbent :=
    fun s result t hs hrun hinfeasible =>
      absurd hinfeasible (conclude_feasible ho _ _ s result t hs.2 hrun)
  have hpure (result : RootResult α) : Leads (fun s => s.Framed condition d I ∧ s.Vetted m o)
      (pure result : RootStep α ρ σ η τ (RootResult α))
      fun result s => result = .infeasible → I s.shared.incumbent :=
    Leads.pure fun _ hs _ => hs.1.incumbent
  refine (detectStructure_frames.and detectStructure_vets).bind fun implications =>
    (propagate_frames.and propagate_vets).bind fun _ => Leads.ite (fun _ => hpure _) fun _ =>
      (solveRelaxation_frames.and solveRelaxation_vets).bind fun result => ?_
  cases result with
  | optimal solution => exact hconclude _ _
  | infeasible proof => exact hpure _
  | unbounded => exact hpure _
  | numericalTrouble => exact hconclude _ _

end RootStep

namespace Solver

theorem useSymmetry_frames {condition : SharedCondition τ} {d : Domain α} {I : Incumbent α → Prop}
    (generators : List (List ColumnId)) :
    RootStep.Frames condition d I (useSymmetry generators : RootStep α ρ σ η τ Bool) := by
  refine RootStep.Leads.get.knowing fun _ _ => (RootStep.notify_frames _).bind fun _ =>
    RootStep.Leads.get.knowing fun s hs => RootStep.Leads.lift.knowing fun fixed hfixed => ?_
  have hturns : Domain.Turns d fixed.2 := hs.turns.trans (Symmetry.orbitalFixing_turns hfixed)
  refine (RootStep.changeDomain_frames fun _ d' _ hd => ?_).bind fun _ => ?_
  · cases hd
    exact hturns
  · exact RootStep.Leads.ite
      (fun _ => (RootStep.notify_frames _).bind fun _ =>
        (RootStep.changeStatistics_frames _).bind fun _ => RootStep.propagate_frames)
      fun _ => (RootStep.changeStatistics_frames _).bind fun _ => RootStep.propagate_frames

theorem initialDomain_leveled {s : Solver α ρ σ η} {d : Domain α} (h : s.initialDomain = .ok d) :
    d.Leveled := by
  simp only [initialDomain, bind_eq_ok, pure_eq_ok] at h
  obtain ⟨start, hstart, rfl⟩ := h
  have hreach : Reachable (fun _ _ => True) s.model s.options.feastol
    ⟨.empty, start⟩ := .start hstart
  have hturns : Domain.Turns start ((start.attachCuts 0).2.attachConflicts 0).2 :=
    .keep rfl rfl rfl rfl
  exact hturns.leveled hreach.leveled

variable [Relaxation ρ α] [Separator σ α] [Proposer η α]

/-- The root that a tree grows from has the condition as it was given, and its depth levels are in
order. -/
theorem Prepared.frame [StopCondition τ] {s : Solver α ρ σ η} {condition : τ}
    {solution : Option (RelaxationSolution α)} {root : RootState α ρ σ η τ}
    (h : s.Prepared condition solution root) :
    root.shared.condition = .ofCondition condition ∧ root.domain.Leveled := by
  have hstart (d : Domain α) :
      (s.rootOver condition d).Framed (.ofCondition condition) d fun _ => True :=
        ⟨rfl, .refl, trivial⟩
  cases h with
  | processed hd hpropagate hprocess _ =>
      have hroot := RootStep.process_frames _ _ _
        (RootStep.propagate_frames _ _ _ (hstart _) hpropagate) hprocess
      exact ⟨hroot.condition, hroot.turns.leveled (initialDomain_leveled hd)⟩
  | fixed hd hpropagate hprocess _ hfixed =>
      have hroot := useSymmetry_frames _ _ _ _ (RootStep.process_frames _ _ _
        (RootStep.propagate_frames _ _ _ (hstart _) hpropagate) hprocess) hfixed
      exact ⟨hroot.condition, hroot.turns.leveled (initialDomain_leveled hd)⟩

end Solver

end BranchBound
