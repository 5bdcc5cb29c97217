import Mathlib
import BranchBound.Proofs.Model.Numbers
import BranchBound.Proofs.Solver.Rounds
import BranchBound.Proofs.Solver.Unrolling
import BranchBound.Relaxation.Elementary

/-!
# Reported solutions were checked

The solution that a solve reports was checked against the model and is reported with its objective
value, whatever the relaxation, the separators, the heuristics, the symmetry detection and the
condition answer. The objective value is infinite if there is no solution. It tells that there is
none only if no feasible point has an objective value that is no number: such a value is accepted
as an improvement of every other one, and every value is accepted as an improvement of it, infinity
included.

A solve that is optimal has a solution whose gap to the dual bound is closed, and one that is
infeasible has none. Only a solve that ends at the root after the heuristics ran does not ask for a
solution before it reports infeasibility.
-/

namespace BranchBound

open Checked

variable {α ρ σ η τ : Type} [Scalar α]

/-- Exploring the tree of a model, with a checked incumbent. -/
structure TreeState.Vetted (m : Model α) (o : Options α) (t : TreeState α ρ σ η τ) : Prop where
  shared : t.shared.Vetted m o
  workers : ∀ worker ∈ t.workers, worker.domain.model = m

namespace TreeState

variable {m : Model α} {o : Options α} {t t' : TreeState α ρ σ η τ}

omit [Scalar α] in
theorem takeNodes_workers (queue : NodeQueue α) (workers : List (Search α ρ)) :
    (takeNodes queue workers).1.map Prod.fst = workers := by
  induction workers generalizing queue with
  | nil => rfl
  | cons worker rest ih =>
      rw [takeNodes, List.map_cons, ih]

theorem Vetted.collectWorker (h : t.Vetted m o) {worker : Search α ρ}
    {suspended : List (OpenNode α)} (hworker : worker.domain.model = m)
    (hcollect : t.collectWorker worker suspended = .ok t') : t'.Vetted m o := by
  simp only [TreeState.collectWorker, bind_eq_ok, pure_eq_ok] at hcollect
  obtain ⟨queue, -, _, -, _, -, rfl⟩ := hcollect
  refine ⟨h.shared, fun w hw => ?_⟩
  rcases List.mem_append.mp hw with hw | hw
  · exact h.workers w hw
  · rw [List.mem_singleton.mp hw]
    exact hworker

theorem Vetted.noteProgress (h : t.Vetted m o) (hnote : t.noteProgress = .ok t') :
    t'.Vetted m o := by
  simp only [TreeState.noteProgress] at hnote
  split at hnote
  · simp only [bind_eq_ok, pure_eq_ok] at hnote
    obtain ⟨_, -, rfl⟩ := hnote
    exact ⟨h.shared.congr rfl rfl rfl, h.workers⟩
  · cases hnote
    exact h

theorem Vetted.continues {goes : Bool} [StopCondition τ] (h : t.Vetted m o)
    (hcontinues : t.continues = (goes, t')) : t'.Vetted m o := by
  unfold TreeState.continues at hcontinues
  dsimp only at hcontinues
  split at hcontinues
  · cases hcontinues
    exact ⟨h.shared.congr rfl rfl rfl, h.workers⟩
  · split at hcontinues
    · cases hcontinues
      exact ⟨h.shared.congr rfl rfl rfl, h.workers⟩
    · split at hcontinues
      · cases hcontinues
        exact ⟨h.shared.congr rfl rfl rfl, h.workers⟩
      · split at hcontinues
        · cases hcontinues
          exact ⟨h.shared.congr rfl rfl rfl, h.workers⟩
        · cases hcontinues
          exact ⟨h.shared.congr rfl rfl rfl, h.workers⟩

variable [Relaxation ρ α] [Separator σ α] [Proposer η α] [StopCondition τ]

theorem explore_vetted {shared shared' : Shared α σ η τ} {worker worker' : Search α ρ}
    {node : Option (OpenNode α)} {suspended : List (OpenNode α)} (hshared : shared.Vetted m o)
    (hworker : worker.domain.model = m)
    (h : explore shared worker node = .ok (worker', suspended, shared')) :
    shared'.Vetted m o ∧ worker'.domain.model = m := by
  cases node with
  | none =>
      cases h
      exact ⟨hshared, hworker⟩
  | some node =>
      obtain ⟨installed, hinstall, hsolve⟩ := explore_eq_ok h
      have hinstalled := SearchStep.install_vets node _ _ _ ⟨hworker, hshared⟩ hinstall
      have hafter := SearchStep.solveDepthFirst_vets _ _ _ hinstalled hsolve
      exact ⟨hafter.shared, hafter.model⟩

theorem exploreAll_vetted {shared shared' : Shared α σ η τ}
    {assigned : List (Search α ρ × Option (OpenNode α))}
    {explored : List (Search α ρ × List (OpenNode α))} (hshared : shared.Vetted m o)
    (hworkers : ∀ w ∈ assigned, w.1.domain.model = m)
    (h : exploreAll shared assigned = .ok (explored, shared')) :
    shared'.Vetted m o ∧ ∀ w ∈ explored, w.1.domain.model = m := by
  induction assigned generalizing shared explored with
  | nil =>
      cases h
      exact ⟨hshared, fun w hw => by cases hw⟩
  | cons first rest ih =>
      obtain ⟨worker, node⟩ := first
      simp only [exploreAll, bind_eq_ok, pure_eq_ok, Prod.mk.injEq] at h
      obtain ⟨⟨worker', suspended, after⟩, hfirst, ⟨explored', shared''⟩, hrest, rfl, rfl⟩ := h
      obtain ⟨hafter, hworker⟩ :=
        explore_vetted hshared (hworkers (worker, node) (List.mem_cons_self ..)) hfirst
      obtain ⟨hshared, hexplored⟩ :=
        ih hafter (fun w hw => hworkers w (List.mem_cons_of_mem _ hw)) hrest
      refine ⟨hshared, fun w hw => ?_⟩
      rcases List.mem_cons.mp hw with rfl | hw
      · exact hworker
      · exact hexplored w hw

theorem Vetted.runRound (h : t.Vetted m o) (hround : t.runRound = .ok t') :
    t'.Vetted m o := by
  simp only [TreeState.runRound, bind_eq_ok] at hround
  obtain ⟨⟨explored, shared⟩, hexplore, hcollect⟩ := hround
  have hassigned : ∀ w ∈ (takeNodes t.queue t.workers).1, w.1.domain.model = m := by
    intro w hw
    refine h.workers w.1 ?_
    rw [← takeNodes_workers t.queue t.workers]
    exact List.mem_map_of_mem hw
  obtain ⟨hshared, hexplored⟩ := exploreAll_vetted h.shared hassigned hexplore
  refine foldlM_keeps (P := fun t : TreeState α ρ σ η τ => t.Vetted m o)
    (fun t x t' hx ht hcollect => ht.collectWorker (hexplored x hx) hcollect) hcollect ?_
  exact ⟨hshared, fun w hw => by cases hw⟩

/-- Whatever is found in the tree was checked. -/
theorem Vetted.runWithin {rounds : Nat} (h : t.Vetted m o)
    (hrun : t.runWithin rounds = .ok t') : t'.Vetted m o := by
  induction rounds generalizing t with
  | zero => cases hrun
  | succ rounds ih =>
      simp only [TreeState.runWithin] at hrun
      split at hrun
      · next after hcontinues =>
          cases hrun
          exact h.continues hcontinues
      · next before hcontinues =>
          obtain ⟨after, hround, hrest⟩ := bind_eq_ok.mp hrun
          have hafter := (h.continues hcontinues).runRound hround
          split at hrest
          · cases hrest
            exact ⟨hafter.shared.congr rfl rfl rfl, hafter.workers⟩
          · simp only [bind_eq_ok] at hrest
            obtain ⟨shared, hage, noted, hnoted, hrest⟩ := hrest
            have haged : TreeState.Vetted m o { after with shared := shared } :=
              ⟨hafter.shared.ageConflicts hage, hafter.workers⟩
            exact ih (haged.noteProgress hnoted) hrest

end TreeState

namespace Solver

/-- A solver that was made from a model and used. -/
inductive Made : Solver α ρ σ η → Prop
  | ofModel [Relaxation ρ α] {model : Model α} {relaxation : ρ} {options : Options α}
    {coin : UInt64 → Coin} {s : Solver α ρ σ η}
      (h : ofModel model relaxation options coin = .ok s) :
    Made s
  | addSeparator {s : Solver α ρ σ η} (h : Made s) (separator : σ) : Made (s.addSeparator separator)
  | addHeuristic {s : Solver α ρ σ η} (h : Made s) (heuristic : Heuristic α η) :
    Made (s.addHeuristic heuristic)
  | detectSymmetry {s : Solver α ρ σ η} (h : Made s)
    (detect : Option (Model α → List (List ColumnId))) : Made { s with detectSymmetry := detect }
  | solved [Relaxation ρ α] [Separator σ α] [Proposer η α] {τ : Type} [StopCondition τ]
    {s : Solver α ρ σ η} (h : Made s) {condition : τ} {outcome : SolveOutcome α ρ σ η}
    (hsolve : s.solve condition = .ok outcome) : Made outcome.solver

variable {s : Solver α ρ σ η}

/-- What a solve ends with tells of an incumbent that was checked. -/
structure Reports (s : Solver α ρ σ η) (outcome : SolveOutcome α ρ σ η) : Prop where
  incumbent : ∃ i : Incumbent α, i.Vetted s.model s.options.feastol ∧
    outcome.result.solution = i.solution ∧ outcome.result.objective = i.objective
  model : outcome.solver.model = s.model
  options : outcome.solver.options = s.options
  heuristics : outcome.solver.heuristics.Suits s.options

theorem finish_reports {shared : Shared α σ η τ} (h : shared.Vetted s.model s.options)
    (relaxation : ρ) (copies : List ρ) (statistics : SolverStatistics) (status : Status)
    (dualBound : α) :
    s.Reports (s.finish relaxation copies shared statistics status dualBound) :=
  ⟨⟨shared.incumbent, h.incumbent, rfl, rfl⟩, rfl, rfl, h.heuristics⟩

theorem finishAtRoot_reports {root : RootState α ρ σ η τ}
    (h : root.shared.Vetted s.model s.options) (notice : Notice α) (status : Status)
    (dualBound : α) : s.Reports (s.finishAtRoot root notice status dualBound) :=
  finish_reports (h.notify _) ..

variable [Relaxation ρ α] [Separator σ α] [Proposer η α] [StopCondition τ]

omit [Relaxation ρ α] [Separator σ α] [Proposer η α] [StopCondition τ] in
theorem initialDomain_model {d : Domain α} (h : s.initialDomain = .ok d) : d.model = s.model := by
  simp only [initialDomain, Domain.ofModel, bind_eq_ok, pure_eq_ok] at h
  obtain ⟨start, hstart, rfl⟩ := h
  exact congrArg Domain.model (Domain.refreshActivities_eq_ok hstart)

omit [Relaxation ρ α] [Separator σ α] [Proposer η α] [StopCondition τ] in
theorem rootOver_vetted {d : Domain α} (hd : s.initialDomain = .ok d)
    (hsuits : s.heuristics.Suits s.options) (condition : τ) :
    (s.rootOver condition d).Vetted s.model s.options :=
  ⟨initialDomain_model hd, ⟨rfl, hsuits, Incumbent.vetted_empty ..⟩⟩

variable {condition : τ} {outcome : SolveOutcome α ρ σ η}

omit [StopCondition τ] in
theorem EndsAtRoot.reports (h : s.EndsAtRoot condition outcome)
    (hsuits : s.heuristics.Suits s.options) : s.Reports outcome := by
  have hpropagated {d : Domain α} {isFeasible : Bool} {start : RootState α ρ σ η τ}
      (hd : s.initialDomain = .ok d)
      (hpropagate : RootStep.propagate.run (s.rootOver condition d) = .ok (isFeasible, start)) :
      start.Vetted s.model s.options :=
    RootStep.propagate_vets _ _ _ (rootOver_vetted hd hsuits condition) hpropagate
  cases h with
  | propagated hd hpropagate => exact finishAtRoot_reports (hpropagated hd hpropagate).shared ..
  | infeasible hd hpropagate hprocess | unbounded hd hpropagate hprocess =>
      have hroot := RootStep.process_vets _ _ _ (hpropagated hd hpropagate) hprocess
      exact finishAtRoot_reports hroot.shared ..
  | fixed hd hpropagate hprocess _ hfixed =>
      have hroot := useSymmetry_vets _ _ _ _
        (RootStep.process_vets _ _ _ (hpropagated hd hpropagate) hprocess) hfixed
      exact finishAtRoot_reports hroot.shared ..

omit [StopCondition τ] in
theorem Prepared.vetted {solution : Option (RelaxationSolution α)} {root : RootState α ρ σ η τ}
    (h : s.Prepared condition solution root) (hsuits : s.heuristics.Suits s.options) :
    root.Vetted s.model s.options := by
  cases h with
  | processed hd hpropagate hprocess _ =>
      exact RootStep.process_vets _ _ _ (RootStep.propagate_vets _ _ _
        (rootOver_vetted hd hsuits condition) hpropagate) hprocess
  | fixed hd hpropagate hprocess _ hfixed =>
      exact useSymmetry_vets _ _ _ _ (RootStep.process_vets _ _ _ (RootStep.propagate_vets _ _ _
        (rootOver_vetted hd hsuits condition) hpropagate) hprocess) hfixed

omit [StopCondition τ] in
/-- The tree below the root was not stopped yet and may hold an improvement, and its incumbent was
checked. -/
theorem Explores.vetted {solution : Option (RelaxationSolution α)} {tree : TreeState α ρ σ η τ}
    (h : s.Explores condition solution tree) (hsuits : s.heuristics.Suits s.options) :
    tree.Vetted s.model s.options ∧ tree.stopped = none ∧ tree.improvementExcluded = false := by
  obtain ⟨root, relaxation, hprepared, hbelow⟩ := h
  have hroot := hprepared.vetted hsuits
  simp only [treeBelow, bind_eq_ok, pure_eq_ok, Prod.mk.injEq] at hbelow
  obtain ⟨_, -, _, -, rfl, -⟩ := hbelow
  refine ⟨⟨hroot.shared.congr rfl rfl rfl, fun worker hworker => ?_⟩, rfl, rfl⟩
  obtain ⟨copy, seed, rfl⟩ := mem_makeWorkers hworker
  exact hroot.model

/-- A solve reports what was checked if the heuristics suit the options. -/
theorem solve_reports (hsuits : s.heuristics.Suits s.options)
    (hsolve : s.solve condition = .ok outcome) : s.Reports outcome := by
  rcases solve_cases hsolve with hroot | ⟨solution, start, last, relaxation, hexplores, hrun, rfl⟩
  · exact hroot.reports hsuits
  · have hlast := (hexplores.vetted hsuits).1.runWithin hrun
    unfold finishTree
    dsimp only
    split
    · split
      · exact finish_reports (hlast.shared.notify _) ..
      · exact finish_reports hlast.shared ..
    · split
      · exact finish_reports (hlast.shared.notify _) ..
      · exact finish_reports hlast.shared ..

omit [Separator σ α] [Proposer η α] in
theorem ofModel_eq_ok {model : Model α} {relaxation : ρ} {options : Options α}
    {coin : UInt64 → Coin} (h : ofModel model relaxation options coin = .ok s) :
    s.model = model ∧ s.options = options ∧ s.heuristics.Suits options ∧
      options.validate = none := by
  unfold ofModel at h
  split at h
  · cases h
  · next hvalid =>
      dsimp only at h
      split at h
      · cases h
      · cases h
        exact ⟨rfl, rfl, ⟨rfl, rfl⟩, hvalid⟩

omit [Relaxation ρ α] [Separator σ α] [Proposer η α] in
/-- The heuristics of a solver suit its options. -/
theorem Made.suits (h : s.Made) : s.heuristics.Suits s.options := by
  induction h with
  | ofModel h =>
      obtain ⟨-, hoptions, hsuits, -⟩ := ofModel_eq_ok h
      rw [hoptions]
      exact hsuits
  | addSeparator _ _ ih => exact ih
  | addHeuristic _ _ ih => exact ⟨ih.feastol, ih.frequency⟩
  | detectSymmetry _ _ ih => exact ih
  | solved _ hsolve ih =>
      have hreports := solve_reports ih hsolve
      rw [hreports.options]
      exact hreports.heuristics

end Solver

/-- The solution that a solve reports was checked and has the objective value that is reported.
Without a solution the objective value is infinite, and it is infinite only then if the objective
values of feasible points can be compared. -/
theorem reported_solutions_checked [Relaxation ρ α] [Separator σ α] [Proposer η α]
    [StopCondition τ] {s : Solver α ρ σ η} (hmade : s.Made) {condition : τ}
    {outcome : SolveOutcome α ρ σ η} (hsolve : s.solve condition = .ok outcome) :
    (∀ point, outcome.result.solution = some point →
      s.model.check point s.options.feastol = true ∧
        outcome.result.objective = s.model.objectiveValue point) ∧
    (outcome.result.solution = none → outcome.result.objective = Scalar.infinity) ∧
    (s.model.Comparable s.options.feastol →
      outcome.result.objective = Scalar.infinity → outcome.result.solution = none) := by
  obtain ⟨i, hvetted, hsolution, hobjective⟩ := (Solver.solve_reports hmade.suits hsolve).incumbent
  rw [hsolution, hobjective]
  refine ⟨hvetted.checked, hvetted.empty, fun hm hinfinite => ?_⟩
  by_contra hsome
  exact hvetted.finite hm hsome hinfinite

section Exact

open Exact

/-- The objective values of points that pass the check of a built model can be compared: over exact
numbers finite values have a finite sum. -/
theorem Draft.comparable_of_build {draft : Draft Exact} {m : Model Exact} (h : draft.build = .ok m)
    (hoffset : m.offset ≠ nan) (feastol : Exact) : m.Comparable feastol where
  infinity := rfl
  value := by
    intro point hcheck
    obtain ⟨q, hvalue⟩ := objectiveValue_of_check h hcheck
    rw [hvalue]
    cases hcase : m.offset with
    | number q => rfl
    | plus => rfl
    | minus => rfl
    | nan => exact absurd hcase hoffset

/-- A column that a row keeps from its upper bound. -/
def oneColumn : Draft Exact :=
  ⟨#[⟨-1, 0, 3, .integer⟩], #[⟨-Scalar.infinity, 3, [(0, 2)]⟩], 0⟩

/-- The relaxation without rows of one column. -/
def oneBox : ElementaryRelaxation Exact :=
  { rule := .box 0, columnCount := 1, script := [], recoverable := 0, proofs := []
    sendsProof := false, hasBasis := false, cutGain := 0, cuts := [], isWarm := false
    tally := .zero }

/-- A heuristic that proposes points which are not feasible. -/
def wrongProposals : ProposalList Exact := ⟨"wrong", [some #[2], some #[]], 0⟩

/-- A solver over the elementary relaxation, with lists of cuts and of proposals. -/
abbrev Solver.Elementary :=
  Solver Exact (ElementaryRelaxation Exact) (CutList Exact) (ProposalList Exact)

set_option maxRecDepth 100000 in
/-- The column is solved at the row. -/
theorem oneColumn_solved : passes oneColumn.build (fun model =>
    decide (model.offset ≠ nan) && Scalar.isFinite model.offset &&
    passes (Solver.ofModel (ρ := ElementaryRelaxation Exact) model oneBox .standard) fun s =>
      passes ((s.addHeuristic (.custom wrongProposals) : Solver.Elementary).solve
        Condition.indefinite)
        fun outcome => decide (outcome.result.solution = some #[number 1]) &&
          decide (outcome.result.status = .optimal)) = true := by
  rw [(Solver.solveUnrolled 100).property]
  decide +kernel

/-- There is a solve of the column. -/
theorem exists_oneColumn_solve : ∃ (m : Model Exact) (s : Solver.Elementary)
    (outcome : SolveOutcome Exact (ElementaryRelaxation Exact) (CutList Exact)
      (ProposalList Exact)),
    oneColumn.build = .ok m ∧ m.offset ≠ nan ∧ Scalar.isFinite m.offset = true ∧ s.model = m ∧
    s.Made ∧
    s.solve Condition.indefinite = .ok outcome ∧ outcome.result.solution = some #[number 1] ∧
    outcome.result.status = .optimal := by
  obtain ⟨model, hmodel, hrun⟩ := passes_eq_true.mp oneColumn_solved
  simp only [Bool.and_eq_true, decide_eq_true_eq] at hrun
  obtain ⟨⟨hoffset, hfinite⟩, hrun⟩ := hrun
  obtain ⟨s, hs, hrun⟩ := passes_eq_true.mp hrun
  obtain ⟨outcome, hsolve, hrun⟩ := passes_eq_true.mp hrun
  rw [Bool.and_eq_true, decide_eq_true_eq, decide_eq_true_eq] at hrun
  exact ⟨model, s.addHeuristic (.custom wrongProposals), outcome, hmodel, hoffset, hfinite,
    (Solver.ofModel_eq_ok hs).1, (Solver.Made.ofModel hs).addHeuristic _, hsolve, hrun.1, hrun.2⟩

/-- What a wrong heuristic proposes is not reported; the solution at the row is. -/
theorem wrong_proposals_not_reported :
    ∃ (s : Solver Exact (ElementaryRelaxation Exact) (CutList Exact) (ProposalList Exact))
      (outcome : SolveOutcome Exact (ElementaryRelaxation Exact) (CutList Exact)
        (ProposalList Exact)),
      s.Made ∧ s.solve Condition.indefinite = .ok outcome ∧
      outcome.result.solution = some #[number 1] ∧
      s.model.check #[number 1] s.options.feastol = true ∧
      outcome.result.objective = s.model.objectiveValue #[number 1] ∧
      outcome.result.objective ≠ Scalar.infinity := by
  obtain ⟨_, s, outcome, hmodel, hoffset, -, rfl, hmade, hsolve, hsolution, -⟩ :=
    exists_oneColumn_solve
  have hcomparable : s.model.Comparable s.options.feastol :=
    Draft.comparable_of_build hmodel hoffset _
  obtain ⟨hchecked, -, hfinite⟩ := reported_solutions_checked hmade hsolve
  obtain ⟨hcheck, hobjective⟩ := hchecked _ hsolution
  refine ⟨s, outcome, hmade, hsolve, hsolution, hcheck, hobjective, fun hinfinite => ?_⟩
  cases hsolution.symm.trans (hfinite hcomparable hinfinite)

end Exact

/-! ## The status of a solve -/

/-- Every option that is validated has a meaning. -/
theorem Options.accepts_of_validate {o : Options α} (h : o.validate = none) (i : InvalidOption) :
    o.accepts i = true := by
  have haccepts := List.find?_eq_none.mp h i (by cases i <;> simp)
  simpa using haccepts

/-- Every feasible point has a finite objective value. -/
def Model.Finite (m : Model α) (feastol : α) : Prop :=
  ∀ point, m.check point feastol = true → Scalar.isFinite (m.objectiveValue point) = true

section Cancelling

variable [Scalar.Cancelling α]

theorem Scalar.min_eq_of_lt {a b : α} (h : b < a) : Scalar.min a b = b := by
  obtain ⟨hb, ha⟩ := Scalar.number_of_lt h
  rw [Scalar.min, if_neg (by simp [ha]), if_neg (by simp [hb]), if_pos h]

/-- A gap that is closed, or negative, is closed to the smaller one of the bound and the objective
value. -/
theorem Gap.isClosed_min {o : Options α} (ho : o.validate = none) {primal dual : α}
    (hfinite : Scalar.isFinite primal = true)
    (h : primal < dual ∨ Gap.isClosed o primal dual = true) :
    Gap.isClosed o primal (Scalar.min dual primal) = true := by
  have habsolute : (0 : α) ≤ o.absoluteGap := by
    simpa [Options.accepts] using Options.accepts_of_validate ho .absoluteGap
  have hself : Gap.isClosed o primal primal = true := by
    have hle := Scalar.Ordered.le_trans _ _ _ (Scalar.Cancelling.sub_self_le _ hfinite) habsolute
    simp [Gap.isClosed, Scalar.Cancelling.lt_infinity _ hfinite, hle]
  rcases h with hlt | hclosed
  · rw [Scalar.min_eq_of_lt hlt]
    exact hself
  · rcases Scalar.min_eq dual primal with hmin | hmin
    · rw [hmin]
      exact hclosed
    · rw [hmin]
      exact hself

/-- A vetted incumbent has a solution if and only if its objective value is below infinity. -/
theorem Incumbent.Vetted.hasSolution_iff {m : Model α} {feastol : α} {i : Incumbent α}
    (h : i.Vetted m feastol) (hm : m.Finite feastol) :
    i.hasSolution = true ↔ ∃ point, i.solution = some point ∧
      Scalar.isFinite i.objective = true := by
  rw [Incumbent.hasSolution, decide_eq_true_eq]
  cases hsolution : i.solution with
  | none =>
      rw [h.empty hsolution]
      exact ⟨fun hlt => absurd hlt (Scalar.LinearlyOrdered.not_lt_of_le _ _
        (Scalar.Ordered.le_refl _ Scalar.number_infinity)), fun ⟨_, hnone, _⟩ => nomatch hnone⟩
  | some point =>
      obtain ⟨hcheck, hobjective⟩ := h.checked point hsolution
      have hfinite : Scalar.isFinite i.objective = true := hobjective ▸ hm point hcheck
      exact ⟨fun _ => ⟨point, rfl, hfinite⟩, fun _ => Scalar.Cancelling.lt_infinity _ hfinite⟩

end Cancelling

/-- The status of a result agrees with its solution: an optimal one has a solution with a closed
gap, an infeasible one has none. -/
structure SolveResult.Agrees (o : Options α) (result : SolveResult α) : Prop where
  optimal : result.status = .optimal → ∃ point, result.solution = some point ∧
    Gap.isClosed o result.objective result.dualBound = true
  infeasible : result.status = .infeasible → result.solution = none

namespace Solver

variable {s : Solver α ρ σ η}

/-- A tree that was not stopped is optimal if it is proved and has a solution, and infeasible if it
is proved and has none. -/
theorem statusOf_running {t : TreeState α ρ σ η τ} (hrunning : t.stopped = none) :
    (statusOf t = .optimal → t.shared.incumbent.hasSolution = true ∧
      (t.givenUpBound == Scalar.infinity ||
        Gap.isClosed t.shared.options t.shared.incumbent.objective t.givenUpBound) = true) ∧
    (statusOf t = .infeasible → t.shared.incumbent.hasSolution = false) := by
  unfold statusOf
  rw [hrunning]
  dsimp only
  split
  · exact ⟨nofun, nofun⟩
  · next hproved =>
      split
      · next hsolution =>
          refine ⟨fun _ => ⟨hsolution, ?_⟩, nofun⟩
          simpa only [Bool.not_eq_true', Bool.not_eq_false] using hproved
      · next hnone => exact ⟨nofun, fun _ => by simpa using hnone⟩

section Tree

variable {t : TreeState α ρ σ η τ} {result : SolveResult α}

/-- A tree that was stopped agrees with its solution if the status says nothing of it. -/
theorem ReportsTree.agrees_stopped (h : ReportsTree t result) {status : Status}
    (hstopped : t.stopped = some status) (hstatus : status ≠ .optimal ∧ status ≠ .infeasible)
    (o : Options α) : result.Agrees o := by
  have heq : result.status = status := by
    rw [h.status, statusOf, hstopped]
  exact ⟨fun hoptimal => absurd (heq.symm.trans hoptimal) hstatus.1,
    fun hinfeasible => absurd (heq.symm.trans hinfeasible) hstatus.2⟩

variable [Scalar.Cancelling α]

/-- A tree that was not stopped agrees with its solution if nothing is left in the queue, or if the
gap to what is open is closed. -/
theorem ReportsTree.agrees_running (h : ReportsTree t result) (hvalid : s.options.validate = none)
    (hmodel : s.model.Finite s.options.feastol) (hvetted : t.Vetted s.model s.options)
    (hrunning : t.stopped = none)
    (hclosed : t.queue.minLowerBound = Scalar.infinity ∨ Gap.isClosed s.options
      t.shared.incumbent.objective (Scalar.min t.queue.minLowerBound t.lostBound) = true) :
    result.Agrees s.options := by
  have hincumbent := hvetted.shared.incumbent.hasSolution_iff hmodel
  obtain ⟨hoptimal, hinfeasible⟩ :=
    statusOf_running (t := { t with givenUpBound := t.lostBound }) hrunning
  constructor
  · intro hstatus
    rw [h.status] at hstatus
    obtain ⟨hsolution, hproved⟩ := hoptimal hstatus
    obtain ⟨point, hpoint, hfinite⟩ := hincumbent.mp hsolution
    rw [h.solution, h.objective, h.dualBound]
    refine ⟨point, hpoint, Gap.isClosed_min hvalid hfinite ?_⟩
    rcases hclosed with hempty | hclosed
    · rw [hempty]
      rcases Scalar.min_eq Scalar.infinity t.lostBound with hmin | hmin
      · rw [hmin]
        exact .inl (Scalar.Cancelling.lt_infinity _ hfinite)
      · rw [hmin]
        rcases Bool.or_eq_true_iff.mp hproved with hlost | hclosed
        · exact .inl (Scalar.lt_of_lt_of_le (Scalar.Cancelling.lt_infinity _ hfinite)
            (Scalar.Cancelling.le_of_beq _ _ hlost).2)
        · exact .inr (hvetted.shared.options ▸ hclosed)
    · exact .inr hclosed
  · intro hstatus
    rw [h.status] at hstatus
    rw [h.solution]
    by_contra hsome
    obtain ⟨point, hpoint⟩ := Option.ne_none_iff_exists'.mp hsome
    obtain ⟨hcheck, hobjective⟩ := hvetted.shared.incumbent.checked point hpoint
    have hsolution : t.shared.incumbent.hasSolution = true :=
      hincumbent.mpr ⟨point, hpoint, hobjective ▸ hmodel point hcheck⟩
    exact Bool.false_ne_true ((hinfeasible hstatus).symm.trans hsolution)

/-- An explored tree agrees with its solution. -/
theorem ReportsTree.agrees [StopCondition τ] (h : ReportsTree t result)
    (hvalid : s.options.validate = none) (hmodel : s.model.Finite s.options.feastol)
    (hconditions : ∀ c : τ, StopCondition.status c ≠ .optimal ∧
      StopCondition.status c ≠ .infeasible)
    (hvetted : t.Vetted s.model s.options)
    (hends : t.improvementExcluded = true ∧ t.stopped = none ∧
        t.queue.minLowerBound = Scalar.infinity ∨
      t.improvementExcluded = false ∧ t.Stops) : result.Agrees s.options := by
  rcases hends with ⟨-, hrunning, hempty⟩ | ⟨hopen, hstops⟩
  · exact h.agrees_running hvalid hmodel hvetted hrunning (.inl hempty)
  · cases hstops with
    | asked condition hstopped => exact h.agrees_stopped hstopped (hconditions condition) _
    | crowded hstopped => exact h.agrees_stopped hstopped ⟨nofun, nofun⟩ _
    | explored hrunning hempty =>
        refine h.agrees_running hvalid hmodel hvetted hrunning (.inl ?_)
        rw [NodeQueue.minLowerBound, List.isEmpty_iff.mp hempty]
    | closed hrunning hclosed =>
        refine h.agrees_running hvalid hmodel hvetted hrunning (.inr ?_)
        have hlost : t.lostBound = t.givenUpBound := if_neg (by simp [hopen])
        rw [hlost, ← hvetted.shared.options]
        exact hclosed

end Tree

/-- The options of a solver are valid. -/
theorem Made.valid (h : s.Made) : s.options.validate = none := by
  induction h with
  | ofModel h =>
      obtain ⟨-, hoptions, -, hvalid⟩ := ofModel_eq_ok h
      rw [hoptions]
      exact hvalid
  | addSeparator _ _ ih => exact ih
  | addHeuristic _ _ ih => exact ih
  | detectSymmetry _ _ ih => exact ih
  | solved hmade hsolve ih =>
      rw [(solve_reports hmade.suits hsolve).options]
      exact ih

omit [Scalar α] in
theorem finishAtRoot_journal (root : RootState α ρ σ η τ) (notice : Notice α) (status : Status)
    (dualBound : α) : notice ∈ (s.finishAtRoot root notice status dualBound).journal := by
  simp [finishAtRoot, finish, Shared.notify]

variable [Relaxation ρ α] [Separator σ α] [Proposer η α] {condition : τ}
  {outcome : SolveOutcome α ρ σ η}

/-- A solve that ends as infeasible at the root has no solution, unless the heuristics ran before:
then it is probing or the use of symmetries that found the root infeasible. -/
theorem EndsAtRoot.solution (h : s.EndsAtRoot condition outcome)
    (hsuits : s.heuristics.Suits s.options) (hstatus : outcome.result.status = .infeasible) :
    outcome.result.solution = none ∨
      s.options.rootProbing = true ∧ .infeasibleRoot ∈ outcome.journal ∨
      s.options.symmetry = true ∧ .infeasibleByOrbitalFixing ∈ outcome.journal := by
  have hpropagated {d : Domain α} {isFeasible : Bool} {start : RootState α ρ σ η τ}
      (hd : s.initialDomain = .ok d)
      (hpropagate : RootStep.propagate.run (s.rootOver condition d) = .ok (isFeasible, start)) :
      start.Framed (.ofCondition condition) d (fun i => i.solution = none) ∧
        start.Vetted s.model s.options :=
    ⟨RootStep.propagate_frames _ _ _ ⟨rfl, .refl, rfl⟩ hpropagate,
      RootStep.propagate_vets _ _ _ (rootOver_vetted hd hsuits condition) hpropagate⟩
  cases h with
  | propagated hd hpropagate => exact .inl (hpropagated hd hpropagate).1.incumbent
  | infeasible hd hpropagate hprocess =>
      cases hprobing : s.options.rootProbing with
      | true => exact .inr (.inl ⟨rfl, finishAtRoot_journal ..⟩)
      | false =>
          exact .inl (RootStep.process_infeasible hprobing _ _ _ (hpropagated hd hpropagate)
            hprocess rfl)
  | unbounded => cases hstatus
  | fixed _ _ _ hsymmetry _ =>
      refine .inr (.inr ⟨?_, finishAtRoot_journal ..⟩)
      by_contra hoff
      rw [if_neg hoff] at hsymmetry
      cases hsymmetry

end Solver

/-- The status of a solve and its solution agree, if the objective values of feasible points are
finite and the condition has a status of its own: an optimal solve has a solution whose gap to the
dual bound is closed, and an infeasible one has no solution and an infinite objective value. Only if
probing or the use of symmetries proves the root infeasible, the solution is not looked at any more:
then there may be one which is feasible within the tolerances. -/
theorem status_agrees_with_solution [Scalar.Cancelling α] [Relaxation ρ α] [Separator σ α]
    [Proposer η α] [StopCondition τ] {s : Solver α ρ σ η} (hmade : s.Made)
    (hmodel : s.model.Finite s.options.feastol)
    (hconditions : ∀ c : τ, StopCondition.status c ≠ .optimal ∧
      StopCondition.status c ≠ .infeasible)
    {condition : τ} {outcome : SolveOutcome α ρ σ η} (hsolve : s.solve condition = .ok outcome) :
    (outcome.result.status = .optimal → ∃ point, outcome.result.solution = some point ∧
      Gap.isClosed s.options outcome.result.objective outcome.result.dualBound = true) ∧
    (outcome.result.status = .infeasible →
      outcome.result.solution = none ∧ outcome.result.objective = Scalar.infinity ∨
      s.options.rootProbing = true ∧ .infeasibleRoot ∈ outcome.journal ∨
      s.options.symmetry = true ∧ .infeasibleByOrbitalFixing ∈ outcome.journal) := by
  obtain ⟨i, hvetted, hsolution, hobjective⟩ := (Solver.solve_reports hmade.suits hsolve).incumbent
  have hempty (hnone : outcome.result.solution = none) :
      outcome.result.solution = none ∧ outcome.result.objective = Scalar.infinity :=
    ⟨hnone, hobjective.trans (hvetted.empty (hsolution ▸ hnone))⟩
  rcases Solver.solve_cases hsolve with hroot |
    ⟨solution, start, last, relaxation, hexplores, hrun, rfl⟩
  · refine ⟨fun hstatus => ?_, fun hstatus => (hroot.solution hmade.suits hstatus).imp_left hempty⟩
    rcases hroot.result.2 with h | h
    · cases h.symm.trans hstatus
    · cases h.symm.trans hstatus
  · obtain ⟨hstart, hrunning, hopen⟩ := hexplores.vetted hmade.suits
    have hagrees := (s.finishTree_reports relaxation last).agrees hmade.valid hmodel hconditions
      (hstart.runWithin hrun) (TreeState.run_ends hrun hrunning hopen)
    exact ⟨hagrees.optimal, fun hstatus => .inl (hempty (hagrees.infeasible hstatus))⟩

section Exact

open Exact

/-- Points that pass the check of a built model have a finite objective value. -/
theorem Draft.finite_of_build {draft : Draft Exact} {m : Model Exact} (h : draft.build = .ok m)
    (hoffset : Scalar.isFinite m.offset = true) (feastol : Exact) : m.Finite feastol := by
  intro point hcheck
  obtain ⟨q, hvalue⟩ := objectiveValue_of_check h hcheck
  obtain ⟨p, hp⟩ := isFinite_iff.mp hoffset
  rw [hvalue, hp]
  rfl

/-- The conditions of the library report neither optimality nor infeasibility. -/
theorem Condition.status_undecided (c : Condition) :
    c.status ≠ .optimal ∧ c.status ≠ .infeasible := by
  induction c with
  | indefinite | nodes | deadline | polls | absent => exact ⟨nofun, nofun⟩
  | present inner ih => exact ih
  | both first second firstTriggered hfirst hsecond =>
      cases firstTriggered with
      | false => exact hsecond
      | true => exact hfirst

/-- The solve of the column is optimal, with a solution whose gap to the dual bound is closed. -/
theorem solved_column_agrees : ∃ (s : Solver.Elementary)
    (outcome : SolveOutcome Exact (ElementaryRelaxation Exact) (CutList Exact)
      (ProposalList Exact)),
    s.Made ∧ s.model.Finite s.options.feastol ∧
    (∀ c : Condition, StopCondition.status c ≠ .optimal ∧ StopCondition.status c ≠ .infeasible) ∧
    s.solve Condition.indefinite = .ok outcome ∧ outcome.result.status = .optimal ∧
    ∃ point, outcome.result.solution = some point ∧
      Gap.isClosed s.options outcome.result.objective outcome.result.dualBound = true := by
  obtain ⟨_, s, outcome, hmodel, -, hoffset, rfl, hmade, hsolve, -, hstatus⟩ :=
    exists_oneColumn_solve
  have hfinite : s.model.Finite s.options.feastol := Draft.finite_of_build hmodel hoffset _
  exact ⟨s, outcome, hmade, hfinite, Condition.status_undecided, hsolve, hstatus,
    (status_agrees_with_solution hmade hfinite Condition.status_undecided hsolve).1 hstatus⟩

/-- Two columns of which the rows allow no integral values; a value of one millionth is feasible
within the tolerances. -/
def barelyFeasible : Draft Exact :=
  ⟨#[⟨0, 0, 1, .integer⟩, ⟨0, 0, 1, .integer⟩],
    #[⟨5e-1, Scalar.infinity, [(0, 1000000)]⟩, ⟨-Scalar.infinity, 1, [(0, 1), (1, 1)]⟩,
      ⟨-Scalar.infinity, 0, [(0, 1), (1, -1)]⟩], 0⟩

/-- A heuristic that proposes the point of one millionth. -/
def nearProposal : ProposalList Exact := ⟨"near", [some #[1e-6, 0]], 0⟩

set_option maxRecDepth 100000 in
theorem barelyFeasible_solved : passes barelyFeasible.build (fun model =>
    passes (Solver.ofModel (ρ := ElementaryRelaxation Exact) model { oneBox with columnCount := 2 }
      .standard) fun s =>
        passes ((s.addHeuristic (.custom nearProposal) : Solver.Elementary).solve
          Condition.indefinite)
          fun outcome => decide (outcome.result.status = .infeasible) &&
            decide (outcome.result.solution = some #[1e-6, 0])) = true := by
  rw [(Solver.solveUnrolled 100).property]
  decide +kernel

/-- Probing finds the root infeasible after a heuristic found a point which is feasible within the
tolerances: the solve ends as infeasible with this point as its solution. -/
theorem probed_root_keeps_solution : ∃ (s : Solver.Elementary)
    (outcome : SolveOutcome Exact (ElementaryRelaxation Exact) (CutList Exact)
      (ProposalList Exact)),
    barelyFeasible.build = .ok s.model ∧ s.Made ∧ s.solve Condition.indefinite = .ok outcome ∧
    outcome.result.status = .infeasible ∧ outcome.result.solution ≠ none := by
  obtain ⟨model, hmodel, hrun⟩ := passes_eq_true.mp barelyFeasible_solved
  obtain ⟨s, hs, hrun⟩ := passes_eq_true.mp hrun
  obtain ⟨outcome, hsolve, hrun⟩ := passes_eq_true.mp hrun
  rw [Bool.and_eq_true, decide_eq_true_eq, decide_eq_true_eq] at hrun
  refine ⟨_, outcome, (Solver.ofModel_eq_ok hs).1 ▸ hmodel,
    (Solver.Made.ofModel hs).addHeuristic _, hsolve,
    hrun.1, fun hnone => ?_⟩
  cases hrun.2.symm.trans hnone

end Exact

end BranchBound
