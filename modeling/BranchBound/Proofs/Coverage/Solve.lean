import BranchBound.Proofs.Coverage.Relaxations
import BranchBound.Proofs.Coverage.Root
import BranchBound.Proofs.Coverage.Tree
import BranchBound.Proofs.Solver.Unrolling

/-!
# Solves lose no better point

A solve that relies on its relaxation keeps every feasible point which the final incumbent does not
exclude: it is in the box of an open node, or in that of a node which was given up. So no feasible
point is better than both the dual bound and the cutoff that are returned. The root leaves the point
in its box and the tree below it is walked as in `TreeState.Keeps`; here the two are put together,
first for one point and then for all of them.
-/

namespace BranchBound

open Checked Exact BranchBound.Action

variable {ρ σ η τ : Type} {g : Target ρ}

/-- The conditions of the library do not report infeasibility. -/
theorem Condition.status_ne_infeasible (c : Condition) : c.status ≠ .infeasible := by
  induction c with
  | indefinite | nodes | deadline | polls | absent => exact nofun
  | present inner ih => exact ih
  | both first second firstTriggered hfirst hsecond =>
      cases firstTriggered with
      | false => exact hsecond
      | true => exact hfirst

namespace Solver

variable {s : Solver Exact ρ σ η}

/-- What a solve relies on to lose no better point: a built model without continuous columns, valid
options for a single thread, no separators, a relaxation that keeps its contract, and a detection of
symmetries whose generators map feasible points to feasible points. The optimal solutions of the
relaxation are the allowed ones. -/
structure Relies [Relaxation ρ Exact]
    (Allowed : Model Exact → ℚ → Domain Exact → RelaxationSolution Exact → Prop)
    (s : Solver Exact ρ σ η) (honest : ρ → Prop) : Prop where
  built : ∃ draft : Draft Exact, draft.build = .ok s.model
  integer : s.model.AllInteger
  offset : ∃ q, s.model.offset = number q
  valid : s.options.validate = none
  threads : s.options.threads = 1
  separators : s.separation.separators = []
  contract : KeepContract (Allowed s.model s.options.feastol.toRat) s.model honest
  honest : honest s.relaxation
  symmetry : ∀ detect, s.detectSymmetry = some detect →
    ∀ generator ∈ detect s.model, s.model.Permits generator

/-- A solve relies on a relaxation whose solutions are in the box. -/
abbrev Reliable [Relaxation ρ Exact] (s : Solver Exact ρ σ η) (honest : ρ → Prop) : Prop :=
  s.Relies RelaxationSolution.Bounds honest

/-- A point as the target of a solve. -/
def target (s : Solver Exact ρ σ η) (honest : ρ → Prop) (x : Point) (v : ℚ) : Target ρ :=
  ⟨s.model, s.options.feastol.toRat, .ofModel s.model, honest, x, v⟩

section Reliable

variable [Relaxation ρ Exact] {honest : ρ → Prop} {x : Point} {v : ℚ}

/-- Valid options have a tolerance between zero and one. -/
theorem Reliable.feastol (h : s.Reliable honest) : ∃ f : ℚ, s.options.feastol = number f ∧ 0 < f ∧
    f < 1 := by
  have haccepts := List.find?_eq_none.mp h.valid .feastol (by simp)
  simp only [Options.accepts, Bool.not_eq_true', Bool.not_eq_false, Bool.and_eq_true,
    decide_eq_true_eq] at haccepts
  obtain ⟨hpositive, hbelow⟩ := haccepts
  have hzero : (0 : Exact) = number 0 := by simp
  have hone : (1 : Exact) = number 1 := by simp
  rw [hzero] at hpositive
  rw [hone] at hbelow
  obtain ⟨f, hf⟩ := exists_number_of_between (Exact.le_of_lt hpositive) (Exact.le_of_lt hbelow)
  rw [hf, number_lt] at hpositive hbelow
  exact ⟨f, hf, hpositive, hbelow⟩

theorem Reliable.target_feastol (h : s.Reliable honest) :
    s.options.feastol = number (s.target honest x v).feastol := by
  obtain ⟨f, hf, -, -⟩ := h.feastol
  rw [target, hf]
  rfl

/-- The objective value of a point is a number. -/
theorem Reliable.exists_value (h : s.Reliable honest) (x : Point) :
    ∃ v, s.model.valueAt x = number v := by
  obtain ⟨draft, hbuilt⟩ := h.built
  obtain ⟨q, hoffset⟩ := h.offset
  exact ⟨_, Model.valueAt_eq hoffset (fun c column hcolumn =>
    (Draft.checkedColumn_of_build hbuilt hcolumn).cost) x⟩

/-- Every feasible point is a target that may be relied on. -/
theorem Reliable.target_valid (h : s.Reliable honest) (hx : s.model.Feasible x)
    (hv : s.model.valueAt x = number v) : (s.target honest x v).Valid := by
  obtain ⟨f, hf, hpositive, hbelow⟩ := h.feastol
  have htoRat : (s.target honest x v).feastol = f := by
    rw [target, hf]
    rfl
  exact
    { positive := htoRat ▸ hpositive
      below := htoRat ▸ hbelow
      built := h.built
      integer := h.integer
      offset := h.offset
      feasible := hx
      value := hv
      contract := h.contract }

section Root

variable (h : s.Reliable honest) (hg : (s.target honest x v).Valid)

include h hg

/-- At the beginning of a solve nothing was told yet but what holds at all feasible points. -/
theorem Reliable.rootOver_minds {d : Domain Exact} (hd : s.initialDomain = .ok d) (condition : τ) :
    RootState.Minds (s.target honest x v) (s.rootOver condition d) ∧
      (s.rootOver condition d).domain.Untold := by
  simp only [initialDomain, bind_eq_ok, pure_eq_ok] at hd
  obtain ⟨start, hstart, rfl⟩ := hd
  have hfeastol : s.options.feastol = number (s.target honest x v).feastol := h.target_feastol
  rw [hfeastol] at hstart
  obtain ⟨hobjective, hcliques, hvariableBounds, -, -⟩ := Domain.ofModel_untold hstart
  refine ⟨⟨?_, h.honest, h.separators, ?_⟩, ⟨hcliques, hvariableBounds, hobjective⟩⟩
  · have hempty := PropagationState.Accepts.ofModel hg rfl hstart
    have hcuts := hempty.tell (.newCutPool s.options.separation.cutAgeLimit) rfl trivial
      (fun _ _ => trivial) (by simp) rfl
    have hconflicts := hcuts.tell
      (.newConflictPool s.options.conflicts.ageLimit s.options.conflicts.softLimit) rfl trivial
      (fun _ _ => trivial) (by simp) rfl
    have hattached := hconflicts.tell (.attachCuts 0) rfl Nat.zero_lt_one (fun _ _ => trivial)
      (by simp)
      rfl
    exact hattached.tell (.attachConflicts 0) rfl Nat.zero_lt_one (fun _ _ => trivial) (by simp) rfl
  · have hfits := Incumbent.fits_empty s.model (s.target honest x v).feastol
    rwa [← hfeastol] at hfits

/-- The tree below a root that accepts all feasible points keeps the point. -/
theorem Reliable.treeBelow_keeps {root : RootState Exact ρ σ η τ}
    (hroot : RootState.Minds (s.target honest x v) root)
    {solution : Option (RelaxationSolution Exact)}
    (hsolution : RootStep.Bounded (s.target honest x v) (.processed solution))
    {tree : TreeState Exact ρ σ η τ} {relaxation : ρ}
    (hbelow : s.treeBelow root solution = .ok (tree, relaxation)) :
    tree.Keeps (s.target honest x v) ∧ tree.stopped = none := by
  simp only [treeBelow, bind_eq_ok, pure_eq_ok, h.threads, makeWorkers, Prod.mk.injEq] at hbelow
  obtain ⟨pool, -, ⟨_, queue⟩, hpush, rfl, rfl⟩ := hbelow
  refine ⟨⟨_, rfl, ?_⟩, rfl⟩
  by_cases hexcludes : root.shared.incumbent.Excludes v
  · exact .inl ⟨hroot.accepts.model, hroot.fits, hexcludes⟩
  simp only [NodeQueue.push, bind_eq_ok, pure_eq_ok, Prod.mk.injEq] at hpush
  obtain ⟨_, -, rfl, rfl⟩ := hpush
  refine .inr
    { cares :=
        { regards := hroot.accepts.regards _ hg.feasible
          model := hroot.accepts.model
          honest := (hg.contract.fork _ hroot.honest).2
          separators := hroot.separators
          noCuts := hroot.accepts.noCuts
          fits := hroot.fits
          seeks := hexcludes
          hopeful := rfl }
      ordered := List.pairwise_singleton ..
      whole := fun n hn => ?_
      hopeful := rfl
      place := .inr ⟨_, List.mem_singleton_self _, ?_, ?_⟩ }
  · obtain rfl := List.mem_singleton.mp hn
    exact fun change hchange => absurd hchange List.not_mem_nil
  · cases solution with
    | none => rfl
    | some solution => exact hg.value ▸ hsolution solution rfl _ hg.feasible
  · exact fun change hchange => absurd hchange List.not_mem_nil

variable [Separator σ Exact] [Proposer η Exact] [StopCondition τ]

/-- A solve ends at the root only if its relaxation is unbounded. Otherwise the tree below the root
keeps the point. -/
theorem Reliable.solve_keeps {condition : τ} {outcome : SolveOutcome Exact ρ σ η}
    (hsolve : s.solve condition = .ok outcome) :
    (outcome.result.status = .unbounded ∧ outcome.result.dualBound = -Scalar.infinity) ∨
    ∃ (start last : TreeState Exact ρ σ η τ) (relaxation : ρ), start.Keeps (s.target honest x v) ∧
      start.stopped = none ∧ start.run = .ok last ∧ outcome = s.finishTree relaxation last := by
  have htree {root : RootState Exact ρ σ η τ} {solution : Option (RelaxationSolution Exact)}
      (hroot : RootState.Minds (s.target honest x v) root)
      (hsolution : RootStep.Bounded (s.target honest x v) (.processed solution))
      (hsolve : s.solveTree root solution = .ok outcome) :
      ∃ (start last : TreeState Exact ρ σ η τ) (relaxation : ρ), start.Keeps (s.target honest x v) ∧
        start.stopped = none ∧ start.run = .ok last ∧ outcome = s.finishTree relaxation last := by
    simp only [solveTree, bind_eq_ok, pure_eq_ok] at hsolve
    obtain ⟨⟨start, relaxation⟩, hbelow, last, hrun, rfl⟩ := hsolve
    obtain ⟨hkeeps, hrunning⟩ := h.treeBelow_keeps hg hroot hsolution hbelow
    exact ⟨start, last, relaxation, hkeeps, hrunning, hrun, rfl⟩
  simp only [solve, bind_eq_ok] at hsolve
  obtain ⟨d, hd, ⟨isFeasible, root⟩, hpropagate, hsolve⟩ := hsolve
  obtain ⟨hminds, huntold⟩ := h.rootOver_minds hg hd condition
  obtain ⟨rfl, hroot⟩ := RootStep.propagate_minds hg _ _ _ hminds hpropagate
  have hrootUntold := RootStep.propagate_untold hg _ _ _ ⟨hminds, huntold⟩ hpropagate
  obtain ⟨⟨result, processed⟩, hprocess, hsolve⟩ := bind_eq_ok.mp hsolve
  obtain ⟨hbounded, hprocessed⟩ := RootStep.process_minds hg _ _ _ ⟨hroot, hrootUntold⟩ hprocess
  cases result with
  | infeasible => exact hbounded.elim
  | unbounded =>
      cases hsolve
      exact .inl ⟨rfl, rfl⟩
  | processed solution =>
      dsimp only at hsolve
      split at hsolve
      · exact .inr (htree hprocessed hbounded hsolve)
      · next detect hdetect =>
          obtain ⟨⟨isFeasible, fixed⟩, hsymmetry, hsolve⟩ := bind_eq_ok.mp hsolve
          have hgenerators : ∀ generator ∈ detect s.model, s.model.Permits generator := by
            split at hdetect
            · exact h.symmetry detect hdetect
            · cases hdetect
          obtain ⟨rfl, hfixed⟩ := useSymmetry_minds hg hgenerators _ _ _ hprocessed hsymmetry
          exact .inr (htree hfixed hbounded hsolve)

end Root

end Reliable

end Solver

/-- Whatever the status of a solve is, no feasible point has an objective value below both the dual
bound and the cutoff of the final incumbent. If the conditions do not report it themselves, a solve
that ends as infeasible without a solution proves that there are no feasible points. -/
theorem solve_loses_no_better_point [Relaxation ρ Exact] [Separator σ Exact] [Proposer η Exact]
    [StopCondition τ] {s : Solver Exact ρ σ η} {honest : ρ → Prop} (h : s.Reliable honest)
    {condition : τ}
    {outcome : SolveOutcome Exact ρ σ η} (hsolve : s.solve condition = .ok outcome) :
    (∀ x, s.model.Feasible x → s.boundOf outcome.result ≤ s.model.valueAt x) ∧
    ((∀ c : τ, StopCondition.status c ≠ .infeasible) → outcome.result.status = .infeasible →
      outcome.result.solution = none → ∀ x, ¬s.model.Feasible x) := by
  refine ⟨fun x hx => ?_, fun hconditions hstatus hnone x hx => ?_⟩
  all_goals
    obtain ⟨v, hv⟩ := h.exists_value x
    have hg := h.target_valid hx hv
    have hcases := h.solve_keeps hg hsolve
  · rw [hv]
    rcases hcases with ⟨-, hbound⟩ | ⟨start, last, relaxation, hkeeps, hrunning, hrun, rfl⟩
    · refine Exact.min_le_of_left ?_
      rw [hbound]
      rfl
    · exact Solver.finishTree_bounds rfl h.target_feastol (hkeeps.run hg hrunning hrun).1 relaxation
  · rcases hcases with ⟨hunbounded, -⟩ | ⟨start, last, relaxation, hkeeps, hrunning, hrun, rfl⟩
    · cases hunbounded.symm.trans hstatus
    · rw [Solver.finishTree_solution] at hnone
      obtain ⟨hlast, hstops⟩ := hkeeps.run hg hrunning hrun
      exact Solver.finishTree_status_ne hconditions hlast (hstops hnone) hnone relaxation hstatus

variable {m : Model Exact}

/-! ### Solves of small models -/

deriving instance DecidableEq for Column

instance : Decidable m.AllInteger :=
  decidable_of_iff (∀ column ∈ m.columns, column.kind = .integer)
    ⟨fun h _ _ hcolumn => h _ (Array.mem_of_getElem? hcolumn), fun h column hcolumn => by
      obtain ⟨c, hc⟩ := Array.mem_iff_getElem?.mp hcolumn
      exact h c column hc⟩

theorem Options.standard_feastol :
    (Options.standard : Options Exact).feastol = number (1 / 1000000) := by
  change decimal 1 true 6 = _
  norm_num [decimal]

namespace Solver

/-- A solver whose cuts and proposals are lists. -/
abbrev Standard (ρ : Type) := Solver Exact ρ (CutList Exact) (ProposalList Exact)

variable [Relaxation ρ Exact] [StopCondition τ] {honest : ρ → Prop} {draft : Draft Exact}
  {relaxation : ρ} {condition : τ}
  {test : Standard ρ → SolveOutcome Exact ρ (CutList Exact) (ProposalList Exact) → Bool}

/-- Whether a solve of a draft of integer columns with the standard options ends as a test
demands. -/
def endsAs (draft : Draft Exact) (relaxation : ρ) (condition : τ)
    (test : Standard ρ → SolveOutcome Exact ρ (CutList Exact) (ProposalList Exact) → Bool) : Bool :=
  passes draft.build fun model => decide model.AllInteger && Scalar.isFinite model.offset &&
    passes (ofModel (σ := CutList Exact) (η := ProposalList Exact) model relaxation .standard)
      fun s =>
      passes (s.solve condition) (test s)

/-- Such a solve relies on its relaxation alone. -/
theorem exists_of_endsAs (h : endsAs draft relaxation condition test = true)
    {Allowed : Model Exact → ℚ → Domain Exact → RelaxationSolution Exact → Prop}
    (hcontract : ∀ m, draft.build = .ok m → (∃ q, m.offset = number q) →
      KeepContract (Allowed m (1 / 1000000)) m honest)
    (hhonest : honest relaxation) :
    ∃ (s : Standard ρ) (outcome : SolveOutcome Exact ρ (CutList Exact) (ProposalList Exact)),
      draft.build = .ok s.model ∧ s.relaxation = relaxation ∧ s.Relies Allowed honest ∧
      s.solve condition = .ok outcome ∧ test s outcome = true := by
  obtain ⟨model, hbuilt, h⟩ := passes_eq_true.mp h
  simp only [Bool.and_eq_true, decide_eq_true_eq] at h
  obtain ⟨⟨hinteger, hfinite⟩, h⟩ := h
  have hoffset := isFinite_iff.mp hfinite
  obtain ⟨s, hmade, h⟩ := passes_eq_true.mp h
  obtain ⟨outcome, hsolve, htest⟩ := passes_eq_true.mp h
  unfold ofModel at hmade
  split at hmade
  · cases hmade
  · next hvalid =>
      dsimp only at hmade
      split at hmade
      · cases hmade
      · cases hmade
        refine ⟨_, outcome, hbuilt, rfl,
          { built := ⟨draft, hbuilt⟩
            integer := hinteger
            offset := hoffset
            valid := hvalid
            threads := rfl
            separators := rfl
            contract := ?_
            honest := hhonest
            symmetry := fun _ hdetect => by cases hdetect }, hsolve, htest⟩
        rw [Options.standard_feastol]
        exact hcontract model hbuilt hoffset

end Solver

/-- Two columns of which a row allows only one. -/
def oneOfTwo : Draft Exact :=
  ⟨#[⟨-1, 0, 1, .integer⟩, ⟨-1, 0, 1, .integer⟩], #[⟨-Scalar.infinity, 3, [(0, 2), (1, 2)]⟩], 0⟩

/-- Two columns whose row has only fractional solutions. -/
def halfOfTwo : Draft Exact :=
  ⟨#[⟨1, 0, 1, .integer⟩, ⟨1, 0, 1, .integer⟩], #[⟨1, 1, [(0, 2), (1, 2)]⟩], 0⟩

/-- The second column alone is one. -/
def onlySecond : Point := fun c => if c = 1 then 1 else 0

set_option maxRecDepth 100000 in
theorem oneOfTwo_ends : Solver.endsAs oneOfTwo (⟨2⟩ : CheapestBounds) Condition.indefinite
    (fun s outcome => decide (outcome.result.dualBound = -2) && decide
      (s.model.Feasible onlySecond)) =
      true := by
  delta Solver.endsAs
  rw [(Solver.solveUnrolled 100).property]
  decide +kernel

set_option maxRecDepth 100000 in
theorem halfOfTwo_ends : Solver.endsAs halfOfTwo (⟨2⟩ : CheapestBounds) Condition.indefinite
    (fun _ outcome => decide (outcome.result.status = .infeasible ∧
      outcome.result.solution = none)) =
      true := by
  delta Solver.endsAs
  rw [(Solver.solveUnrolled 100).property]
  decide +kernel


/-- The bound that a solve without the row proves holds at a point, and a model of which a solve
says that it is infeasible has no feasible points. -/
theorem solves_without_row_lose_no_better_point :
    (∃ (s : Solver.Standard CheapestBounds)
      (outcome : SolveOutcome Exact CheapestBounds (CutList Exact) (ProposalList Exact)),
      s.Reliable (fun _ => True) ∧ s.solve Condition.indefinite = .ok outcome ∧
      outcome.result.dualBound = -2 ∧ s.model.Feasible onlySecond ∧
      s.boundOf outcome.result ≤ s.model.valueAt onlySecond) ∧
    ∃ (s : Solver.Standard CheapestBounds)
      (outcome : SolveOutcome Exact CheapestBounds (CutList Exact) (ProposalList Exact)),
      s.Reliable (fun _ => True) ∧ s.solve Condition.indefinite = .ok outcome ∧
      outcome.result.status = .infeasible ∧ outcome.result.solution = none ∧
      ∀ x, ¬s.model.Feasible x := by
  constructor
  · obtain ⟨s, outcome, -, -, hreliable, hsolve, htest⟩ := Solver.exists_of_endsAs oneOfTwo_ends
      (fun _ hbuilt hoffset => CheapestBounds.keepContract (.of_build hbuilt hoffset) (by norm_num))
        trivial
    simp only [Bool.and_eq_true, decide_eq_true_eq] at htest
    obtain ⟨hbound, hfeasible⟩ := htest
    exact ⟨s, outcome, hreliable, hsolve, hbound, hfeasible,
      (solve_loses_no_better_point hreliable hsolve).1 _ hfeasible⟩
  · obtain ⟨s, outcome, -, -, hreliable, hsolve, htest⟩ := Solver.exists_of_endsAs halfOfTwo_ends
      (fun _ hbuilt hoffset => CheapestBounds.keepContract (.of_build hbuilt hoffset) (by norm_num))
        trivial
    obtain ⟨hstatus, hnone⟩ := of_decide_eq_true htest
    exact ⟨s, outcome, hreliable, hsolve, hstatus, hnone,
      (solve_loses_no_better_point hreliable hsolve).2 Condition.status_ne_infeasible hstatus hnone⟩

/-- Two columns of which the second one is worth taking. -/
def cheapSecond : Draft Exact :=
  ⟨#[⟨number 2, number 0, number 1, .integer⟩,
    ⟨number (-5), number 0, number 1, .integer⟩], #[], number 0⟩

/-- A relaxation whose answer is not in the box: the second column exceeds its upper bound. -/
def beyondBox : OneAnswer := ⟨2, .optimal ⟨#[number 1, number (7 / 5)], number (-5), none, 0⟩⟩

/-- A relaxation that has no answer. -/
def noAnswer : OneAnswer := ⟨2, .numericalTrouble⟩

/-- A condition that takes everything for infeasible. -/
structure Resignation where

instance : StopCondition Resignation where
  shouldStop c := (true, c)
  nodeProcessed c := c
  status _ := .infeasible

theorem cheapSecond_columns (h : cheapSecond.build = .ok m) :
    m.columns = cheapSecond.columns ∧ m.offset = number 0 := by
  have hbuild : passes cheapSecond.build (fun model =>
      decide (model.columns = cheapSecond.columns) && decide (model.offset = number 0)) = true := by
    cbv
  obtain ⟨_, hmodel, htest⟩ := passes_eq_true.mp hbuild
  obtain rfl := Except.ok.inj (h.symm.trans hmodel)
  simpa using htest

theorem cheapSecond_valueAt (h : cheapSecond.build = .ok m) (x : Point) :
    m.valueAt x = number (2 * x 0 - 5 * x 1) := by
  obtain ⟨hcolumns, hoffset⟩ := cheapSecond_columns h
  have hcosts : m.costEntries = [(0, number 2), (1, number (-5))] := by
    simp [Model.costEntries, hcolumns, cheapSecond]
  rw [Model.valueAt_eq hoffset (Model.Priced.of_build h ⟨_, hoffset⟩).costs, hcosts]
  simp [dot]
  ring

/-- The answer beyond the box underestimates every point of every box. -/
theorem beyondBox_underestimates (h : cheapSecond.build = .ok m) (d : Domain Exact) :
    beyondBox.answer.Complies (RelaxationSolution.Underestimates m (1 / 1000000) d) m d where
  integral := by
    intro c column q z hcolumn _ hvalue hnear
    match c with
    | 0 =>
      obtain rfl : 1 = q := by simpa using hvalue
      have hlt : |1 - (z : ℚ)| < 1 := lt_of_le_of_lt hnear (by norm_num)
      have hlt : |1 - z| < 1 := by exact_mod_cast hlt
      exact_mod_cast sub_eq_zero.mp (Int.abs_lt_one_iff.mp hlt)
    | 1 =>
      obtain rfl : 7 / 5 = q := by simpa using hvalue
      obtain ⟨hbelow, habove⟩ := abs_le.mp hnear
      have hbelow : (z : ℚ) < 2 := by linarith
      have habove : (1 : ℚ) < z := by linarith
      norm_cast at hbelow habove
      omega
    | c + 2 => simp at hvalue
  objective := by
    obtain ⟨hcolumns, hoffset⟩ := cheapSecond_columns h
    have hzero : (Scalar.negativeZero : Exact) = number 0 := by simp [Scalar.negativeZero]
    rw [Model.objectiveValue, hcolumns, hoffset]
    simp only [cheapSecond, Scalar.sum, List.zip_cons_cons, List.map_cons, List.foldl_cons, hzero]
    norm_num
  least := by
    intro x hx _
    have hbounds (c : ColumnId) column (hcolumn : cheapSecond.columns[c]? = some column) :=
      hx.bounds c column ((cheapSecond_columns h).1 ▸ hcolumn)
    have hfirst : (0 : ℚ) ≤ x 0 := number_le.mp (hbounds 0 _ rfl).1
    have hsecond : (x 1 : ℚ) ≤ 1 := number_le.mp (hbounds 1 _ rfl).2
    rw [cheapSecond_valueAt h]
    exact number_le.mpr (by linarith)

theorem noAnswer_complies (Allowed : RelaxationSolution Exact → Prop) (d : Domain Exact) :
    noAnswer.answer.Complies Allowed m d := trivial

set_option maxRecDepth 100000 in
theorem beyondBox_ends : Solver.endsAs cheapSecond beyondBox Condition.indefinite
    (fun s outcome => decide (s.model.Feasible onlySecond) &&
      decide (¬s.boundOf outcome.result ≤ number (-5))) = true := by
  delta Solver.endsAs
  rw [(Solver.solveUnrolled 100).property]
  decide +kernel

set_option maxRecDepth 100000 in
theorem noAnswer_ends : Solver.endsAs cheapSecond noAnswer Resignation.mk
    (fun s outcome => decide (s.model.Feasible onlySecond) &&
      decide (outcome.result.status = .infeasible ∧ outcome.result.solution = none)) = true := by
  delta Solver.endsAs
  rw [(Solver.solveUnrolled 100).property]
  decide +kernel

/-- With answers beyond the box a solve loses the best point, and with a condition that says so a
solve ends as infeasible though there is a feasible point. -/
theorem answers_beyond_box_lose_point :
    (∃ (s : Solver.Standard OneAnswer)
      (outcome : SolveOutcome Exact OneAnswer (CutList Exact) (ProposalList Exact)),
      cheapSecond.build = .ok s.model ∧ s.relaxation = beyondBox ∧
      s.Relies RelaxationSolution.Underestimates (fun r => r.answer = beyondBox.answer) ∧
      s.solve Condition.indefinite = .ok outcome ∧ s.model.Feasible onlySecond ∧
      ¬s.boundOf outcome.result ≤ s.model.valueAt onlySecond) ∧
    ∃ (s : Solver.Standard OneAnswer)
      (outcome : SolveOutcome Exact OneAnswer (CutList Exact) (ProposalList Exact)),
      cheapSecond.build = .ok s.model ∧ s.relaxation = noAnswer ∧
      s.Reliable (fun r => r.answer = noAnswer.answer) ∧ s.solve Resignation.mk = .ok outcome ∧
      s.model.Feasible onlySecond ∧ outcome.result.status = .infeasible ∧
      outcome.result.solution = none := by
  constructor
  · obtain ⟨s, outcome, hbuilt, hrelaxation, hrelies, hsolve, htest⟩ :=
      Solver.exists_of_endsAs beyondBox_ends
        (fun _ hbuilt _ => OneAnswer.keepContract fun d _ => beyondBox_underestimates hbuilt d) rfl
    simp only [Bool.and_eq_true, decide_eq_true_eq] at htest
    obtain ⟨hfeasible, hloses⟩ := htest
    refine ⟨s, outcome, hbuilt, hrelaxation, hrelies, hsolve, hfeasible, ?_⟩
    rw [cheapSecond_valueAt hbuilt]
    simpa [onlySecond] using hloses
  · obtain ⟨s, outcome, hbuilt, hrelaxation, hrelies, hsolve, htest⟩ :=
      Solver.exists_of_endsAs noAnswer_ends
        (fun _ _ _ => OneAnswer.keepContract fun _ _ => noAnswer_complies _ _) rfl
    simp only [Bool.and_eq_true, decide_eq_true_eq] at htest
    exact ⟨s, outcome, hbuilt, hrelaxation, hrelies, hsolve, htest⟩

end BranchBound
