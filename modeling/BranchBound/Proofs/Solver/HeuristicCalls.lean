import Mathlib
import BranchBound.Proofs.Solver.NodeBudget
import BranchBound.Proofs.Solver.ReportedSolutions

/-!
# When the heuristics run

The heuristics run in the evaluation of a node once its relaxation has a solution which is still of
interest, if the number of the node is a multiple of their frequency. The number of a node is
counted by its search, and a search is set back after every round. So with one worker the nodes are
numbered from the start of their round, not through the whole solve.
-/

namespace BranchBound

open Checked BranchBound.Action

variable {α ρ σ η τ : Type} [Scalar α]

/-- The heuristics ran on a solution of the relaxation in the first state, and have not run
since. -/
def SearchState.Consults [Proposer η α] (s : SearchState α ρ σ η τ)
    (solution : RelaxationSolution α)
    (t : SearchState α ρ σ η τ) : Prop :=
  ∃ found shared, s.shared.runHeuristics s.search.domain solution = .ok (found, shared) ∧
    t.shared.heuristics = shared.heuristics

namespace SearchStep

/-! ### Evaluations -/

/-- Counts the current node. -/
def countNode [StopCondition τ] : SearchStep α ρ σ η τ Unit := do
  let depth := (← search).depth
  changeStatistics fun s => return { s with
    nodes := ← count 64 s.nodes 1
    maxDepth := max s.maxDepth depth }
  changeSearch fun s => { s with plungeNodes := s.plungeNodes + 1 }
  let shared ← shared
  setShared { shared with condition := shared.condition.nodeProcessed }

/-- The evaluation of the current node up to the solution of its relaxation. -/
def approachNode [StopCondition τ] [Relaxation ρ α] [Separator σ α] :
    SearchStep α ρ σ η τ (Bounded α) := do
  countNode
  boundCurrent

/-- The state has given heuristics. -/
abbrev Holds (m : HeuristicManager α η) (s : SearchState α ρ σ η τ) : Prop :=
    s.shared.heuristics = m

variable {m : HeuristicManager α η}

omit [Scalar α] in
theorem holds_indifferent : Indifferent (Holds m : SearchState α ρ σ η τ → Prop) :=
  .alone fun _ _ hs halike => halike.heuristics.trans hs

omit [Scalar α] in
theorem changeSearch_holds (f : Search α ρ → Search α ρ) :
    Keeps (Holds m : SearchState α ρ σ η τ → Prop) (changeSearch f) :=
  changeSearch_leads fun _ hs => hs

omit [Scalar α] in
theorem changeNode_holds (f : SearchNode α → SearchNode α) :
    Keeps (Holds m : SearchState α ρ σ η τ → Prop) (changeNode f) :=
  changeNode_leads fun _ _ _ hs _ => hs

theorem propagate_holds :
    Keeps (Holds m) (propagate : SearchStep α ρ σ η τ Bool) :=
  propagate_leads (fun _ => holds_indifferent) fun _ _ _ hs _ => hs

theorem prune_holds (result : NodeResult) :
    Keeps (Holds m) (prune result : SearchStep α ρ σ η τ NodeResult) := by
  refine (changeSearch_holds _).bind fun _ => (changeNode_holds _).bind fun _ =>
    currentNode_keeps.bind fun _ => Leads.bind (Q := fun _ => Holds m)
      (changeStatistics_leads fun _ _ hs _ => hs) fun _ => ?_
  exact Leads.ite (fun _ => (changeSearch_holds _).bind fun _ => Keeps.pure) fun _ => Keeps.pure

omit [Scalar α] in
/-- Counting a node raises the number of nodes by one. -/
theorem countNode_counts [StopCondition τ] (n : Nat) :
    Leads (fun s => Holds m s ∧ s.search.statistics.nodes = n)
      (countNode : SearchStep α ρ σ η τ Unit)
      fun _ s => Holds m s ∧ s.search.statistics.nodes = n + 1 := by
  refine search_keeps.bind fun _ => Leads.bind
    (Q := fun _ s => Holds m s ∧ s.search.statistics.nodes = n + 1)
    (changeStatistics_leads fun s counted hs hcount => ?_) fun _ => ?_
  · simp only [bind_eq_ok, pure_eq_ok] at hcount
    obtain ⟨nodes, hnodes, rfl⟩ := hcount
    exact ⟨hs.1, (count_eq_ok hnodes).trans (congrArg (· + 1) hs.2)⟩
  · refine Leads.bind (Q := fun _ s => Holds m s ∧ s.search.statistics.nodes = n + 1)
      (changeSearch_leads fun s hs => hs) fun _ => shared_leads.bind fun shared =>
        Leads.modify fun s hs => ?_
    obtain ⟨rfl, hs⟩ := hs
    exact hs

section Bounding

variable [Relaxation ρ α]

theorem boundNode_holds : Keeps (Holds m) (boundNode : SearchStep α ρ σ η τ (Bounded α)) := by
  refine shared_keeps.bind fun _ => ((resolveNode_leads holds_indifferent _ _).after
    fun _ _ h => h.2).bind fun outcome => ?_
  cases outcome with
  | error result => exact Keeps.pure
  | ok solution =>
      have hrecord : Keeps (Holds m)
          (recordObjective solution.objective : SearchStep α ρ σ η τ Unit) := by
        refine currentNode_keeps.bind fun node => (changeNode_holds _).bind fun _ => ?_
        split
        · exact changePseudocost_keeps holds_indifferent _
        · exact Keeps.pure
      exact hrecord.bind fun _ => shared_keeps.bind fun _ =>
        Leads.ite (fun _ => Keeps.pure) fun _ => Keeps.pure

variable [Separator σ α]

/-- Until the relaxation of the node is solved, the heuristics do not run. -/
theorem boundCurrent_holds : Keeps (Holds m) (boundCurrent : SearchStep α ρ σ η τ (Bounded α)) := by
  refine (changeSearch_holds _).bind fun _ => shared_keeps.bind fun _ =>
    Leads.bind (changeDomain_leads holds_indifferent fun _ _ hs _ => hs) fun _ =>
      propagate_holds.bind fun _ => (recordInferences_keeps holds_indifferent).bind fun _ =>
        Leads.ite (fun _ => (analyse_keeps holds_indifferent _).bind fun _ => Keeps.pure) fun _ =>
          shared_keeps.bind fun _ => currentNode_keeps.bind fun _ =>
            Leads.ite (fun _ => Keeps.pure) fun _ => boundNode_holds.bind fun outcome => ?_
  cases outcome with
  | error result => exact Keeps.pure
  | ok solution =>
      refine (separateNode_keeps holds_indifferent _).bind fun _ => Leads.ite (fun _ => ?_)
        fun _ => Keeps.pure
      exact propagate_holds.bind fun _ => Leads.ite (fun _ => boundNode_holds) fun _ =>
        (analyse_keeps holds_indifferent _).bind fun _ => Keeps.pure

end Bounding

end SearchStep

/-! ### The heuristics in an evaluation -/

namespace SearchState

variable [Proposer η α] {s u v : SearchState α ρ σ η τ} {solution : RelaxationSolution α}

/-- Nothing that matters to the heuristics has changed yet. -/
structure Untouched (s u : SearchState α ρ σ η τ) : Prop where
  shared : u.shared = s.shared
  domain : u.search.domain = s.search.domain
  statistics : u.search.statistics = s.search.statistics

/-- The heuristics ran, if the number of nodes asks for it. -/
def Heeds (s : SearchState α ρ σ η τ) (solution : RelaxationSolution α)
    (t : SearchState α ρ σ η τ) : Prop :=
  if s.shared.heuristics.runsAt s.search.statistics.nodes then s.Consults solution t
  else t.shared.heuristics = s.shared.heuristics

theorem Heeds.congr (h : s.Heeds solution u) (heq : v.shared.heuristics = u.shared.heuristics) :
    s.Heeds solution v := by
  unfold Heeds at h ⊢
  split at h
  · next hruns =>
      obtain ⟨found, shared, hrun, hshared⟩ := h
      rw [if_pos hruns]
      exact ⟨found, shared, hrun, heq.trans hshared⟩
  · next hruns =>
      rw [if_neg hruns]
      exact heq.trans h

theorem heeds_indifferent : Indifferent (s.Heeds solution : SearchState α ρ σ η τ → Prop) :=
  .alone fun _ _ hs halike => hs.congr halike.heuristics

end SearchState

namespace SearchStep

variable [Proposer η α] {s t : SearchState α ρ σ η τ} {solution : RelaxationSolution α}

theorem runHeuristics_heeds :
    Leads s.Untouched (runHeuristics solution) fun _ => s.Heeds solution := by
  refine shared_leads.bind fun shared => search_leads.bind fun search =>
    Leads.ite (fun hruns => ?_) fun hruns => Leads.pure fun u hu => ?_
  · refine domain_leads.bind fun d => Leads.lift.bind fun found =>
      Leads.bind (Q := fun _ => s.Heeds solution) (Leads.modify fun u hu => ?_) fun _ =>
        changeStatistics_leads fun _ _ hu _ => hu.congr rfl
    obtain ⟨hfound, rfl, rfl, rfl, hu⟩ := hu
    rw [hu.shared, hu.statistics] at hruns
    rw [hu.shared, hu.domain] at hfound
    rw [SearchState.Heeds, if_pos hruns]
    exact ⟨_, _, hfound, rfl⟩
  · obtain ⟨rfl, rfl, hu⟩ := hu
    rw [hu.shared, hu.statistics] at hruns
    rw [SearchState.Heeds, if_neg hruns, hu.shared]

theorem submitIntegral_heeds : Keeps (s.Heeds solution) (submitIntegral solution) := by
  refine domain_keeps.bind fun d => Leads.bind (Keeps.foldlM (fun _ _ => Keeps.lift) _ _)
    fun point => shared_leads.bind fun shared => Leads.ite (fun _ => ?_) fun _ => ?_
  · refine Leads.bind (Q := fun _ => s.Heeds solution) (Leads.modify fun u hu => ?_) fun _ =>
      (changeStatistics_keeps SearchState.heeds_indifferent
        (by intros; rfl)).bind fun _ => Keeps.pure
    obtain ⟨rfl, hu⟩ := hu
    refine hu.congr ?_
    dsimp only [Shared.submit]
    split
    · rfl
    · rfl
  · exact Leads.before ((notify_keeps SearchState.heeds_indifferent _).bind fun _ => Keeps.pure)
      fun _ hu => hu.2

/-- What follows from a solution of the relaxation begins with the heuristics. -/
theorem concludeNode_heeds :
    Leads s.Untouched (concludeNode solution) fun _ => s.Heeds solution := by
  have hrest : Leads s.Untouched (do
      runHeuristics solution
      let fractional ← (← domain).fractionalColumns solution
      if fractional.isEmpty then submitIntegral solution
      else if (← shared).cutoff < solution.objective then return .boundExceeding
      else
        let estimate ← (← search).pseudocost.estimate solution fractional
        changeNode fun node => { node with estimate := estimate }
        changeSearch fun s => { s with solution := some solution }
        return .unsolved : SearchStep α ρ σ η τ NodeResult) fun _ => s.Heeds solution := by
    refine runHeuristics_heeds.bind fun _ => domain_keeps.bind fun _ => Keeps.lift.bind fun _ =>
      Leads.ite (fun _ => submitIntegral_heeds) fun _ => shared_keeps.bind fun _ =>
        Leads.ite (fun _ => Keeps.pure) fun _ => search_keeps.bind fun _ =>
          Keeps.lift.bind fun _ => ?_
    exact Leads.bind (changeNode_leads (Q := fun _ => s.Heeds solution)
      fun _ _ _ hu _ => hu.congr rfl) fun _ => Leads.bind (changeSearch_leads
        (Q := fun _ => s.Heeds solution) fun _ hu => hu.congr rfl) fun _ => Keeps.pure
  refine Leads.ite (fun _ => Leads.bind (Q := fun _ => s.Untouched)
    (changeNode_leads fun _ _ _ hu _ => ?_) fun _ => hrest) fun _ => hrest
  exact ⟨hu.shared, hu.domain, hu.statistics⟩

variable [Relaxation ρ α] [Separator σ α] [StopCondition τ]

/-- In the evaluation of a node the heuristics run if and only if the relaxation gets a solution
that is still of interest and the number of the node is a multiple of their frequency. -/
theorem evaluate_consults {result : NodeResult} (h : evaluate.perform s = (.ok result, t)) :
    ∃ bounded u, approachNode.perform s = (.ok bounded, u) ∧
      u.search.statistics.nodes = s.search.statistics.nodes + 1 ∧
      u.shared.heuristics = s.shared.heuristics ∧
      match bounded with
      | .error _ => t.shared.heuristics = s.shared.heuristics
      | .ok solution => u.Heeds solution t := by
  have hevaluate : (evaluate : SearchStep α ρ σ η τ NodeResult) = do
      countNode
      let result ← evaluateOnce
      if result.isPruned then prune result else return result := by
    simp only [evaluate, countNode, bind_assoc]
  rw [hevaluate, evaluateOnce_eq] at h
  obtain ⟨_, v, hcount, h⟩ := perform_bind_eq_ok.mp h
  obtain ⟨concluded, w, honce, hprune⟩ := perform_bind_eq_ok.mp h
  obtain ⟨bounded, u, hbound, hconclude⟩ := perform_bind_eq_ok.mp honce
  have hs : Holds s.shared.heuristics s ∧ s.search.statistics.nodes = s.search.statistics.nodes :=
    ⟨rfl, rfl⟩
  obtain ⟨hheld, hnodes⟩ := countNode_counts _ _ _ _ hs hcount
  have hv : Affects v.propagation v.tally v := ⟨.refl, rfl⟩
  have hu := boundCurrent_affects _ _ _ hv hbound
  have hafter : t.shared.heuristics = w.shared.heuristics := by
    split at hprune
    · exact prune_holds _ _ _ _ rfl hprune
    · cases hprune
      rfl
  refine ⟨bounded, u, perform_bind_eq_ok.mpr ⟨_, v, hcount, hbound⟩, ?_, ?_, ?_⟩
  · exact (congrArg Tally.nodes hu.tally).trans hnodes
  · exact boundCurrent_holds _ _ _ hheld hbound
  · cases bounded with
    | error result =>
        cases hconclude
        exact hafter.trans (boundCurrent_holds _ _ _ hheld hbound)
    | ok solution => exact (concludeNode_heeds _ _ _ ⟨rfl, rfl, rfl⟩ hconclude).congr hafter

/-! ### The number of an evaluation -/

/-- Some number of visits in a row. -/
inductive Visits : Nat → List (OpenNode α) × SearchState α ρ σ η τ →
    List (OpenNode α) × SearchState α ρ σ η τ → Prop
  | none (x : List (OpenNode α) × SearchState α ρ σ η τ) : Visits 0 x x
  | next {k : Nat} {x y z : List (OpenNode α) × SearchState α ρ σ η τ} (h : Visits k x y)
      (hvisit : Visit y z) : Visits (k + 1) x z

section Visits

variable {k : Nat} {x y : List (OpenNode α) × SearchState α ρ σ η τ} {model : Model α}
  {o : Options α}

/-- Every visit counts one node. -/
theorem Visits.nodes (h : Visits k x y) :
    y.2.search.statistics.nodes = x.2.search.statistics.nodes + k := by
  induction h with
  | none => rfl
  | next _ hvisit ih =>
      have htally := congrArg Tally.nodes hvisit.tally.2
      exact htally.trans (congrArg (· + 1) ih)

theorem Visits.keeps {P : SearchState α ρ σ η τ → Prop} (hP : ∀ x y, Visit x y → P x.2 → P y.2)
    (h : Visits k x y) (hx : P x.2) : P y.2 := by
  induction h with
  | none => exact hx
  | next _ hvisit ih => exact hP _ _ hvisit (ih hx)

omit [Relaxation ρ α] [Separator σ α] [StopCondition τ] in
/-- What is put together from passages keeps an incumbent checked. -/
theorem vetted_of_passes {u v : SearchState α ρ σ η τ} {suspended : List (OpenNode α)}
    (h : Passes (.empty, u) suspended v) (hu : u.Vetted model o) : v.Vetted model o :=
  have ⟨_, hpassages⟩ := h
  hpassages.vetted hu

/-- A visit keeps a checked incumbent, and heuristics that suit the options. -/
theorem Visit.vetted (h : Visit x y) (hx : x.2.Vetted model o) : y.2.Vetted model o := by
  have hpasses {u v : SearchState α ρ σ η τ} {γ : Type} {step : SearchStep α ρ σ η τ γ} {result : γ}
      (hstep : Keeps (Passes (.empty, u) []) step) (hrun : step.perform u = (.ok result, v))
      (hu : u.Vetted model o) : v.Vetted model o :=
    vetted_of_passes (hstep _ _ _ ⟨[], .refl⟩ hrun) hu
  cases h with
  | branched hask hevaluate hbranch =>
      exact hpasses branch_passes hbranch (hpasses evaluate_passes hevaluate
        (hpasses (shouldStop_keeps passes_indifferent) hask hx))
  | finished hask hhandled _ _ hback =>
      have hasked := hpasses (shouldStop_keeps passes_indifferent) hask hx
      refine vetted_of_passes (backtrackPlunge_passes _ _ _ ⟨[], .refl⟩ hback) ?_
      cases hhandled with
      | evaluated hevaluate _ => exact hpasses evaluate_passes hevaluate hasked
      | tried hevaluate hbranch _ =>
          exact hpasses branch_passes hbranch (hpasses evaluate_passes hevaluate hasked)

end Visits

end SearchStep

namespace TreeState

variable [Relaxation ρ α] [Separator σ α] [Proposer η α] [StopCondition τ]
  {t t' : TreeState α ρ σ η τ} {model : Model α} {o : Options α}

/-- The only worker has counted nothing yet. -/
def Single (t : TreeState α ρ σ η τ) : Prop :=
  ∃ worker, t.workers = [worker] ∧ worker.statistics.nodes = 0

/-- In the round of the only worker, an evaluation begins in the given state after some others. -/
inductive Evaluates (t : TreeState α ρ σ η τ) (before : Nat) (s : SearchState α ρ σ η τ) : Prop
  | mk {worker : Search α ρ} {node : OpenNode α} {queue : NodeQueue α}
      {installed u : SearchState α ρ σ η τ} {suspended : List (OpenNode α)}
      (hworkers : t.workers = [worker]) (hpop : t.queue.pop = (some node, queue))
      (hinstall : (SearchStep.install node).perform ⟨worker, t.shared⟩ = (.ok (), installed))
      (hvisits : SearchStep.Visits before ([], installed) (suspended, u))
      (hask : SearchStep.shouldStop.perform u = (.ok false, s))

omit [Relaxation ρ α] [Separator σ α] [Proposer η α] in
theorem Single.continues (h : t.Single) (hcontinues : t.continues = (true, t')) : t'.Single := by
  unfold TreeState.continues at hcontinues
  dsimp only at hcontinues
  split at hcontinues
  · cases hcontinues
  · split at hcontinues
    · cases hcontinues
    · split at hcontinues
      · cases hcontinues
      · split at hcontinues
        · cases hcontinues
        · cases hcontinues
          exact h

/-- After a round the statistics of the worker are set back. -/
theorem Single.round (h : t.Single) (hround : t.Round t') : t'.Single := by
  obtain ⟨s, u, shared, hcontinues, hrun, -, -, hnote⟩ := round_iff.mp hround
  obtain ⟨worker, hworkers, -⟩ := h.continues hcontinues
  obtain ⟨worker', suspended, after, -, hcollect⟩ := runRound_single hworkers hrun
  simp only [collectWorker, bind_eq_ok, pure_eq_ok] at hcollect
  obtain ⟨_, -, _, -, _, -, rfl⟩ := hcollect
  exact ⟨worker'.resetStatistics, (noteProgress_keeps hnote).1, rfl⟩

theorem Vetted.round (h : t.Vetted model o) (hround : t.Round t') : t'.Vetted model o := by
  obtain ⟨s, u, shared, hcontinues, hrun, -, hage, hnote⟩ := round_iff.mp hround
  have hu := (h.continues hcontinues).runRound hrun
  have haged : TreeState.Vetted model o { u with shared := shared } :=
    ⟨hu.shared.ageConflicts hage, hu.workers⟩
  exact haged.noteProgress hnote

/-- The evaluations of a round are numbered from its start, over heuristics that suit the
options. -/
theorem Evaluates.numbered {before : Nat} {s : SearchState α ρ σ η τ} (h : t.Evaluates before s)
    (hsingle : t.Single) (hvetted : t.Vetted model o) :
    s.search.statistics.nodes = before ∧ s.shared.heuristics.Suits o := by
  obtain ⟨hworkers, hpop, hinstall, hvisits, hask⟩ := h
  obtain ⟨worker, hworkers', hzero⟩ := hsingle
  obtain rfl := List.singleton_inj.mp (hworkers.symm.trans hworkers')
  have htally := SearchStep.install_aside SearchStep.tallies_aside _ _ _ _ rfl hinstall
  have hinstalled : SearchState.Vetted model o _ := SearchStep.install_vets _ _ _ _
    ⟨hvetted.workers _ (hworkers ▸ List.mem_singleton_self _), hvetted.shared⟩ hinstall
  have hlast := hvisits.keeps (P := SearchState.Vetted model o) (fun _ _ hvisit => hvisit.vetted)
    hinstalled
  obtain ⟨-, hasked⟩ := SearchStep.shouldStop_tallies _ _ _ rfl hask
  refine ⟨?_,
    (SearchStep.shouldStop_keeps SearchStep.vetted_indifferent _ _ _ hlast hask).shared.heuristics⟩
  have hstart := congrArg Tally.nodes htally
  have hnodes := hvisits.nodes
  have hend := congrArg Tally.nodes hasked
  simp only [SearchState.tally] at hstart hend
  rw [hend, hnodes, hstart, hzero, Nat.zero_add]

end TreeState

/-- The tree below the root begins with a single worker if there is a single thread. -/
theorem Solver.Explores.single [Relaxation ρ α] [Separator σ α] [Proposer η α] [StopCondition τ]
    {s : Solver α ρ σ η} {condition : τ} {solution : Option (RelaxationSolution α)}
    {tree : TreeState α ρ σ η τ} (hthreads : s.options.threads = 1)
    (h : s.Explores condition solution tree) : tree.Single := by
  obtain ⟨root, relaxation, -, hbelow⟩ := h
  simp only [treeBelow, bind_eq_ok, pure_eq_ok, Prod.mk.injEq] at hbelow
  obtain ⟨pool, -, pushed, -, rfl, -⟩ := hbelow
  refine ⟨.ofDomain root.domain (Relaxation.fork root.relaxation).2 s.options
    s.options.randomSeed s.coin, ?_, rfl⟩
  rw [hthreads]
  rfl

/-- With one worker, the heuristics run at the nodes whose number in their round is a multiple of
the frequency, if their relaxation gets a solution that is still of interest; and at no other
nodes. -/
theorem heuristics_run_by_number_in_round [Relaxation ρ α] [Separator σ α] [Proposer η α]
    [StopCondition τ] {s : Solver α ρ σ η} (hmade : s.Made) (hthreads : s.options.threads = 1)
    {condition : τ} {solution : Option (RelaxationSolution α)} {start t u : TreeState α ρ σ η τ}
    (hexplores : s.Explores condition solution start)
    (hrounds : Relation.ReflTransGen TreeState.Round start t) (hcontinues : t.continues = (true, u))
    {before : Nat} {v w : SearchState α ρ σ η τ} (hevaluates : u.Evaluates before v)
    {result : NodeResult} (hevaluate : SearchStep.evaluate.perform v = (.ok result, w)) :
    ∃ bounded x, SearchStep.approachNode.perform v = (.ok bounded, x) ∧
      match bounded with
      | .error _ => w.shared.heuristics = v.shared.heuristics
      | .ok solution =>
        if 0 < s.options.separation.heuristicFrequency ∧
            s.options.separation.heuristicFrequency ∣ before + 1 then x.Consults solution w
        else w.shared.heuristics = v.shared.heuristics := by
  have hhead : t.Vetted s.model s.options ∧ t.Single := by
    have hstart : start.Vetted s.model s.options ∧ start.Single :=
      ⟨(hexplores.vetted hmade.suits).1, hexplores.single hthreads⟩
    clear hcontinues hevaluates
    induction hrounds with
    | refl => exact hstart
    | tail _ hround ih => exact ⟨ih.1.round hround, ih.2.round hround⟩
  obtain ⟨hnodes, hsuits⟩ :=
    hevaluates.numbered (hhead.2.continues hcontinues) (hhead.1.continues hcontinues)
  obtain ⟨bounded, x, happroach, hcounted, hheld, hconsults⟩ :=
    SearchStep.evaluate_consults hevaluate
  refine ⟨bounded, x, happroach, ?_⟩
  cases bounded with
  | error result => exact hconsults
  | ok solution =>
      have hruns : x.shared.heuristics.runsAt x.search.statistics.nodes = true ↔
          0 < s.options.separation.heuristicFrequency ∧
            s.options.separation.heuristicFrequency ∣ before + 1 := by
        rw [hcounted, hnodes, hheld, HeuristicManager.runsAt, hsuits.frequency]
        simp [Nat.dvd_iff_mod_eq_zero]
      dsimp only at hconsults ⊢
      rw [SearchState.Heeds, hheld] at hconsults
      rw [hheld] at hruns
      split at hconsults
      · next hruns' => rwa [if_pos (hruns.mp hruns')]
      · next hruns' => rwa [if_neg fun h => hruns' (hruns.mpr h)]

section Exact

open Exact

/-- Four columns, of which no number makes the odd sum. -/
def oddSumOfFour : Draft Exact :=
  ⟨#[⟨0, 0, 1, .integer⟩, ⟨0, 0, 1, .integer⟩, ⟨0, 0, 1, .integer⟩, ⟨0, 0, 1, .integer⟩],
    #[⟨3, 3, [(0, 2), (1, 2), (2, 2), (3, 2)]⟩], 0⟩

/-- The relaxation of four columns that is solved halfway between their bounds. -/
def halvesOfFour : ElementaryRelaxation Exact :=
  { rule := .shifted (number (1 / 2)), columnCount := 4, script := [],
    recoverable := 0, proofs := []
    sendsProof := false, hasBasis := false, cutGain := 0, cuts := [],
      isWarm := false, tally := .zero }

/-- Heuristics at every third node, and rounds that end with their first dive. -/
def everyThird : Options Exact :=
  { shortPlunges with separation := { shortPlunges.separation with heuristicFrequency := 3 } }

/-- A heuristic that proposes nothing and counts how often it is asked. -/
def countsCalls : ProposalList Exact := ⟨"calls", [], 0⟩

/-- The state of a tree that is explored by elementary solvers. -/
abbrev TreeState.Elementary :=
  TreeState Exact (ElementaryRelaxation Exact) (CutList Exact) (ProposalList Exact) Condition

/-- Whether the head of the second round passes a test. -/
def secondRound (s : Solver.Elementary) (test : TreeState.Elementary → Bool) : Bool :=
  passes s.initialDomain fun d =>
    passes (RootStep.propagate.run (s.rootOver Condition.indefinite d)) fun propagated =>
      propagated.1 &&
      passes (RootStep.process.run propagated.2) fun processed =>
        processed.1.solution?.any fun solution =>
          (if s.options.symmetry then s.detectSymmetry else none).isNone &&
          passes (s.treeBelow processed.2 (some solution)) fun tree =>
            passes tree.1.next? fun t => t.any test

theorem exists_of_secondRound {s : Solver.Elementary} {test : TreeState.Elementary → Bool}
    (h : secondRound s test = true) : ∃ solution start t,
      s.Explores Condition.indefinite solution start ∧ TreeState.Round start t ∧ test t = true := by
  obtain ⟨d, hd, h⟩ := passes_eq_true.mp h
  obtain ⟨⟨isFeasible, root⟩, hpropagate, h⟩ := passes_eq_true.mp h
  rw [Bool.and_eq_true] at h
  obtain ⟨rfl, h⟩ := h
  obtain ⟨⟨result, processed⟩, hprocess, h⟩ := passes_eq_true.mp h
  obtain ⟨solution, hsolution, h⟩ := (Option.any_eq_true ..).mp h
  obtain rfl := RootResult.eq_processed hsolution
  rw [Bool.and_eq_true, Option.isNone_iff_eq_none] at h
  obtain ⟨hsymmetry, h⟩ := h
  obtain ⟨⟨start, relaxation⟩, hbelow, h⟩ := passes_eq_true.mp h
  obtain ⟨next, hround, h⟩ := passes_eq_true.mp h
  obtain ⟨t, rfl, htest⟩ := (Option.any_eq_true ..).mp h
  exact ⟨some solution, start, t,
    ⟨processed, relaxation, .processed hd hpropagate hprocess hsymmetry, hbelow⟩,
    hround, htest⟩

/-- Whether the first node of a round gets a solution of its relaxation. -/
def firstNodeSolved (t : TreeState.Elementary) : Bool :=
  match t.workers, t.queue.pop.1 with
  | [worker], some node =>
    passes ((SearchStep.install node).finish ⟨worker, t.shared⟩) fun installed =>
      passes (SearchStep.shouldStop.finish installed.2) fun asked =>
        !asked.1 && passes (SearchStep.approachNode.finish asked.2) (fun x => x.1.isOk) &&
          passes (SearchStep.evaluate.finish asked.2) fun _ => true
  | _, _ => false

theorem exists_of_firstNodeSolved {t : TreeState.Elementary} (h : firstNodeSolved t = true) :
    ∃ v solution x result w, t.Evaluates 0 v ∧
      SearchStep.approachNode.perform v = (.ok (.ok solution), x) ∧
      SearchStep.evaluate.perform v = (.ok result, w) := by
  unfold firstNodeSolved at h
  split at h
  · next worker node hworkers hpop =>
      obtain ⟨⟨_, installed⟩, hinstall, h⟩ := passes_eq_true.mp h
      obtain ⟨⟨stop, v⟩, hask, h⟩ := passes_eq_true.mp h
      simp only [Bool.and_eq_true, Bool.not_eq_true'] at h
      obtain ⟨⟨rfl, happroach⟩, hevaluate⟩ := h
      obtain ⟨⟨bounded, x⟩, happroach, hok⟩ := passes_eq_true.mp happroach
      obtain ⟨⟨result, w⟩, hevaluate, -⟩ := passes_eq_true.mp hevaluate
      cases bounded with
      | error result => cases hok
      | ok solution =>
          exact ⟨v, solution, x, result, w, .mk hworkers (Prod.ext hpop rfl)
            (finish_eq_ok.mp hinstall)
            (.none _) (finish_eq_ok.mp hask), finish_eq_ok.mp happroach, finish_eq_ok.mp hevaluate⟩
  · cases h

set_option maxRecDepth 100000 in
theorem third_node_begins_round : passes oddSumOfFour.build (fun model =>
    passes (Solver.ofModel (ρ := ElementaryRelaxation Exact) model halvesOfFour everyThird)
      fun (s : Solver.Elementary) => secondRound (s.addHeuristic (.custom countsCalls)) fun t =>
        decide (t.statistics.nodes = 2) && t.continues.1 &&
          firstNodeSolved t.continues.2) = true := by
  delta secondRound firstNodeSolved TreeState.next? SearchStep.approachNode
  rw [(RootStep.propagateUnrolled 100).property, (RootStep.processUnrolled 100).property,
    (TreeState.runRoundUnrolled 100).property, (SearchStep.boundCurrentUnrolled 100).property,
    (SearchStep.evaluateUnrolled 100).property]
  decide +kernel

/-- The third node of a solve is the first one of its round: though its number is a multiple of the
frequency, the heuristics do not run. -/
theorem third_node_passed_over : ∃ (s : Solver.Elementary)
    (solution : Option (RelaxationSolution Exact)) (start t u : TreeState.Elementary)
    (v x w : SearchState Exact (ElementaryRelaxation Exact) (CutList Exact) (ProposalList Exact)
      Condition) (answer : RelaxationSolution Exact) (result : NodeResult),
    s.Made ∧ s.options.threads = 1 ∧ s.Explores Condition.indefinite solution start ∧
    Relation.ReflTransGen TreeState.Round start t ∧ t.continues = (true, u) ∧ u.Evaluates 0 v ∧
    SearchStep.evaluate.perform v = (.ok result, w) ∧
    s.options.separation.heuristicFrequency = 3 ∧ t.statistics.nodes + 1 = 3 ∧
    SearchStep.approachNode.perform v = (.ok (.ok answer), x) ∧
    w.shared.heuristics = v.shared.heuristics := by
  obtain ⟨model, -, hrun⟩ := passes_eq_true.mp third_node_begins_round
  obtain ⟨s, hs, hrun⟩ := passes_eq_true.mp hrun
  have hmade : (s.addHeuristic (.custom countsCalls)).Made :=
    (Solver.Made.ofModel hs).addHeuristic _
  have hoptions : (s.addHeuristic (.custom countsCalls)).options = everyThird :=
    (Solver.ofModel_eq_ok hs).2.1
  obtain ⟨solution, start, t, hexplores, hround, hrun⟩ := exists_of_secondRound hrun
  simp only [Bool.and_eq_true, decide_eq_true_eq] at hrun
  obtain ⟨⟨hnodes, hgoes⟩, hsolved⟩ := hrun
  obtain ⟨v, answer, x, result, w, hevaluates, happroach, hevaluate⟩ :=
    exists_of_firstNodeSolved hsolved
  have hthreads : (s.addHeuristic (.custom countsCalls)).options.threads = 1 := by
    rw [hoptions]
    rfl
  have hfrequency :
      (s.addHeuristic (.custom countsCalls)).options.separation.heuristicFrequency = 3 := by
    rw [hoptions]
    rfl
  have hcontinues : t.continues = (true, t.continues.2) := Prod.ext hgoes rfl
  obtain ⟨bounded, y, happroach', hconsults⟩ :=
    heuristics_run_by_number_in_round hmade hthreads hexplores
    (.single hround) hcontinues hevaluates hevaluate
  obtain ⟨hbounded, rfl⟩ := Prod.mk.inj (happroach.symm.trans happroach')
  cases hbounded
  rw [hfrequency] at hconsults
  exact ⟨_, solution, start, t, _, v, x, w, answer, result, hmade, hthreads, hexplores,
    .single hround, hcontinues,
    hevaluates, hevaluate, hfrequency, by omega, happroach, hconsults⟩

end Exact

end BranchBound
