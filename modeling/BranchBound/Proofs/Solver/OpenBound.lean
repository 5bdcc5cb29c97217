import BranchBound.Proofs.Node.Queue
import BranchBound.Proofs.Search.Passage
import BranchBound.Proofs.Solver.Rounds
import BranchBound.Proofs.Solver.Unrolling
import BranchBound.Relaxation.Elementary
import Mathlib

/-!
# The global bound never gets worse

At the head of a round no open node and no node that was given up has a lower bound below the bound
of the tree. What the workers suspend or give up comes from nodes of the queue and has at least
their lower bounds. So the bound of the tree never decreases, whatever the relaxation, the
separators, the heuristics and the condition answer, and whatever each worker finds of the work of
the others at its turns: the lower bounds of a worker depend on its own nodes alone.
-/

namespace BranchBound

open Checked BranchBound.Action

variable {α ρ σ η τ : Type} [Scalar α]

namespace TreeState

/-- No open node and no node that was given up has a lower bound below a given number. The tree
knows the bounds of what its workers gave up. -/
structure Above (bound : α) (t : TreeState α ρ σ η τ) : Prop where
  queue : t.queue.Above bound
  givenUp : bound ≤ t.givenUpBound
  workers : ∀ worker ∈ t.workers, t.givenUpBound ≤ worker.givenUpBound

variable {bound : α} {t t' : TreeState α ρ σ η τ}

/-- What else there is in a tree does not matter. -/
theorem Above.congr (h : t.Above bound) (hqueue : t'.queue = t.queue)
    (hgivenUp : t'.givenUpBound = t.givenUpBound) (hworkers : t'.workers = t.workers) :
    t'.Above bound :=
  ⟨hqueue ▸ h.queue, hgivenUp ▸ h.givenUp, by rw [hgivenUp, hworkers]; exact h.workers⟩

theorem Above.noteProgress (h : t.Above bound) (hnote : t.noteProgress = .ok t') :
    t'.Above bound := by
  simp only [TreeState.noteProgress] at hnote
  split at hnote
  · simp only [bind_eq_ok, pure_eq_ok] at hnote
    obtain ⟨_, -, rfl⟩ := hnote
    exact h.congr rfl rfl rfl
  · cases hnote
    exact h

/-- Deciding whether to go on only removes nodes from the queue. -/
theorem Above.continues [StopCondition τ] (h : t.Above bound) : t.continues.2.Above bound := by
  have hpruned : (t.queue.prune t.shared.cutoff).2.Above bound :=
    h.queue.sublist (List.takeWhile_sublist _)
  unfold TreeState.continues
  dsimp only
  split
  · exact h.congr rfl rfl rfl
  · split
    · exact ⟨hpruned, h.givenUp, h.workers⟩
    · split
      · exact ⟨hpruned, h.givenUp, h.workers⟩
      · split
        · exact ⟨hpruned, h.givenUp, h.workers⟩
        · exact ⟨hpruned, h.givenUp, h.workers⟩

variable [Scalar.Ordered α]

theorem Above.le_openBound (h : t.Above bound) : bound ≤ t.openBound :=
  Scalar.le_min (h.queue.le_minLowerBound (Scalar.number_left h.givenUp)) h.givenUp

/-- Nothing is below the bound of the tree. -/
theorem Above.openBound (h : t.Above bound) : t.Above t.openBound := by
  have hmin := Scalar.number_right
    (h.queue.le_minLowerBound (Scalar.number_left h.givenUp))
  have hgivenUp := Scalar.number_right h.givenUp
  refine ⟨⟨h.queue.sorted, fun x hx => ?_⟩, Scalar.min_le_right hmin hgivenUp, h.workers⟩
  exact Scalar.Ordered.le_trans _ _ _ (Scalar.min_le_left hmin)
    (h.queue.minLowerBound.bounded x hx)

omit [Scalar.Ordered α] in
/-- The workers get nodes of the queue. -/
theorem takeNodes_above {queue : NodeQueue α} (h : queue.Above bound)
    (workers : List (Search α ρ)) :
    (takeNodes queue workers).2.Above bound ∧
      ∀ assigned ∈ (takeNodes queue workers).1, assigned.1 ∈ workers ∧
        ∀ node ∈ assigned.2, bound ≤ node.lowerBound := by
  induction workers generalizing queue with
  | nil => exact ⟨h, fun _ hassigned => by cases hassigned⟩
  | cons worker rest ih =>
      obtain ⟨hqueue, hrest⟩ := ih (h.sublist queue.pop_sublist)
      refine ⟨hqueue, fun assigned hassigned => ?_⟩
      rcases List.mem_cons.mp hassigned with rfl | hassigned
      · refine ⟨List.mem_cons_self .., fun node hnode => ?_⟩
        obtain ⟨x, hx, rfl⟩ := NodeQueue.mem_of_pop hnode
        exact h.bounded x hx
      · obtain ⟨hworker, hnode⟩ := hrest assigned hassigned
        exact ⟨List.mem_cons_of_mem _ hworker, hnode⟩

/-- What a worker brings back, together with what it gave up, is not below what was there. -/
theorem Above.collectWorker (h : t.Above bound) {worker : Search α ρ}
    {suspended : List (OpenNode α)} (hworker : bound ≤ worker.givenUpBound)
    (hsuspended : ∀ n ∈ suspended, bound ≤ n.lowerBound)
    (hcollect : t.collectWorker worker suspended = .ok t') : t'.Above bound := by
  simp only [TreeState.collectWorker, bind_eq_ok, pure_eq_ok] at hcollect
  obtain ⟨queue, hpush, _, -, _, -, rfl⟩ := hcollect
  have hold := Scalar.number_right h.givenUp
  have hnew := Scalar.number_right hworker
  refine ⟨h.queue.pushAll hsuspended ?_, Scalar.le_min h.givenUp hworker, fun w hw => ?_⟩
  · simpa only [bind_eq_ok, pure_eq_ok] using hpush
  · rcases List.mem_append.mp hw with hw | hw
    · exact Scalar.Ordered.le_trans _ _ _ (Scalar.min_le_left hold) (h.workers w hw)
    · rw [List.mem_singleton.mp hw]
      exact Scalar.min_le_right hold hnew

variable [Others α σ η τ] [Relaxation ρ α] [Separator σ α] [Proposer η α] [StopCondition τ]

/-- Exploring a node consists of passages from its installation on. They suspend what is returned
and give up what the worker counts, and nothing of it is below the node. -/
theorem explore_passages {shared shared' : Shared α σ η τ} {worker worker' : Search α ρ}
    {node : OpenNode α} {suspended : List (OpenNode α)}
    (hnode : Scalar.isNaN node.lowerBound = false)
    (h : explore shared worker (some node) = .ok (worker', suspended, shared')) :
    ∃ (installed : SearchState α ρ σ η τ) (givenUp : List α),
      (SearchStep.install node).perform ⟨worker, shared⟩ = (.ok (), installed) ∧
      Passages (.empty, installed) (⟨givenUp, suspended⟩, ⟨worker', shared'⟩) ∧
      BoundedBelow node.lowerBound
        (⟨givenUp, suspended⟩, (⟨worker', shared'⟩ : SearchState α ρ σ η τ)) ∧
      Accounted worker (⟨givenUp, suspended⟩, (⟨worker', shared'⟩ : SearchState α ρ σ η τ)) := by
  obtain ⟨installed, explored, hinstall, hsolve, rfl, rfl⟩ := explore_yields h
  obtain ⟨givenUp, hsolved⟩ := SearchStep.solveDepthFirst_passages hsolve
  have hpassages : Passages (.empty, installed) (⟨givenUp, suspended⟩,
      ⟨explored.search, Others.turn explored.shared⟩) := hsolved.tail .yielded
  obtain ⟨⟨n, hnodes, hbound⟩, hgivenUp, hnumber⟩ := SearchStep.install_accounted hinstall
  refine ⟨installed, givenUp, hinstall, hpassages, hpassages.boundedBelow ?_,
    hpassages.accounted ⟨hgivenUp, hnumber⟩⟩
  refine ⟨fun n' hn' => ?_, fun _ hb => (by cases hb), fun _ hn => (by cases hn)⟩
  rw [hnodes, List.mem_singleton] at hn'
  rw [hn', hbound]
  exact Scalar.Ordered.le_refl _ hnode

/-- What comes back from the workers is not below what they got. -/
theorem exploreAll_above {shared shared' : Shared α σ η τ}
    {assigned : List (Search α ρ × Option (OpenNode α))}
    {explored : List (Search α ρ × List (OpenNode α))}
    (hassigned : ∀ a ∈ assigned, bound ≤ a.1.givenUpBound ∧ ∀ node ∈ a.2, bound ≤ node.lowerBound)
    (h : exploreAll shared assigned = .ok (explored, shared')) :
    ∀ e ∈ explored, bound ≤ e.1.givenUpBound ∧ ∀ n ∈ e.2, bound ≤ n.lowerBound := by
  induction assigned generalizing shared explored with
  | nil =>
      cases h
      exact fun _ he => by cases he
  | cons a rest ih =>
      simp only [exploreAll, bind_eq_ok, pure_eq_ok, Prod.mk.injEq] at h
      obtain ⟨⟨worker', suspended, shared₁⟩, hexplore, ⟨others, shared₂⟩, hrest, rfl, rfl⟩ := h
      intro e he
      rcases List.mem_cons.mp he with rfl | he
      · obtain ⟨hworker, hnode⟩ := hassigned a (List.mem_cons_self ..)
        cases hassignedNode : a.2 with
        | none =>
            rw [hassignedNode] at hexplore
            cases hexplore
            exact ⟨hworker, fun _ hn => by cases hn⟩
        | some node =>
            rw [hassignedNode] at hexplore hnode
            have hle : bound ≤ node.lowerBound := hnode node rfl
            obtain ⟨installed, givenUp, -, -, hbounded, haccounted⟩ :=
              explore_passages (Scalar.number_right hle) hexplore
            refine ⟨?_, fun n hn =>
              Scalar.Ordered.le_trans _ _ _ hle (hbounded.suspended n hn)⟩
            rw [haccounted.bound]
            exact Scalar.le_foldl_min hworker fun b hb =>
              Scalar.Ordered.le_trans _ _ _ hle (hbounded.givenUp b hb)
      · exact ih (fun a ha => hassigned a (List.mem_cons_of_mem _ ha)) hrest e he

theorem Above.runRound (h : t.Above bound) (hrun : t.runRound = .ok t') : t'.Above bound := by
  simp only [TreeState.runRound, bind_eq_ok] at hrun
  obtain ⟨⟨explored, shared⟩, hexplore, hcollect⟩ := hrun
  obtain ⟨hqueue, hassigned⟩ := takeNodes_above h.queue t.workers
  have hbounds : ∀ a ∈ (takeNodes t.queue t.workers).1,
      bound ≤ a.1.givenUpBound ∧ ∀ node ∈ a.2, bound ≤ node.lowerBound := fun a ha =>
    have hworker := h.workers a.1 (hassigned a ha).1
    ⟨Scalar.Ordered.le_trans _ _ _ h.givenUp hworker, (hassigned a ha).2⟩
  have hexplored := exploreAll_above hbounds hexplore
  refine foldlM_keeps (P := TreeState.Above bound) (fun u e u' he hu hstep => ?_) hcollect
    ⟨hqueue, h.givenUp, fun _ hw => by cases hw⟩
  exact hu.collectWorker (hexplored e he).1 (hexplored e he).2 hstep

/-- A round keeps what is not below a number. -/
theorem Above.round (h : t.Above bound) (hround : t.Round t') : t'.Above bound := by
  obtain ⟨s, u, shared, hcontinues, hrun, -, -, hnote⟩ := round_iff.mp hround
  have hs : s.Above bound := by
    have hs := h.continues
    rwa [hcontinues] at hs
  have hu : TreeState.Above bound { u with shared := shared } :=
    (hs.runRound hrun).congr rfl rfl rfl
  exact hu.noteProgress hnote

end TreeState

namespace Solver

variable [Scalar.Ordered α] [Relaxation ρ α]

/-- At first the queue has only the root. -/
theorem treeBelow_above {s : Solver α ρ σ η} {root : RootState α ρ σ η τ}
    {solution : Option (RelaxationSolution α)} {tree : TreeState α ρ σ η τ} {relaxation : ρ}
    (hsolution : ∀ r ∈ solution, Scalar.isNaN r.objective = false)
    (h : s.treeBelow root solution = .ok (tree, relaxation)) :
    tree.Above (solution.elim (-Scalar.infinity) RelaxationSolution.objective) := by
  have hbound : Scalar.isNaN
      (solution.elim (-Scalar.infinity) RelaxationSolution.objective : α) = false := by
    cases solution with
    | none => exact Scalar.Ordered.number_neg_infinity
    | some r => exact hsolution r rfl
  simp only [treeBelow, bind_eq_ok, pure_eq_ok, Prod.mk.injEq] at h
  obtain ⟨_, -, pushed, hpush, rfl, -⟩ := h
  refine ⟨NodeQueue.Above.push ⟨List.Pairwise.nil, fun _ hx => by cases hx⟩
    (Scalar.Ordered.le_refl _ hbound) hpush, Scalar.Ordered.le_infinity _ hbound, fun w hw => ?_⟩
  obtain ⟨copy, seed, rfl⟩ := mem_makeWorkers hw
  exact Scalar.Ordered.le_infinity _
    (Scalar.number_right (Scalar.Ordered.le_infinity _ hbound))

end Solver

/-- The others do at each of their turns what a schedule says. -/
abbrev Others.scheduled {α σ η τ : Type} (schedule : Nat → Shared α σ η τ → Shared α σ η τ) :
    Others α σ η τ :=
  ⟨fun s => { schedule s.turns s with turns := s.turns + 1 }⟩

/-- From the head of one round to the head of the next the bound of the tree does not decrease,
neither by the nodes that are removed before the round nor in the round itself. Every node that is
suspended or given up in a round has at least the lower bound of the node that was installed; what
was given up is what the worker counts and takes the smallest bound of. The workers may be any
number, and the others do at their turns whatever they like to what is shared. -/
theorem open_bound_never_decreases [Scalar.Ordered α] [Others α σ η τ] [Relaxation ρ α]
    [Separator σ α] [Proposer η α] [StopCondition τ] {s : Solver α ρ σ η} {condition : τ}
    {solution : Option (RelaxationSolution α)} {start t : TreeState α ρ σ η τ}
    (hstart : s.Explores condition solution start)
    (hsolution : ∀ r ∈ solution, Scalar.isNaN r.objective = false)
    (hrounds : Relation.ReflTransGen TreeState.Round start t) :
    t.openBound ≤ t.continues.2.openBound ∧
    (∀ t', t.Round t' → t.continues.2.openBound ≤ t'.openBound) ∧
    ∀ worker node, (worker, some node) ∈
        (TreeState.takeNodes t.continues.2.queue t.continues.2.workers).1 →
      ∀ shared worker' suspended shared',
        TreeState.explore shared worker (some node) = .ok (worker', suspended, shared') →
        ∃ (installed : SearchState α ρ σ η τ) (givenUp : List α),
          (SearchStep.install node).perform ⟨worker, shared⟩ = (.ok (), installed) ∧
          Passages (.empty, installed) (⟨givenUp, suspended⟩, ⟨worker', shared'⟩) ∧
          (∀ n ∈ suspended, node.lowerBound ≤ n.lowerBound) ∧
          (∀ b ∈ givenUp, node.lowerBound ≤ b) ∧
          worker'.givenUpBound = givenUp.foldl Scalar.min worker.givenUpBound ∧
          worker'.statistics.givenUp = worker.statistics.givenUp + givenUp.length := by
  obtain ⟨root, relaxation, -, hbelow⟩ := hstart
  have habove : t.Above t.openBound := by
    have hstart := (Solver.treeBelow_above hsolution hbelow)
    have ht : t.Above (solution.elim (-Scalar.infinity) RelaxationSolution.objective) := by
      induction hrounds with
      | refl => exact hstart
      | tail _ hround ih => exact ih.round hround
    exact ht.openBound
  have hhead := habove.continues
  refine ⟨hhead.le_openBound, fun t' hround => ?_, fun worker node hassigned shared worker'
    suspended shared' hexplore => ?_⟩
  · obtain ⟨u, v, shared, hcontinues, hrun, -, -, hnote⟩ := TreeState.round_iff.mp hround
    rw [hcontinues] at hhead ⊢
    have hv : TreeState.Above u.openBound { v with shared := shared } :=
      (hhead.openBound.runRound hrun).congr rfl rfl rfl
    exact (hv.noteProgress hnote).le_openBound
  · have hnode := ((TreeState.takeNodes_above hhead.queue _).2 _ hassigned).2 node rfl
    obtain ⟨installed, givenUp, hinstall, hpassages, hbounded, haccounted⟩ :=
      TreeState.explore_passages (Scalar.number_right hnode) hexplore
    exact ⟨installed, givenUp, hinstall, hpassages, hbounded.suspended, hbounded.givenUp,
      haccounted.bound, haccounted.number⟩

section Exact

open Exact

/-- One of three columns makes too little of an odd sum, and two make too much. -/
def oddSum : Draft Exact :=
  ⟨#[⟨1, 0, 1, .integer⟩, ⟨2, 0, 1, .integer⟩, ⟨3, 0, 1, .integer⟩],
    #[⟨3, 3, [(0, 2), (1, 2), (2, 2)]⟩], 0⟩

/-- The relaxation of three columns that is solved halfway between their bounds. Its second answer
is better than its first one. -/
def risingAnswers : ElementaryRelaxation Exact :=
  let halves : Array Exact := #[number (1 / 2), number (1 / 2), number (1 / 2)]
  { rule := .shifted (number (1 / 2)), columnCount := 3
    script := [.optimal ⟨halves, 0, none, 0⟩, .optimal ⟨halves, 1, none, 0⟩]
    recoverable := 0, proofs := [], sendsProof := false, hasBasis := false, cutGain := 0, cuts := []
    isWarm := false, tally := .zero }

/-- After every node the open nodes go back to the queue. -/
def shortPlunges : Options Exact :=
  { (Options.standard : Options Exact) with
    plungeNodeBudget := 1
    rootProbing := false
    branching := { (Options.standard : Options Exact).branching with pseudocostReliability := 0 } }

/-- Two searches with a node each. -/
def twoPlunges : Options Exact := { shortPlunges with threads := 2 }

/-- At the fifth turn another search evaluates a node. -/
abbrev nodeElsewhere : Others Exact (CutList Exact) (ProposalList Exact) Condition :=
  .scheduled fun turn s =>
    if turn == 4 then { s with condition := s.condition.nodeProcessed } else s

set_option maxRecDepth 100000 in
/-- In a round over a row without integral solutions the bound rises from zero to one. The node that
another search evaluates in the meantime uses the budget of two nodes up. -/
theorem odd_sum_bound_rises :
    letI := nodeElsewhere
    ∃ (s : Solver Exact (ElementaryRelaxation Exact) (CutList Exact) (ProposalList Exact))
      (solution : RelaxationSolution Exact)
      (start t : TreeState Exact (ElementaryRelaxation Exact) (CutList Exact)
        (ProposalList Exact) Condition),
      s.Explores (Condition.nodeBudget 2) (some solution) start ∧
      Scalar.isNaN solution.objective = false ∧ start.workers.length = 2 ∧ start.Round t ∧
      t.statistics.nodes = 1 ∧ t.continues.1 = false ∧
      start.openBound = 0 ∧ t.openBound = 1 ∧
      start.openBound ≤ start.continues.2.openBound ∧
      start.continues.2.openBound ≤ t.openBound := by
  let := nodeElsewhere
  have hrun : passes oddSum.build (fun model =>
      passes (Solver.ofModel (ρ := ElementaryRelaxation Exact) model risingAnswers twoPlunges)
        fun (s : Solver Exact (ElementaryRelaxation Exact) (CutList Exact) (ProposalList Exact)) =>
          passes s.initialDomain fun d =>
            passes (RootStep.propagate.run (s.rootOver (Condition.nodeBudget 2) d))
              fun propagated =>
              propagated.1 &&
              passes (RootStep.process.run propagated.2) fun processed =>
                processed.1.solution?.any fun solution =>
                  !Scalar.isNaN solution.objective &&
                  (if s.options.symmetry then s.detectSymmetry else none).isNone &&
                  passes (s.treeBelow processed.2 (some solution)) fun tree =>
                    decide (tree.1.workers.length = 2) && decide (tree.1.openBound = 0) &&
                    passes tree.1.next? fun t => t.any fun t =>
                      decide (t.statistics.nodes = 1) && !t.continues.1 &&
                      decide (t.openBound = 1)) = true := by
    delta TreeState.next?
    rw [(RootStep.propagateUnrolled 100).property, (RootStep.processUnrolled 100).property,
      (TreeState.runRoundUnrolled 100).property]
    decide +kernel
  obtain ⟨model, -, hrun⟩ := passes_eq_true.mp hrun
  obtain ⟨s, -, hrun⟩ := passes_eq_true.mp hrun
  obtain ⟨d, hd, hrun⟩ := passes_eq_true.mp hrun
  obtain ⟨⟨isFeasible, root⟩, hpropagate, hrun⟩ := passes_eq_true.mp hrun
  rw [Bool.and_eq_true] at hrun
  obtain ⟨rfl, hrun⟩ := hrun
  obtain ⟨⟨result, processed⟩, hprocess, hrun⟩ := passes_eq_true.mp hrun
  obtain ⟨solution, hsolution, hrun⟩ := (Option.any_eq_true ..).mp hrun
  obtain rfl := RootResult.eq_processed hsolution
  simp only [Bool.and_eq_true, Bool.not_eq_true', Option.isNone_iff_eq_none] at hrun
  obtain ⟨⟨hnumber, hsymmetry⟩, hrun⟩ := hrun
  obtain ⟨⟨start, relaxation⟩, hbelow, hrun⟩ := passes_eq_true.mp hrun
  simp only [Bool.and_eq_true, decide_eq_true_eq] at hrun
  obtain ⟨⟨hworkers, hzero⟩, hrun⟩ := hrun
  obtain ⟨next, hround, hrun⟩ := passes_eq_true.mp hrun
  obtain ⟨t, rfl, ht⟩ := (Option.any_eq_true ..).mp hrun
  simp only [Bool.and_eq_true, Bool.not_eq_true', decide_eq_true_eq] at ht
  obtain ⟨⟨hnodes, hstops⟩, hone⟩ := ht
  have hexplores : s.Explores (Condition.nodeBudget 2) (some solution) start :=
    ⟨processed, relaxation, .processed hd hpropagate hprocess hsymmetry, hbelow⟩
  obtain ⟨hhead, hrises, -⟩ := open_bound_never_decreases hexplores
    (fun r hr => Option.some.inj hr ▸ hnumber) .refl
  exact ⟨s, solution, start, t, hexplores, hnumber, hworkers, hround, hnodes, hstops, hzero, hone,
    hhead, hrises t hround⟩

end Exact

end BranchBound
