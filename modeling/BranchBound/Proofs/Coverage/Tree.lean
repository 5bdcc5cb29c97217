import BranchBound.Proofs.Coverage.Walk
import BranchBound.Proofs.Node.BestBound
import BranchBound.Proofs.Solver.Rounds

/-!
# Trees that keep a point

A single worker takes the nodes out of the queue and puts back what it suspends. So the point is in
an open node with a lower bound not above its value, or it is in a node that was given up, until
nothing as good as the point is of interest any more. Removing the nodes with lower bounds above the
cutoff does not remove the node that the point is in.
-/

namespace BranchBound

open Checked Exact BranchBound.Action

variable {ρ σ η τ : Type} {g : Target ρ}

namespace NodeQueue

/-- A node below the cutoff is kept, and so are all nodes before it. -/
theorem Ordered.mem_takeWhile_isWithin {α : Type} [Scalar α] [Scalar.LinearlyOrdered α]
    {nodes : List (NodeId × OpenNode α)} (h : Ordered nodes) {x : NodeId × OpenNode α}
    (hx : x ∈ nodes)
    {cutoff : α} (hlt : x.2.lowerBound < cutoff) : x ∈ nodes.takeWhile (isWithin cutoff) := by
  induction nodes with
  | nil => cases hx
  | cons y rest ih =>
      obtain ⟨hfirst, hrest⟩ := List.pairwise_cons.mp h
      have hy : y.2.lowerBound < cutoff := by
        rcases List.mem_cons.mp hx with rfl | hx
        · exact hlt
        · exact Scalar.lt_of_le_of_lt (hfirst x hx (Scalar.number_of_lt hlt).1) hlt
      have hwithin : isWithin cutoff y = true := by
        simp [isWithin, compareKeys, Scalar.sortOrder, hy]
      rw [List.takeWhile_cons_of_pos hwithin]
      rcases List.mem_cons.mp hx with rfl | hx
      · exact List.mem_cons_self ..
      · exact List.mem_cons_of_mem _ (ih hrest hx)

end NodeQueue

/-- What is of no interest any more is not better than some solution. -/
theorem Sated.solution_ne_none {s : SearchState Exact ρ σ η τ} (h : Sated g s) :
    s.shared.incumbent.solution ≠ none := by
  intro hnone
  have hexcludes := h.excludes
  rw [Incumbent.Excludes, Incumbent.Fits.cutoff_plus (h.fits.empty hnone)] at hexcludes
  cases hexcludes

namespace TreeState

/-- The worker of a tree cares for the point, which is in a node that was given up or in one of the
queue. -/
structure Minds (g : Target ρ) (worker : Search Exact ρ) (t : TreeState Exact ρ σ η τ) : Prop where
  cares : Cares g ⟨worker, t.shared⟩
  ordered : NodeQueue.Ordered t.queue.nodes
  whole : ∀ n ∈ t.queue.nodes, n.2.IsWhole
  hopeful : t.improvementExcluded = false
  place : t.givenUpBound ≤ number g.value ∨ ∃ n ∈ t.queue.nodes, n.2.Covers g

/-- A tree with one worker: nothing as good as the point is of interest any more, or the point is
minded. -/
def Keeps (g : Target ρ) (t : TreeState Exact ρ σ η τ) : Prop :=
  ∃ worker, t.workers = [worker] ∧ (Sated g ⟨worker, t.shared⟩ ∨ t.Minds g worker)

variable {t t' : TreeState Exact ρ σ η τ} {worker : Search Exact ρ}

/-- What is counted, observed and noted does not matter to the point. -/
theorem Keeps.congr (h : t.Keeps g) (hakin : ∀ worker : Search Exact ρ,
      (⟨worker, t.shared⟩ : SearchState Exact ρ σ η τ).Akin ⟨worker, t'.shared⟩)
    (hqueue : t'.queue = t.queue) (hworkers : t'.workers = t.workers)
    (hgivenUp : t'.givenUpBound = t.givenUpBound)
    (hexcluded : t'.improvementExcluded = t.improvementExcluded) : t'.Keeps g := by
  obtain ⟨worker, hworker, h⟩ := h
  refine ⟨worker, hworkers.trans hworker,
    h.imp (fun h => sated_indifferent.alike h (hakin worker).alike)
    fun h => ⟨SearchStep.cares_aloof.akin h.cares (hakin worker), ?_, ?_,
      hexcluded.trans h.hopeful, ?_⟩⟩
  · rw [hqueue]
    exact h.ordered
  · rw [hqueue]
    exact h.whole
  · rw [hqueue, hgivenUp]
    exact h.place

theorem Keeps.noteProgress (h : t.Keeps g) (hnote : t.noteProgress = .ok t') : t'.Keeps g := by
  simp only [TreeState.noteProgress] at hnote
  split at hnote
  · simp only [bind_eq_ok, pure_eq_ok] at hnote
    obtain ⟨_, -, rfl⟩ := hnote
    exact h.congr (fun worker => ⟨⟨.refl _, rfl, rfl, rfl⟩, rfl, rfl, rfl, rfl, rfl, rfl⟩) rfl rfl
      rfl rfl
  · cases hnote
    exact h

/-- Whether the search goes on or not, the point is kept. -/
theorem Keeps.continues [StopCondition τ] (h : t.Keeps g) : t.continues.2.Keeps g := by
  have hasked : TreeState.Keeps g { t with
      shared := { t.shared with condition := t.shared.condition.shouldStop.2 } } :=
    h.congr (fun worker => ⟨⟨.refl _, rfl, rfl, rfl⟩, rfl, rfl, rfl, rfl, rfl, rfl⟩) rfl rfl rfl rfl
  have hpruned : TreeState.Keeps g { t with
      shared := { t.shared with condition := t.shared.condition.shouldStop.2 }
      queue := (t.queue.prune t.shared.cutoff).2 } := by
    obtain ⟨worker, hworker, hasked⟩ := hasked
    refine ⟨worker, hworker, hasked.imp_right fun h => ⟨h.cares, ?_, ?_, h.hopeful, ?_⟩⟩
    · exact h.ordered.sublist (List.takeWhile_sublist _)
    · exact fun n hn => h.whole n ((List.takeWhile_sublist _).subset hn)
    · refine h.place.imp_right fun ⟨n, hn, hcovers⟩ => ⟨n, ?_, hcovers⟩
      exact NodeQueue.Ordered.mem_takeWhile_isWithin h.ordered hn
        (Exact.lt_of_le_of_lt hcovers.bound h.cares.lt_cutoff)
  unfold TreeState.continues
  dsimp only
  split
  · exact hasked.congr (fun worker => ⟨⟨.refl _, rfl, rfl, rfl⟩, rfl, rfl, rfl, rfl, rfl, rfl⟩) rfl
      rfl
      rfl rfl
  · split
    · exact hpruned
    · split
      · exact hpruned
      · split
        · exact hpruned.congr (fun worker =>
            ⟨⟨.refl _, rfl, rfl, rfl⟩, rfl, rfl, rfl, rfl, rfl, rfl⟩)
            rfl rfl rfl rfl
        · exact hpruned

section Rounds

variable [Relaxation ρ Exact] [Separator σ Exact] [Proposer η Exact] [StopCondition τ]
  (hg : g.Valid)

include hg

/-- What a worker brings back from a node has the point if the node had it. -/
theorem explore_guards {elsewhere : Prop} {shared shared' : Shared Exact σ η τ}
    {worker' : Search Exact ρ} {node : Option (OpenNode Exact)} {suspended : List (OpenNode Exact)}
    (hworker : Cares g ⟨worker, shared⟩) (hwhole : ∀ n ∈ node, n.IsWhole)
    (hplace : elsewhere ∨ ∃ n ∈ node, n.Covers g)
    (h : explore shared worker node = .ok (worker', suspended, shared')) :
    Sated g ⟨worker', shared'⟩ ∨ Cares g ⟨worker', shared'⟩ ∧ (∀ n ∈ suspended, n.IsWhole) ∧
      (elsewhere ∨ worker'.givenUpBound ≤ number g.value ∨ ∃ n ∈ suspended, n.Covers g) := by
  cases node with
  | none =>
      cases h
      refine .inr ⟨hworker, nofun, .inl (hplace.resolve_right ?_)⟩
      rintro ⟨n, hn, -⟩
      cases hn
  | some node =>
      obtain ⟨installed, hinstall, hsolve⟩ := explore_eq_ok h
      have hplace : elsewhere ∨ worker.givenUpBound ≤ number g.value ∨ node.Covers g :=
        hplace.imp_right fun ⟨n, hn, hcovers⟩ => .inr (Option.some.inj hn ▸ hcovers)
      have hguards :=
        SearchStep.install_guards hg (hwhole node rfl) _ _ _ ⟨hworker, hplace⟩ hinstall
      have hsettles := SearchStep.install_settles hworker.regards.leveled hinstall
      obtain ⟨hafter, hnil⟩ := SearchStep.solveDepthFirst_guards hg hsolve hsettles (.inr hguards)
      refine hafter.imp_right fun hafter => ⟨hafter.cares, hafter.whole, ?_⟩
      refine hafter.place.imp_right (Or.imp_right fun hplace => hplace.resolve_right
        fun hshelters => ?_)
      rw [hnil] at hshelters
      exact hshelters

theorem explore_sated {shared shared' : Shared Exact σ η τ}
    {worker' : Search Exact ρ} {node : Option (OpenNode Exact)} {suspended : List (OpenNode Exact)}
    (hworker : Sated g ⟨worker, shared⟩)
    (h : explore shared worker node = .ok (worker', suspended, shared')) :
    Sated g ⟨worker', shared'⟩ := by
  cases node with
  | none =>
      cases h
      exact hworker
  | some node =>
      obtain ⟨installed, hinstall, hsolve⟩ := explore_eq_ok h
      obtain ⟨_, hpassages⟩ := SearchStep.solveDepthFirst_passages hsolve
      exact hpassages.sated hg (SearchStep.install_sated node _ _ _ hworker hinstall)

/-- A round keeps the point. -/
theorem Keeps.runRound (h : t.Keeps g) (hrun : t.runRound = .ok t') : t'.Keeps g := by
  obtain ⟨worker, hworker, h⟩ := h
  simp only [TreeState.runRound, hworker, takeNodes, exploreAll, bind_eq_ok,
    pure_eq_ok] at hrun
  obtain ⟨⟨explored, shared⟩, ⟨⟨worker', suspended, after⟩, hexplore, _, ⟨rfl, rfl⟩, rfl, rfl⟩,
    hcollect⟩ := hrun
  simp only [List.foldlM_cons, List.foldlM_nil, TreeState.collectWorker, bind_eq_ok, pure_eq_ok,
    List.nil_append] at hcollect
  obtain ⟨_, ⟨queue, hpush, _, -, _, -, rfl⟩, rfl⟩ := hcollect
  refine ⟨worker'.resetStatistics, rfl, ?_⟩
  have hreset (h : Sated g (⟨worker', after⟩ : SearchState Exact ρ σ η τ)) :
      Sated g (⟨worker'.resetStatistics, after⟩ : SearchState Exact ρ σ η τ) :=
    ⟨h.model, h.fits, h.excludes⟩
  rcases h with hsated | h
  · exact .inl (hreset (explore_sated hg hsated hexplore))
  -- the node that is taken is one of the queue
  have htaken : ∀ n ∈ t.queue.nodes, t.queue.pop.1 = some n.2 ∨ n ∈ t.queue.pop.2.nodes := by
    intro n hn
    unfold NodeQueue.pop
    split
    · next hnodes =>
        rw [hnodes] at hn
        cases hn
    · next hnodes =>
        rw [hnodes] at hn
        rcases List.mem_cons.mp hn with rfl | hn
        · exact .inl rfl
        · exact .inr hn
  have hwhole : ∀ n ∈ t.queue.pop.1, n.IsWhole := by
    intro n hn
    obtain ⟨x, hx, rfl⟩ := NodeQueue.mem_of_pop hn
    exact h.whole x hx
  have hplace : (t.givenUpBound ≤ number g.value ∨ ∃ n ∈ t.queue.pop.2.nodes, n.2.Covers g) ∨
      ∃ n ∈ t.queue.pop.1, n.Covers g := by
    rcases h.place with hgivenUp | ⟨n, hn, hcovers⟩
    · exact .inl (.inl hgivenUp)
    · rcases htaken n hn with hpop | hleft
      · exact .inr ⟨n.2, hpop, hcovers⟩
      · exact .inl (.inr ⟨n, hleft, hcovers⟩)
  refine (explore_guards hg h.cares hwhole hplace hexplore).imp hreset ?_
  rintro ⟨hcares, hsuspended, hplace⟩
  have hqueue : suspended.foldlM (fun queue node => return (← queue.push node).2) t.queue.pop.2 =
      .ok queue := by simpa only [bind_eq_ok, pure_eq_ok] using hpush
  have hnodes : ∀ n, n ∈ queue.nodes.map Prod.snd ↔
      n ∈ t.queue.pop.2.nodes.map Prod.snd ∨ n ∈ suspended := fun n =>
    (NodeQueue.pushAll_perm hqueue).mem_iff.trans List.mem_append
  have hcovered {n : OpenNode Exact} (hn : n ∈ queue.nodes.map Prod.snd) (hcovers : n.Covers g) :
      ∃ n ∈ queue.nodes, n.2.Covers g := by
    obtain ⟨x, hx, rfl⟩ := List.mem_map.mp hn
    exact ⟨x, hx, hcovers⟩
  refine ⟨hcares.congr rfl rfl rfl, ?_, fun n hn => ?_, ?_, ?_⟩
  · exact NodeQueue.Ordered.pushAll (h.ordered.sublist (NodeQueue.pop_sublist _)) hqueue
  · rcases (hnodes n.2).mp (List.mem_map_of_mem hn) with hold | hnew
    · obtain ⟨x, hx, hsame⟩ := List.mem_map.mp hold
      exact hsame ▸ h.whole x ((NodeQueue.pop_sublist _).subset hx)
    · exact hsuspended _ hnew
  · have hhopeful : worker'.improvementExcluded = false := hcares.hopeful
    simp [h.hopeful, hhopeful]
  · rcases hplace with (hgivenUp | ⟨n, hn, hcovers⟩) | hgivenUp | ⟨n, hn, hcovers⟩
    · exact .inl (Exact.min_le_of_left hgivenUp)
    · exact .inr (hcovered ((hnodes n.2).mpr (.inl (List.mem_map_of_mem hn))) hcovers)
    · exact .inl (Exact.min_le_of_right hgivenUp)
    · exact .inr (hcovered ((hnodes n).mpr (.inr hn)) hcovers)

/-- From the head of one round to the head of the next the point is kept. -/
theorem Keeps.round (h : t.Keeps g) (hround : t.Round t') : t'.Keeps g := by
  obtain ⟨s, u, shared, hcontinues, hrun, -, hage, hnote⟩ := round_iff.mp hround
  have hs : s.Keeps g := by
    have hs := h.continues
    rwa [hcontinues] at hs
  refine Keeps.noteProgress ?_ hnote
  obtain ⟨worker, hworker, hu⟩ := hs.runRound hg hrun
  simp only [Shared.ageConflicts, bind_eq_ok, pure_eq_ok] at hage
  obtain ⟨⟨expired, pools⟩, haged, rfl⟩ := hage
  have hinforms : (Operation.ageConflicts u.shared.conflictPool : Operation Exact).Informs
      (SearchState.propagation ⟨worker, u.shared⟩) := trivial
  have hperform : (Operation.ageConflicts u.shared.conflictPool).perform
      (SearchState.propagation ⟨worker, u.shared⟩) = .ok ⟨pools, worker.domain⟩ := by
    simp only [Pools.onConflicts, bind_eq_ok, pure_eq_ok, Prod.mk.injEq] at haged
    obtain ⟨pool, hpool, conflicts, hstore, -, rfl⟩ := haged
    simp only [Operation.perform, PropagationState.onConflictPool, Pools.onConflicts, bind_eq_ok,
      pure_eq_ok]
    exact ⟨_, ⟨pool, hpool, conflicts, hstore, rfl⟩, rfl⟩
  have haged : TreeState.Keeps g { u with shared := { u.shared with pools := pools } } := by
    refine ⟨worker, hworker, hu.imp (fun h => ⟨h.model, h.fits, h.excludes⟩) fun h => ?_⟩
    exact ⟨h.cares.onto hinforms trivial (by simp) hperform, h.ordered, h.whole, h.hopeful, h.place⟩
  refine haged.congr (fun worker => ?_) rfl rfl rfl rfl
  dsimp only
  split
  · exact ⟨⟨.refl _, rfl, rfl, rfl⟩, rfl, rfl, rfl, rfl, rfl, rfl⟩
  · exact ⟨⟨.refl _, rfl, rfl, rfl⟩, rfl, rfl, rfl, rfl, rfl, rfl⟩

theorem Keeps.rounds (h : t.Keeps g) (hrounds : Relation.ReflTransGen Round t t') : t'.Keeps g := by
  induction hrounds with
  | refl => exact h
  | tail _ hround ih => exact ih.round hg hround

/-- If a round shows that nothing can be improved, then the point is of no interest any more, so
there is a solution. -/
theorem Keeps.ends (h : t.Keeps g) (hends : t.Ends t') :
    t'.Keeps g ∧ (t'.shared.incumbent.solution = none → t.continues = (false, t')) := by
  rcases hends with hcontinues | ⟨s, u, hcontinues, hround, hexcluded, rfl⟩
  · have ht := h.continues
    rw [hcontinues] at ht
    exact ⟨ht, fun _ => hcontinues⟩
  · have hs := h.continues
    rw [hcontinues] at hs
    obtain ⟨worker, hworker, hu⟩ := hs.runRound hg hround
    rcases hu with hsated | hminds
    · exact ⟨⟨worker, hworker, .inl ⟨hsated.model, hsated.fits, hsated.excludes⟩⟩,
        fun hnone => absurd hnone hsated.solution_ne_none⟩
    · rw [hminds.hopeful] at hexcluded
      cases hexcluded

end Rounds

/-! ### The end of a run -/

section Stops

variable [StopCondition τ]

variable [Relaxation ρ Exact] [Separator σ Exact] [Proposer η Exact]

variable (hg : g.Valid)

include hg

/-- The end of a run keeps the point. Without a solution the run was stopped or all nodes are
explored. -/
theorem Keeps.run (h : t.Keeps g) (hrunning : t.stopped = none) (hrun : t.run = .ok t') :
    t'.Keeps g ∧ (t'.shared.incumbent.solution = none → t'.Stops) := by
  obtain ⟨last, hrounds, hends⟩ := runWithin_rounds hrun
  have hlast := h.rounds hg hrounds
  obtain ⟨hkeeps, hstops⟩ := hlast.ends hg hends
  exact ⟨hkeeps, fun hnone => continues_stops ((rounds_stopped hrounds).trans hrunning)
    (hstops hnone)⟩

end Stops

/-- The point is not better than the bound of a tree that keeps it, if it is still of interest. -/
theorem Minds.dualBound_le (h : t.Minds g worker) : t.dualBound ≤ number g.value := by
  refine Exact.min_le_of_left ?_
  rcases h.place with hgivenUp | ⟨n, hn, hcovers⟩
  · exact Exact.min_le_of_right hgivenUp
  · have hnumber : Scalar.isNaN n.2.lowerBound = false := Scalar.number_left hcovers.bound
    exact Exact.min_le_of_left (Exact.le_trans (h.ordered.minLowerBound_le hn hnumber)
      hcovers.bound)

end TreeState

/-- The incumbent that a solve of a model ended with. -/
def SolveResult.incumbent (result : SolveResult Exact) (m : Model Exact) (options : Options Exact) :
    Incumbent Exact :=
  ⟨result.solution, result.objective, m.integralObjective, options.feastol⟩

namespace Solver

variable {s : Solver Exact ρ σ η} {t : TreeState Exact ρ σ η τ}

/-- A bound on the objective values of the feasible points: what a solve proved, and what it takes
to be of interest. -/
def boundOf (s : Solver Exact ρ σ η) (result : SolveResult Exact) : Exact :=
  Scalar.min result.dualBound (result.incumbent s.model s.options).cutoff

/-- So the point is not better than what the result of the solve tells. -/
theorem finishTree_bounds (hmodel : s.model = g.model)
    (hfeastol : s.options.feastol = number g.feastol)
    (h : t.Keeps g) (relaxation : ρ) :
    s.boundOf (s.finishTree relaxation t).result ≤ number g.value := by
  obtain ⟨worker, -, hsated | hminds⟩ := h
  · refine Exact.min_le_of_right ?_
    have hincumbent : (s.finishTree relaxation t).result.incumbent s.model s.options =
        t.shared.incumbent := by
      rw [SolveResult.incumbent, hmodel, hfeastol, ← hsated.fits.feastol,
        ← hsated.fits.integralObjective, finishTree]
      dsimp only
      split <;> split <;> rfl
    rw [hincumbent]
    exact hsated.excludes
  · refine Exact.min_le_of_left ?_
    have hbound : (s.finishTree relaxation t).result.dualBound = t.dualBound := by
      simp only [finishTree, hminds.hopeful, Bool.false_eq_true, if_false]
      split <;> rfl
    rw [hbound]
    exact hminds.dualBound_le

theorem finishTree_solution (relaxation : ρ) :
    (s.finishTree relaxation t).result.solution = t.shared.incumbent.solution := by
  unfold finishTree
  dsimp only
  split <;> split <;> rfl

/-- A tree that keeps the point does not end as infeasible without a solution, unless the condition
that stopped it says so. -/
theorem finishTree_status_ne [StopCondition τ] (hconditions : ∀ c : τ, StopCondition.status c ≠
    .infeasible)
    (h : t.Keeps g) (hstops : t.Stops) (hnone : t.shared.incumbent.solution = none)
    (relaxation : ρ) :
    (s.finishTree relaxation t).result.status ≠ .infeasible := by
  obtain ⟨worker, -, hsated | hminds⟩ := h
  · exact absurd hnone hsated.solution_ne_none
  have hobjective : t.shared.incumbent.objective = plus := hminds.cares.fits.empty hnone
  have hstatus : (s.finishTree relaxation t).result.status = statusOf t := by
    simp only [finishTree, hminds.hopeful, Bool.false_eq_true, if_false]
    split <;> rfl
  rw [hstatus]
  cases hstops with
  | asked condition hstopped =>
      rw [statusOf, hstopped]
      exact hconditions condition
  | crowded hstopped =>
      rw [statusOf, hstopped]
      exact nofun
  | closed _ hclosed =>
      rw [Gap.isClosed, hobjective] at hclosed
      cases hclosed
  | explored hrunning hempty =>
      have hgivenUp : t.givenUpBound ≤ number g.value := by
        refine hminds.place.resolve_right ?_
        rintro ⟨n, hn, -⟩
        rw [List.isEmpty_iff.mp hempty] at hn
        cases hn
      have hproved : (t.givenUpBound == Scalar.infinity ||
          Gap.isClosed t.shared.options t.shared.incumbent.objective t.givenUpBound) = false := by
        rw [Bool.or_eq_false_iff, hobjective]
        refine ⟨?_, rfl⟩
        cases hbound : t.givenUpBound with
        | plus =>
            rw [hbound] at hgivenUp
            cases hgivenUp
        | number | minus | nan => rfl
      rw [statusOf, hrunning]
      dsimp only
      rw [hproved]
      exact nofun

end Solver

end BranchBound
