import BranchBound.Proofs.Node.Queue
import BranchBound.Proofs.Search.Suspension
import BranchBound.Proofs.Search.Visit
import BranchBound.Proofs.Solver.OpenBound
import BranchBound.Proofs.Solver.Rounds
import Mathlib

/-!
# A budget of nodes

With one worker, a solve with a budget of nodes never evaluates more than the budget. The condition
knows how many nodes were evaluated at the head of every round and of every visit in it: what the
tree has counted so far and what its worker has counted in the round. When the condition asks to
stop for the first time, the budget is used up, and everything that is open then comes back to the
queue. So the dual bound of the solve is not above the lower bound of any of it.
-/

namespace BranchBound

open Checked BranchBound.Action

variable {α ρ σ η τ : Type} {budget processed before : Nat}

/-- The condition is a budget of nodes, of which some are processed. Once it has asked to stop, the
budget is used up. -/
structure SharedCondition.Spent (budget processed : Nat) (c : SharedCondition Condition) :
    Prop where
  condition : c.condition = .nodes budget processed
  within : processed ≤ budget
  stopped : c.stopped = true → processed = budget

namespace SharedCondition.Spent

variable {c : SharedCondition Condition}

theorem ofBudget (budget : Nat) : (ofCondition (Condition.nodeBudget budget)).Spent budget 0 :=
  ⟨rfl, Nat.zero_le _, nofun⟩

/-- The condition asks to stop exactly if the budget is used up. -/
theorem shouldStop (h : c.Spent budget processed) :
    c.shouldStop =
      (decide (processed = budget), ⟨.nodes budget processed, decide (processed = budget)⟩) := by
  obtain ⟨condition, stopped⟩ := c
  obtain ⟨rfl, hwithin, hstopped⟩ := h
  unfold SharedCondition.shouldStop
  split
  · next hstop =>
      obtain rfl : stopped = true := hstop
      simp [hstopped rfl]
  · have hiff : budget ≤ processed ↔ processed = budget := by omega
    simp [StopCondition.shouldStop, Condition.shouldStop, hiff]

theorem asked (h : c.Spent budget processed) : c.shouldStop.2.Spent budget processed := by
  rw [h.shouldStop]
  exact ⟨rfl, h.within, of_decide_eq_true⟩

theorem eq_of_shouldStop (h : c.Spent budget processed) (hask : c.shouldStop.1 = true) :
    processed = budget := by
  rw [h.shouldStop] at hask
  exact of_decide_eq_true hask

/-- The answer is remembered. -/
theorem stopped_shouldStop (h : c.Spent budget processed) :
    c.shouldStop.2.stopped = c.shouldStop.1 := by
  rw [h.shouldStop]

/-- As long as the condition does not ask to stop, another node may be processed. -/
theorem visited (h : c.Spent budget processed) (hask : c.shouldStop.1 = false) :
    c.shouldStop.2.nodeProcessed.Spent budget (processed + 1) ∧
      c.shouldStop.2.nodeProcessed.stopped = false := by
  rw [h.shouldStop] at hask ⊢
  have hopen : processed ≠ budget := of_decide_eq_false hask
  have hwithin := h.within
  exact ⟨⟨rfl, by omega, fun hstopped => absurd (of_decide_eq_true hstopped) hopen⟩, hask⟩

end SharedCondition.Spent

theorem SearchStatistics.merge_nodes {s t u : SearchStatistics} (h : s.merge t = .ok u) :
    u.nodes = s.nodes + t.nodes := by
  simp only [merge, bind_eq_ok, pure_eq_ok] at h
  obtain ⟨nodes, hnodes, h⟩ := h
  have hcount := count_eq_ok hnodes
  grind

variable [Scalar α]

/-- The search may go on, and the condition knows of the nodes that it counts on top of those that
were counted before. -/
structure SearchState.Spends (budget before : Nat) (s : SearchState α ρ σ η Condition) : Prop where
  condition : s.tally.condition.Spent budget (before + s.tally.nodes)
  running : s.tally.condition.stopped = false

/-- What is open in a tree: open nodes that wait, and a stack if a search is under way. -/
structure OpenTree (α ρ σ η τ : Type) where
  waiting : List (OpenNode α)
  search : Option (SearchState α ρ σ η τ)

namespace OpenTree

/-- What is open on the stack of the search. -/
def items (o : OpenTree α ρ σ η τ) : List (OpenItem α) :=
  o.search.elim [] fun s => SearchNode.openItems s.search.nodes

/-- The lower bounds of everything that is open. -/
def lowerBounds (o : OpenTree α ρ σ η τ) : List α :=
  o.waiting.map OpenNode.lowerBound ++ o.items.map OpenItem.lowerBound

/-- Some nodes are what is open, everything on the stack being suspended. -/
def ReturnedAs (o : OpenTree α ρ σ η τ) (nodes : List (OpenNode α)) : Prop :=
  ∃ returned, nodes.Perm (o.waiting ++ returned) ∧
    List.Forall₂ (fun item x => ∃ s ∈ o.search, OpenItem.SuspendedAs s item x) o.items returned

/-- What is open comes back with its lower bounds. -/
theorem ReturnedAs.lowerBounds {o : OpenTree α ρ σ η τ} {nodes : List (OpenNode α)}
    (h : o.ReturnedAs nodes) : ∀ b ∈ o.lowerBounds, ∃ x ∈ nodes, x.lowerBound = b := by
  obtain ⟨returned, hnodes, hreturned⟩ := h
  intro b hb
  rcases List.mem_append.mp hb with hb | hb
  · obtain ⟨x, hx, rfl⟩ := List.mem_map.mp hb
    exact ⟨x, hnodes.mem_iff.mpr (List.mem_append_left _ hx), rfl⟩
  · obtain ⟨item, hitem, rfl⟩ := List.mem_map.mp hb
    obtain ⟨i, hi, rfl⟩ := List.mem_iff_getElem.mp hitem
    have hi' : i < returned.length := hreturned.length_eq ▸ hi
    obtain ⟨_, -, hsuspended⟩ := (List.forall₂_iff_get.mp hreturned).2 i hi hi'
    exact ⟨returned[i], hnodes.mem_iff.mpr (List.mem_append_right _ (List.getElem_mem hi')),
      hsuspended.lowerBound⟩

end OpenTree

variable [Relaxation ρ α] [Separator σ α] [Proposer η α]

namespace SearchStep

variable {s t : SearchState α ρ σ η Condition} {suspended suspended' all : List (OpenNode α)}

theorem Visit.spends (h : Visit (suspended, s) (suspended', t)) (hs : s.Spends budget before) :
    t.Spends budget before := by
  obtain ⟨hask, htally⟩ := h.tally
  obtain ⟨hspent, hrunning⟩ := hs.condition.visited hask
  constructor
  · rw [htally]
    exact hspent
  · rw [htally]
    exact hrunning

/-- A search that leaves a subtree has spent no more than the budget. If the condition has asked to
stop, then it asked at the head of the last visit. -/
theorem Leaves.spends (h : Leaves suspended s all t) (hs : s.Spends budget before) :
    t.shared.condition.Spent budget (before + t.search.statistics.nodes) ∧
      (t.shared.condition.stopped = true → ∃ asked more,
        shouldStop.perform s = (.ok true, asked) ∧ suspendOpenNodes.perform asked = (.ok more, t) ∧
        all = suspended ++ more) := by
  have hspent : t.tally.condition.Spent budget (before + t.tally.nodes) := by
    rcases h.tally with ⟨-, htally⟩ | ⟨hask, htally⟩
    · rw [htally]
      exact hs.condition.asked
    · rw [htally]
      exact (hs.condition.visited hask).1
  have hgoes (hask : s.tally.condition.shouldStop.1 = false) (htally : t.tally = s.tally.visited) :
      t.tally.condition.stopped = false := by
    rw [htally]
    exact (hs.condition.visited hask).2
  refine ⟨hspent, fun hstopped => ?_⟩
  have hask : s.tally.condition.shouldStop.1 = true := by
    rcases h.tally with ⟨hask, -⟩ | ⟨hask, htally⟩
    · exact hask
    · exact absurd ((hgoes hask htally).symm.trans hstopped) Bool.false_ne_true
  have hanswer {stop : Bool} {u : SearchState α ρ σ η Condition}
      (hperform : shouldStop.perform s = (.ok stop, u)) : stop = true :=
    (shouldStop_tallies _ _ _ rfl hperform).1.trans hask
  cases h with
  | asked hperform hsuspend => exact ⟨_, _, hperform, hsuspend, rfl⟩
  | given hperform _ _ _ => cases hanswer hperform
  | through hperform _ _ _ _ => cases hanswer hperform

end SearchStep

namespace TreeState

section Stop

variable [StopCondition τ]

/-- In a round of the only worker, the search below its node is asked to stop. -/
inductive AskedInRound (t : TreeState α ρ σ η τ) : OpenTree α ρ σ η τ → Prop
  | asked {worker : Search α ρ} {node : OpenNode α} {queue : NodeQueue α}
      {installed s asked : SearchState α ρ σ η τ} {suspended : List (OpenNode α)}
      (hworkers : t.workers = [worker]) (hpop : t.queue.pop = (some node, queue))
      (hinstall : (SearchStep.install node).perform ⟨worker, t.shared⟩ = (.ok (), installed))
      (hvisits : Relation.ReflTransGen SearchStep.Visit ([], installed) (suspended, s))
      (hask : SearchStep.shouldStop.perform s = (.ok true, asked)) :
      AskedInRound t ⟨queue.nodes.map Prod.snd ++ suspended, some asked⟩

/-- From the head of a round on, the first answer to stop is at the head itself or in the round. -/
inductive RunsOut (t : TreeState α ρ σ η τ) : OpenTree α ρ σ η τ → Prop
  | between (hrunning : t.shared.condition.stopped = false)
      (hask : t.shared.condition.shouldStop.1 = true) :
      RunsOut t ⟨t.queue.nodes.map Prod.snd, none⟩
  | within {u : TreeState α ρ σ η τ} {opened : OpenTree α ρ σ η τ}
      (hcontinues : t.continues = (true, u)) (hasked : u.AskedInRound opened) : RunsOut t opened

omit [Relaxation ρ α] [Separator σ α] [Proposer η α] in
/-- At the head of a round the condition is asked, and nodes are removed from the queue if it does
not ask to stop. A round begins with a node. -/
theorem continues_cases (t : TreeState α ρ σ η τ) :
    let asked := { t.shared with condition := t.shared.condition.shouldStop.2 }
    if t.shared.condition.shouldStop.1 then
      t.continues = (false, { t with
        shared := asked, stopped := some (SharedCondition.status asked.condition) })
    else
      let pruned := { t with shared := asked, queue := (t.queue.prune t.shared.cutoff).2 }
      t.continues = (true, pruned) ∧ pruned.queue.isEmpty = false ∨
        t.continues = (false, pruned) ∨
        t.continues = (false, { pruned with stopped := some .memoryLimit }.notify
          (.tooManyOpenNodes pruned.queue.size)) := by
  intro asked
  unfold continues
  dsimp only
  split
  · rfl
  · split
    · exact .inr (.inl rfl)
    · next hqueue =>
        split
        · exact .inr (.inl rfl)
        · split
          · exact .inr (.inr rfl)
          · exact .inl ⟨rfl, Bool.eq_false_iff.mpr hqueue⟩

/-- In a round the only worker explores the first node of the queue. -/
theorem runRound_single {t t' : TreeState α ρ σ η τ} {worker : Search α ρ}
    (hworkers : t.workers = [worker]) (h : t.runRound = .ok t') :
    ∃ worker' suspended shared,
      explore t.shared worker t.queue.pop.1 = .ok (worker', suspended, shared) ∧
      { t with queue := t.queue.pop.2, workers := [], shared := shared }.collectWorker worker'
        suspended = .ok t' := by
  simp only [runRound, hworkers, takeNodes, exploreAll, bind_eq_ok, pure_eq_ok] at h
  obtain ⟨_, ⟨⟨worker', suspended, shared⟩, hexplore, ⟨_, _⟩, hnil, rfl⟩, hcollect⟩ := h
  cases hnil
  simp only [List.foldlM_cons, List.foldlM_nil, bind_eq_ok, pure_eq_ok] at hcollect
  obtain ⟨_, hcollect, rfl⟩ := hcollect
  exact ⟨worker', suspended, shared, hexplore, hcollect⟩

end Stop

/-- Exploring a node spends what its worker counts. If the condition has asked to stop then, what
was open below the node when it asked is what is suspended. -/
theorem explore_spends {shared shared' : Shared α σ η Condition} {worker worker' : Search α ρ}
    {node : OpenNode α} {suspended : List (OpenNode α)} (hleveled : worker.domain.Leveled)
    (hworker : worker.statistics.nodes = 0) (hspent : shared.condition.Spent budget processed)
    (hrunning : shared.condition.stopped = false)
    (h : explore shared worker (some node) = .ok (worker', suspended, shared')) :
    worker'.domain.Leveled ∧
      shared'.condition.Spent budget (processed + worker'.statistics.nodes) ∧
      (shared'.condition.stopped = true → ∃ installed s asked before returned,
        (SearchStep.install node).perform ⟨worker, shared⟩ = (.ok (), installed) ∧
        Relation.ReflTransGen SearchStep.Visit ([], installed) (before, s) ∧
        SearchStep.shouldStop.perform s = (.ok true, asked) ∧ suspended = before ++ returned ∧
        List.Forall₂ (OpenItem.SuspendedAs asked) (SearchNode.openItems asked.search.nodes)
          returned) := by
  obtain ⟨installed, hinstall, hexplore⟩ := explore_eq_ok h
  have hstart : installed.Spends budget processed := by
    have htally := SearchStep.install_aside SearchStep.tallies_aside node _ _ _ rfl hinstall
    constructor
    · rw [show installed.tally = _ from htally]
      simpa [SearchState.tally, hworker] using hspent
    · rw [show installed.tally = _ from htally]
      exact hrunning
  have hsettles := SearchStep.install_settles hleveled hinstall
  obtain ⟨before, s, hvisits, hleaves⟩ := SearchStep.solveDepthFirst_visits hexplore
  have hhead : ∀ x : List (OpenNode α) × SearchState α ρ σ η Condition,
      Relation.ReflTransGen SearchStep.Visit ([], installed) x → x.2.Spends budget processed ∧
        SearchStep.Settles installed.search.domain.branchings.toList ([], installed) x.2 := by
    intro x hx
    induction hx with
    | refl => exact ⟨hstart, hsettles⟩
    | tail _ hvisit ih => exact ⟨hvisit.spends ih.1, hvisit.settles ih.2⟩
  obtain ⟨hspends, hsettles⟩ := hhead _ hvisits
  obtain ⟨hspent, hstopped⟩ := hleaves.spends hspends
  refine ⟨(hleaves.settles hsettles).choose_spec.2.1.leveled, hspent, fun hstop => ?_⟩
  obtain ⟨asked, more, hask, hsuspend, rfl⟩ := hstopped hstop
  exact ⟨installed, s, asked, before, more, hinstall, hvisits, hask, rfl,
    SearchStep.suspendOpenNodes_items ⟨_, SearchStep.asked_settles hask hsettles⟩ hsuspend⟩

/-- At the head of a round the condition knows of all nodes that the tree counted, the queue is
ordered, and the only worker has counted nothing yet. -/
structure Spends (budget : Nat) (t : TreeState α ρ σ η Condition) : Prop where
  worker : ∃ worker, t.workers = [worker] ∧ worker.domain.Leveled ∧ worker.statistics.nodes = 0
  condition : t.shared.condition.Spent budget t.statistics.nodes
  queue : NodeQueue.Ordered t.queue.nodes
  running : t.stopped = none

variable {t t' u : TreeState α ρ σ η Condition}

omit [Relaxation ρ α] [Separator σ α] [Proposer η α] in
theorem Spends.congr (h : t.Spends budget) (hworkers : t'.workers = t.workers)
    (hcondition : t'.shared.condition = t.shared.condition)
    (hstatistics : t'.statistics = t.statistics) (hqueue : t'.queue = t.queue)
    (hstopped : t'.stopped = t.stopped) : t'.Spends budget := by
  refine ⟨hworkers ▸ h.worker, ?_, hqueue ▸ h.queue, hstopped ▸ h.running⟩
  rw [hcondition, hstatistics]
  exact h.condition

omit [Relaxation ρ α] [Separator σ α] [Proposer η α] in
/-- Deciding to go on keeps what was spent, and there is a node to go on with. -/
theorem Spends.goes (h : t.Spends budget) (hcontinues : t.continues = (true, u)) :
    u.Spends budget ∧ u.shared.condition.stopped = false ∧ u.queue.isEmpty = false := by
  have hcases := t.continues_cases
  dsimp only at hcases
  split at hcases
  · rw [hcontinues] at hcases
    cases hcases
  · next hask =>
      rcases hcases with ⟨hgoes, hqueue⟩ | hends | hends
      · obtain rfl := (Prod.mk.inj (hcontinues.symm.trans hgoes)).2
        exact ⟨⟨h.worker, h.condition.asked, h.queue.sublist (List.takeWhile_sublist _), h.running⟩,
          h.condition.stopped_shouldStop.trans (Bool.eq_false_iff.mpr hask), hqueue⟩
      · cases hcontinues.symm.trans hends
      · cases hcontinues.symm.trans hends

variable [Scalar.Ordered α]

/-- A round keeps the budget. If the condition has asked to stop in it, then everything that was
open at that moment is in the queue. -/
theorem Spends.runRound (h : t.Spends budget) (hrunning : t.shared.condition.stopped = false)
    (hqueue : t.queue.isEmpty = false) (hrun : t.runRound = .ok t') :
    t'.Spends budget ∧ (t'.shared.condition.stopped = true → ∃ opened,
      t.AskedInRound opened ∧ opened.ReturnedAs (t'.queue.nodes.map Prod.snd)) := by
  obtain ⟨worker, hworkers, hleveled, hzero⟩ := h.worker
  obtain ⟨worker', suspended, shared', hexplore, hcollect⟩ := runRound_single hworkers hrun
  obtain ⟨node, hnode⟩ := NodeQueue.exists_pop hqueue
  rw [hnode] at hexplore
  obtain ⟨hleveled, hspent, hstopped⟩ :=
    explore_spends hleveled hzero h.condition hrunning hexplore
  simp only [collectWorker, bind_eq_ok, pure_eq_ok] at hcollect
  obtain ⟨queue, hpush, search, hmerge, _, -, rfl⟩ := hcollect
  have hpush : suspended.foldlM (fun queue node => return (← queue.push node).2) t.queue.pop.2 =
      .ok queue := by
    simpa only [bind_eq_ok, pure_eq_ok] using hpush
  have hnodes : search.nodes = t.statistics.search.nodes + worker'.statistics.nodes :=
    SearchStatistics.merge_nodes hmerge
  refine ⟨⟨⟨_, rfl, hleveled, rfl⟩, ?_, ?_, h.running⟩, fun hstop => ?_⟩
  · rw [SolverStatistics.nodes, hnodes]
    exact hspent
  · exact NodeQueue.Ordered.pushAll (h.queue.sublist t.queue.pop_sublist) hpush
  · obtain ⟨installed, s, asked, before, returned, hinstall, hvisits, hask, rfl, hitems⟩ :=
      hstopped hstop
    refine ⟨_, .asked hworkers (Prod.ext hnode rfl) hinstall hvisits hask, returned, ?_, ?_⟩
    · rw [List.append_assoc]
      exact NodeQueue.pushAll_perm hpush
    · exact hitems.imp fun _ _ hsuspended => ⟨asked, rfl, hsuspended⟩

/-- From the head of one round to the head of the next. -/
theorem Spends.round (h : t.Spends budget) (hround : t.Round t') :
    t'.Spends budget ∧ (t'.shared.condition.stopped = true → ∃ opened,
      t.RunsOut opened ∧ opened.ReturnedAs (t'.queue.nodes.map Prod.snd)) := by
  obtain ⟨s, u, shared, hcontinues, hrun, -, hage, hnote⟩ := round_iff.mp hround
  obtain ⟨hs, hrunning, hqueue⟩ := h.goes hcontinues
  obtain ⟨hu, hasked⟩ := hs.runRound hrunning hqueue hrun
  have hcondition := Shared.ageConflicts_condition hage
  obtain ⟨hworkers, hshared, hstatistics, hnodes, hstopped⟩ := noteProgress_keeps hnote
  refine ⟨hu.congr hworkers (hshared.trans hcondition) hstatistics hnodes hstopped, fun hstop => ?_⟩
  rw [hshared, hcondition] at hstop
  obtain ⟨opened, hround, hreturned⟩ := hasked hstop
  refine ⟨opened, .within hcontinues hround, ?_⟩
  rw [hnodes]
  exact hreturned

theorem Spends.rounds {start : TreeState α ρ σ η Condition} (hstart : start.Spends budget)
    (hrounds : Relation.ReflTransGen Round start t) : t.Spends budget := by
  induction hrounds with
  | refl => exact hstart
  | tail _ hround ih => exact (ih.round hround).1

/-- When a run ends, no more than the budget is spent. If the condition ended it, the budget is used
up, and everything that was open when it first asked to stop is in the queue. -/
theorem Spends.ends {start : TreeState α ρ σ η Condition}
    (hstart : start.Spends budget) (hrunning : start.shared.condition.stopped = false)
    (hrounds : Relation.ReflTransGen Round start t) (hends : t.Ends u) :
    u.statistics.nodes ≤ budget ∧ NodeQueue.Ordered u.queue.nodes ∧
      (u.stopped = some .nodeLimit → u.statistics.nodes = budget ∧ ∃ v opened,
        Relation.ReflTransGen Round start v ∧ v.RunsOut opened ∧
        opened.ReturnedAs (u.queue.nodes.map Prod.snd)) := by
  have ht := hstart.rounds hrounds
  rcases hends with hcontinues | ⟨s, v, hcontinues, hrun, -, rfl⟩
  · have hcases := t.continues_cases
    dsimp only at hcases
    split at hcases
    · next hask =>
        obtain rfl := (Prod.mk.inj (hcontinues.symm.trans hcases)).2
        refine ⟨ht.condition.within, ht.queue, fun _ => ⟨ht.condition.eq_of_shouldStop hask, ?_⟩⟩
        cases hstopped : t.shared.condition.stopped with
        | false =>
            exact ⟨t, _, hrounds, .between hstopped hask, [], by rw [List.append_nil], .nil⟩
        | true =>
            -- the condition has asked to stop in the round before
            cases hrounds with
            | refl => exact absurd (hrunning.symm.trans hstopped) Bool.false_ne_true
            | @tail before _ hbefore hround =>
                obtain ⟨opened, hout, hreturned⟩ :=
                  ((hstart.rounds hbefore).round hround).2 hstopped
                exact ⟨before, opened, hbefore, hout, hreturned⟩
    · rcases hcases with ⟨hgoes, -⟩ | hends | hends
      · cases hcontinues.symm.trans hgoes
      · obtain rfl := (Prod.mk.inj (hcontinues.symm.trans hends)).2
        refine ⟨ht.condition.within, ht.queue.sublist (List.takeWhile_sublist _), fun hlimit => ?_⟩
        cases ht.running.symm.trans hlimit
      · obtain rfl := (Prod.mk.inj (hcontinues.symm.trans hends)).2
        exact ⟨ht.condition.within, ht.queue.sublist (List.takeWhile_sublist _), nofun⟩
  · obtain ⟨hs, hrunning, hqueue⟩ := ht.goes hcontinues
    have hv := (hs.runRound hrunning hqueue hrun).1
    exact ⟨hv.condition.within, .nil, fun hlimit => nomatch hv.running.symm.trans hlimit⟩

end TreeState

namespace Solver

/-- The tree below the root begins with the whole budget. -/
theorem Explores.spends [Scalar.Ordered α] {s : Solver α ρ σ η}
    {solution : Option (RelaxationSolution α)}
    {tree : TreeState α ρ σ η Condition} (hthreads : s.options.threads = 1)
    (h : s.Explores (Condition.nodeBudget budget) solution tree) :
    tree.Spends budget ∧ tree.shared.condition.stopped = false := by
  obtain ⟨root, relaxation, hprepared, hbelow⟩ := h
  obtain ⟨hcondition, hleveled⟩ := hprepared.frame
  simp only [treeBelow, bind_eq_ok, pure_eq_ok, Prod.mk.injEq] at hbelow
  obtain ⟨pool, -, pushed, hpush, rfl, -⟩ := hbelow
  let worker : Search α ρ := .ofDomain root.domain (Relaxation.fork root.relaxation).2 s.options
    s.options.randomSeed s.coin
  refine ⟨⟨⟨worker, ?_, hleveled, rfl⟩, ?_, ?_, rfl⟩, ?_⟩
  · rw [hthreads]
    rfl
  · exact hcondition ▸ .ofBudget budget
  · have hempty : NodeQueue.Ordered (NodeQueue.empty : NodeQueue α).nodes := List.Pairwise.nil
    exact hempty.push hpush
  · exact congrArg SharedCondition.stopped hcondition

omit [Relaxation ρ α] [Separator σ α] [Proposer η α] in
/-- Only a tree that was stopped by a budget of nodes has the status of one. -/
theorem stopped_of_statusOf {t : TreeState α ρ σ η τ} (h : statusOf t = .nodeLimit) :
    t.stopped = some .nodeLimit := by
  unfold statusOf at h
  split at h
  · next hstopped => rw [hstopped, h]
  · dsimp only at h
    split at h
    · cases h
    · split at h
      · cases h
      · cases h

end Solver

/-- With one worker, a solve with a budget of nodes evaluates no more nodes than the budget, and
exactly as many if it ends by the budget. Then everything that was open when the condition first
asked to stop is in the queue at the end: what waited, and what was open on the stack of the search
that was under way. So the dual bound is not above the lower bound of any of it that is a number. -/
theorem node_budget_respected [Scalar.Ordered α] {s : Solver α ρ σ η}
    {outcome : SolveOutcome α ρ σ η} (hthreads : s.options.threads = 1)
    (hsolve : s.solve (Condition.nodeBudget budget) = .ok outcome) :
    outcome.result.statistics.nodes ≤ budget ∧
    (outcome.result.status = .nodeLimit →
      outcome.result.statistics.nodes = budget ∧
      ∃ (solution : Option (RelaxationSolution α)) (start t last : TreeState α ρ σ η Condition)
        (opened : OpenTree α ρ σ η Condition) (relaxation : ρ),
        s.Explores (Condition.nodeBudget budget) solution start ∧
        Relation.ReflTransGen TreeState.Round start t ∧ t.RunsOut opened ∧
        start.run = .ok last ∧ outcome = s.finishTree relaxation last ∧
        opened.ReturnedAs (last.queue.nodes.map Prod.snd) ∧
        ∀ b ∈ opened.lowerBounds, Scalar.isNaN b = false → outcome.result.dualBound ≤ b) := by
  rcases Solver.solve_cases hsolve with hroot |
    ⟨solution, start, last, relaxation, hexplores, hrun, rfl⟩
  · obtain ⟨hzero, hstatus⟩ := hroot.result
    refine ⟨hzero ▸ Nat.zero_le _, fun hlimit => ?_⟩
    rw [hlimit] at hstatus
    rcases hstatus with h | h
    · cases h
    · cases h
  obtain ⟨hstart, hrunning⟩ := hexplores.spends hthreads
  obtain ⟨head, hrounds, hends⟩ := TreeState.runWithin_rounds hrun
  obtain ⟨hwithin, hqueue, hlast⟩ := hstart.ends hrunning hrounds hends
  have hresult := s.finishTree_reports relaxation last
  rw [hresult.statistics, hresult.status, hresult.dualBound]
  refine ⟨hwithin, fun hlimit => ?_⟩
  obtain ⟨hnodes, t, opened, hbefore, hout, hreturned⟩ :=
    hlast (Solver.stopped_of_statusOf (t := { last with givenUpBound := last.lostBound }) hlimit)
  refine ⟨hnodes, solution, start, t, last, opened, relaxation, hexplores, hbefore, hout, hrun, rfl,
    hreturned, fun b hb hnumber => ?_⟩
  obtain ⟨_, hreturns, rfl⟩ := hreturned.lowerBounds b hb
  obtain ⟨x, hx, rfl⟩ := List.mem_map.mp hreturns
  have hmin : last.queue.minLowerBound ≤ x.2.lowerBound := hqueue.minLowerBound_le hx hnumber
  have hopen := Scalar.min_le_left (b := last.lostBound) (Scalar.number_left hmin)
  have hdual := Scalar.min_le_left (b := last.shared.incumbent.objective) (Scalar.number_left hopen)
  exact Scalar.Ordered.le_trans _ _ _ hdual (Scalar.Ordered.le_trans _ _ _ hopen hmin)

section Exact

open Exact

set_option maxRecDepth 100000 in
/-- A budget of one node ends while the first child of the root is current. -/
theorem odd_sum_within_budget :
    ∃ (s : Solver Exact (ElementaryRelaxation Exact) (CutList Exact) (ProposalList Exact))
      (outcome : SolveOutcome Exact (ElementaryRelaxation Exact) (CutList Exact)
        (ProposalList Exact)),
      s.options.threads = 1 ∧ s.solve (Condition.nodeBudget 1) = .ok outcome ∧
      outcome.result.status = .nodeLimit ∧ outcome.result.statistics.nodes = 1 ∧
      outcome.result.dualBound = 1 ∧
      ∃ (solution : Option (RelaxationSolution Exact))
        (start t last : TreeState Exact (ElementaryRelaxation Exact) (CutList Exact)
          (ProposalList Exact) Condition)
        (opened : OpenTree Exact (ElementaryRelaxation Exact) (CutList Exact) (ProposalList Exact)
          Condition) (relaxation : ElementaryRelaxation Exact),
        s.Explores (Condition.nodeBudget 1) solution start ∧
        Relation.ReflTransGen TreeState.Round start t ∧ t.RunsOut opened ∧
        start.run = .ok last ∧ outcome = s.finishTree relaxation last ∧
        opened.ReturnedAs (last.queue.nodes.map Prod.snd) ∧
        ∀ b ∈ opened.lowerBounds, Scalar.isNaN b = false → outcome.result.dualBound ≤ b := by
  have hrun : passes oddSum.build (fun model =>
      passes (Solver.ofModel (ρ := ElementaryRelaxation Exact) model risingAnswers shortPlunges)
        fun (s : Solver Exact (ElementaryRelaxation Exact) (CutList Exact) (ProposalList Exact)) =>
          decide (s.options.threads = 1) &&
          passes (s.solve (Condition.nodeBudget 1)) fun outcome =>
            decide (outcome.result.status = .nodeLimit) &&
            decide (outcome.result.dualBound = 1)) = true := by
    rw [(Solver.solveUnrolled 100).property]
    decide +kernel
  obtain ⟨model, -, hrun⟩ := passes_eq_true.mp hrun
  obtain ⟨s, -, hrun⟩ := passes_eq_true.mp hrun
  rw [Bool.and_eq_true, decide_eq_true_eq] at hrun
  obtain ⟨hthreads, hrun⟩ := hrun
  obtain ⟨outcome, hsolve, hrun⟩ := passes_eq_true.mp hrun
  rw [Bool.and_eq_true, decide_eq_true_eq, decide_eq_true_eq] at hrun
  obtain ⟨hstatus, hdual⟩ := hrun
  obtain ⟨-, hlimit⟩ := node_budget_respected hthreads hsolve
  obtain ⟨hnodes, hopen⟩ := hlimit hstatus
  exact ⟨s, outcome, hthreads, hsolve, hstatus, hnodes, hdual, hopen⟩

end Exact

end BranchBound
