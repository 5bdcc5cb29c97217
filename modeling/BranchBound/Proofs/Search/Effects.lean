import BranchBound.Proofs.Conflict.Resolution
import BranchBound.Proofs.Domain.Operation
import BranchBound.Proofs.Search.Steps

/-!
# Effects of a search

What the work on a node does to the domain and to the pools is said once, by the relation `Effect`:
it propagates, undoes a level, hands the cutoff down, changes a bound to a rounded value of the
relaxation, and adds conflicts whose literals are on record. All of these are operations of a
domain, so what such operations keep holds through evaluating and branching. A tally goes along: the
nodes that were evaluated and the condition of the user, which the work on a node leaves alone.
-/

namespace BranchBound

open Checked BranchBound.Action

variable {α ρ σ η τ : Type}

/-- The number of nodes that a search evaluated, and the condition which it asks whether to stop. -/
structure Tally (τ : Type) where
  nodes : Nat
  condition : SharedCondition τ

namespace SearchState

def tally (s : SearchState α ρ σ η τ) : Tally τ := ⟨s.search.statistics.nodes, s.shared.condition⟩

/-- The domain of a search and the pools which it follows. -/
def propagation (s : SearchState α ρ σ η τ) : PropagationState α :=
  ⟨s.shared.pools, s.search.domain⟩

end SearchState

/-- The conflicts in the pools and the condition of the user stay. -/
structure Shared.Kept (s s' : Shared α σ η τ) : Prop where
  conflicts : s'.pools.conflicts = s.pools.conflicts
  condition : s'.condition = s.condition

variable [Scalar α]

namespace Shared

variable {s s' : Shared α σ η τ}

theorem submit_kept (s : Shared α σ η τ) (point : Array α) (objective : α) :
    s.Kept (s.submit point objective).2 := by
  unfold submit
  dsimp only
  split <;> exact ⟨rfl, rfl⟩

theorem runHeuristics_kept [Proposer η α] {d : Domain α} {solution : RelaxationSolution α}
    {found : Nat} (h : s.runHeuristics d solution = .ok (found, s')) : s.Kept s' := by
  simp only [runHeuristics, bind_eq_ok, pure_eq_ok, Prod.mk.injEq] at h
  obtain ⟨_, -, -, rfl⟩ := h
  exact ⟨rfl, rfl⟩

/-- Separation adds cuts to the pools and leaves the conflicts alone. -/
theorem separate_kept [Separator σ α] {d : Domain α} {solution : RelaxationSolution α}
    {violated : List (CutId × Inequality α)} (h : s.separate d solution = .ok (violated, s')) :
    s.Kept s' := by
  simp only [separate, bind_eq_ok, pure_eq_ok, Prod.mk.injEq] at h
  obtain ⟨_, -, _, -, _, -, -, rfl⟩ := h
  split <;> exact ⟨rfl, rfl⟩

end Shared

/-- A value that is not whole: it is farther than some tolerance above the next integral number. -/
def IsFractional (value : α) : Prop := ∃ tolerance, tolerance < value - Scalar.floor value

/-- The change rounds a value that is not whole. -/
def BoundChange.Rounds (x : BoundChange α) : Prop :=
  ∃ c value objective direction, IsFractional value ∧
    x = (Decision.ofValue c value objective direction).change

/-- What the work on a node may do to a domain. -/
def Operation.Arises (d : Domain α) : Operation α → Prop
  | propagate | backtrack | setObjectiveCutoff _ => True
  | changeBound change _ => change.Rounds
  | addConflict _ literals => ∀ l ∈ literals, ∃ entry ∈ d.log, entry.change = l
  | _ => False

/-- One thing that the work on a node does to the domain and the pools. -/
inductive Effect (x y : PropagationState α) : Prop
  | kept (hdomain : y.domain = x.domain) (hconflicts : y.pools.conflicts = x.pools.conflicts)
  | performed (op : Operation α) (harises : op.Arises x.domain) (h : op.perform x = .ok y)

/-- Effects lead from a domain and its pools to those of a search, which has a given tally. -/
structure Affects (x : PropagationState α) (t : Tally τ) (s : SearchState α ρ σ η τ) : Prop where
  effects : Relation.ReflTransGen Effect x s.propagation
  tally : s.tally = t

section Affects

variable {x : PropagationState α} {t : Tally τ} {s s' : SearchState α ρ σ η τ}

theorem Affects.kept (h : Affects x t s) (hdomain : s'.search.domain = s.search.domain)
    (hnodes : s'.search.statistics.nodes = s.search.statistics.nodes)
    (hshared : s.shared.Kept s'.shared) : Affects x t s' := by
  refine ⟨h.effects.tail (.kept hdomain hshared.conflicts), ?_⟩
  rw [← h.tally, SearchState.tally, SearchState.tally, hnodes, hshared.condition]

theorem Affects.performed (h : Affects x t s) (op : Operation α)
    (harises : op.Arises s.search.domain) (hperform : op.perform s.propagation = .ok s'.propagation)
    (htally : s'.tally = s.tally) : Affects x t s' :=
  ⟨h.effects.tail (.performed op harises hperform), htally.trans h.tally⟩

end Affects

namespace Domain

variable {d : Domain α}

/-- A column with a fractional value is an integer column whose value, moved between its bounds, is
farther than the tolerance from both neighbouring integral numbers. -/
theorem mem_fractionalColumns {solution : RelaxationSolution α} {fractional : List (ColumnId × α)}
    (h : d.fractionalColumns solution = .ok fractional) {c : ColumnId} {value : α}
    (hmem : (c, value) ∈ fractional) :
    c ∈ d.model.integerColumns ∧ d.isFixed c = .ok false ∧ ∃ proposed lower upper,
      d.boundValue .lower c = .ok lower ∧ d.boundValue .upper c = .ok upper ∧
      value = Scalar.min (Scalar.max proposed lower) upper ∧
      d.feastol < value - Scalar.floor value ∧ d.feastol < Scalar.ceil value - value := by
  obtain ⟨c', hc', hvalue⟩ := mem_collect h hmem
  simp only [fractionalValue?, bind_eq_ok] at hvalue
  obtain ⟨isFixed, hfixed, hvalue⟩ := hvalue
  split at hvalue
  · cases hvalue
  · next hfree =>
    split at hvalue
    · cases hvalue
    · next proposed _ =>
      simp only [bind_eq_ok, pure_eq_ok] at hvalue
      obtain ⟨lower, hlower, upper, hupper, hvalue⟩ := hvalue
      split at hvalue
      · next hfractional =>
        cases hvalue
        simp only [Bool.and_eq_true, decide_eq_true_eq] at hfractional
        rw [Bool.not_eq_true] at hfree
        exact ⟨hc', hfree ▸ hfixed, proposed, lower, upper, hlower, hupper, rfl, hfractional⟩
      · cases hvalue

end Domain

/-- Ranking keeps the columns with their values. -/
theorem Pseudocost.mem_rank {p : Pseudocost α} {fractional : List (ColumnId × α)}
    {ranked : List (Candidate α)} (h : p.rank fractional = .ok ranked) {x : Candidate α}
    (hx : x ∈ ranked) : (x.column, x.value) ∈ fractional := by
  simp only [rank, bind_eq_ok, pure_eq_ok] at h
  obtain ⟨scored, hscored, rfl⟩ := h
  rw [List.mem_mergeSort] at hx
  obtain ⟨⟨c, value⟩, hmem, hscore⟩ := mem_mapM hscored hx
  simp only [bind_eq_ok, pure_eq_ok] at hscore
  obtain ⟨_, -, rfl⟩ := hscore
  exact hmem

namespace SearchStep

variable {x : PropagationState α} {t : Tally τ}

section Bookkeeping

theorem changeSearch_affects {f : Search α ρ → Search α ρ} (hdomain : ∀ s, (f s).domain = s.domain)
    (hnodes : ∀ s, (f s).statistics.nodes = s.statistics.nodes) :
    Keeps (Affects x t) (changeSearch f : SearchStep α ρ σ η τ Unit) :=
  changeSearch_leads fun s hs => hs.kept (hdomain s.search) (hnodes s.search) ⟨rfl, rfl⟩

theorem notify_affects (notice : Notice α) :
    Keeps (Affects x t) (notify notice : SearchStep α ρ σ η τ Unit) :=
  Keeps.modify fun _ hs => hs.kept rfl rfl ⟨rfl, rfl⟩

theorem changeNode_affects (f : SearchNode α → SearchNode α) :
    Keeps (Affects x t) (changeNode f : SearchStep α ρ σ η τ Unit) :=
  changeNode_leads fun _ _ _ hs _ => hs.kept rfl rfl ⟨rfl, rfl⟩

theorem changeStatistics_affects {f : SearchStatistics → Checked SearchStatistics}
    (h : ∀ s s', f s = .ok s' → s'.nodes = s.nodes) :
    Keeps (Affects x t) (changeStatistics f : SearchStep α ρ σ η τ Unit) :=
  changeStatistics_leads fun _ _ hs hf => hs.kept rfl (h _ _ hf) ⟨rfl, rfl⟩

/-- A counter may be raised, unless it is that of the nodes. -/
theorem raiseCounter_affects {n m : SearchStatistics → Nat}
    {f : SearchStatistics → Nat → SearchStatistics} (h : ∀ s k, (f s k).nodes = s.nodes) :
    Keeps (Affects x t) (changeStatistics fun s => return f s (← count 64 (n s) (m s)) :
      SearchStep α ρ σ η τ Unit) :=
  changeStatistics_affects fun s s' hs => by
    simp only [bind_eq_ok, pure_eq_ok] at hs
    obtain ⟨k, -, rfl⟩ := hs
    exact h s k

theorem changePseudocost_affects (f : Pseudocost α → Checked (Pseudocost α)) :
    Keeps (Affects x t) (changePseudocost f : SearchStep α ρ σ η τ Unit) :=
  search_keeps.bind fun _ => Keeps.lift.bind fun _ =>
    changeSearch_affects (fun _ => rfl) fun _ => rfl

theorem prune_affects (result : NodeResult) :
    Keeps (Affects x t) (prune result : SearchStep α ρ σ η τ NodeResult) := by
  refine Leads.bind (changeSearch_affects (fun _ => rfl) fun _ => rfl) fun _ =>
    (changeNode_affects _).bind fun _ => currentNode_keeps.bind fun _ =>
      (changeStatistics_affects fun s s' hs => ?_).bind fun _ => ?_
  · simp only [bind_eq_ok, pure_eq_ok] at hs
    obtain ⟨_, -, _, -, _, -, rfl⟩ := hs
    rfl
  · exact Leads.ite (fun _ => Leads.bind (changeSearch_affects (fun _ => rfl) fun _ => rfl)
      fun _ => Keeps.pure) fun _ => Keeps.pure

theorem recordObjective_affects (objective : α) :
    Keeps (Affects x t) (recordObjective objective : SearchStep α ρ σ η τ Unit) := by
  refine currentNode_keeps.bind fun node => (changeNode_affects _).bind fun _ => ?_
  split
  · exact changePseudocost_affects _
  · exact Keeps.pure

theorem recordInferences_affects :
    Keeps (Affects x t) (recordInferences : SearchStep α ρ σ η τ Unit) := by
  refine search_keeps.bind fun s => ?_
  split
  · exact Keeps.pure
  · split
    · exact domain_keeps.bind fun _ => Keeps.lift.bind fun _ => changePseudocost_affects _
    · exact Keeps.pure

theorem firstDirection_affects (c : ColumnId) (value : α) :
    Keeps (Affects x t) (firstDirection c value : SearchStep α ρ σ η τ Direction) := by
  refine search_keeps.bind fun s => shared_keeps.bind fun shared => ?_
  have hpure (isUp : Bool) : Keeps (Affects x t) (do
      let isUp ← pure isUp
      return if isUp then .up else .down : SearchStep α ρ σ η τ Direction) :=
    Keeps.pure.bind fun _ => Keeps.pure
  dsimp only
  cases shared.options.branching.childSelection with
  | up => exact hpure _
  | down => exact hpure _
  | rootSolution => exact hpure _
  | objective => exact Keeps.lift.bind fun _ => hpure _
  | random =>
      exact Leads.bind (changeSearch_affects (fun _ => rfl) fun _ => rfl) fun _ => hpure _
  | bestCost => exact Keeps.lift.bind fun _ => Keeps.lift.bind fun _ => hpure _
  | worstCost => exact Keeps.lift.bind fun _ => Keeps.lift.bind fun _ => hpure _
  | hybridInferenceCost => exact Keeps.lift.bind fun _ => Keeps.lift.bind fun _ => hpure _

end Bookkeeping

section Domain

theorem changeDomain_affects {f : Domain α → Checked (Domain α)} (op : Domain α → Operation α)
    (h : ∀ pools d d', f d = .ok d' →
      (op d).Arises d ∧ (op d).perform ⟨pools, d⟩ = .ok ⟨pools, d'⟩) :
    Keeps (Affects x t) (changeDomain f : SearchStep α ρ σ η τ Unit) := by
  refine domain_leads.bind fun before => Leads.lift.bind fun after => ?_
  refine Leads.bind (Q := fun _ => Affects x t) (changeSearch_leads fun s hs => ?_) fun _ => ?_
  · obtain ⟨hafter, rfl, hs⟩ := hs
    obtain ⟨harises, hperform⟩ := h s.shared.pools _ _ hafter
    exact hs.performed _ harises hperform rfl
  · refine shared_leads.bind fun shared => Leads.modify fun s hs => ?_
    obtain ⟨rfl, hs⟩ := hs
    exact hs.kept rfl rfl ⟨rfl, rfl⟩

/-- A decision rounds a fractional value. -/
theorem decide_affects {c : ColumnId} {value : α} (hvalue : IsFractional value) (objective : α)
    (direction : Direction) (reason : Reason) :
    Keeps (Affects x t) (changeDomain fun d =>
      d.changeBound (Decision.ofValue c value objective direction).change reason :
        SearchStep α ρ σ η τ Unit) :=
  changeDomain_affects (fun _ => .changeBound _ reason) fun pools d d' h =>
    ⟨⟨c, value, objective, direction, hvalue, rfl⟩, by
      rw [Operation.perform, PropagationState.onDomain_eq_ok]
      exact ⟨d', h, rfl⟩⟩

theorem propagate_affects : Keeps (Affects x t) (propagate : SearchStep α ρ σ η τ Bool) := by
  refine shared_leads.bind fun shared => domain_leads.bind fun d => Leads.lift.bind fun result => ?_
  refine Leads.bind (Q := fun _ s => Affects x t (withDomain s result.2)) ?_ fun _ => ?_
  · refine Leads.modify fun s hs => ?_
    obtain ⟨hresult, rfl, rfl, hs⟩ := hs
    simp only [Shared.propagate, bind_eq_ok, pure_eq_ok] at hresult
    obtain ⟨⟨pools, after⟩, hpropagate, rfl⟩ := hresult
    refine hs.performed .propagate trivial ?_ rfl
    simp only [Operation.perform, bind_eq_ok, pure_eq_ok]
    exact ⟨_, hpropagate, rfl⟩
  · exact Leads.bind (Q := fun _ => Affects x t) (changeSearch_leads fun s hs => hs)
      fun _ => Keeps.pure

theorem undoLevel_affects : Keeps (Affects x t) (undoLevel : SearchStep α ρ σ η τ Unit) := by
  refine domain_leads.bind fun d => Leads.lift.bind fun result => changeSearch_leads fun s hs => ?_
  obtain ⟨hback, rfl, hs⟩ := hs
  refine hs.performed .backtrack trivial ?_ rfl
  simp only [Operation.perform, PropagationState.onDomain_eq_ok, bind_eq_ok, pure_eq_ok]
  exact ⟨result.2, ⟨result, hback, rfl⟩, rfl⟩

/-- The domain is a given one, and effects led to it. -/
def AffectsAt (x : PropagationState α) (t : Tally τ) (d : Domain α) (s : SearchState α ρ σ η τ) :
    Prop :=
  s.search.domain = d ∧ Affects x t s

theorem learn_affects {d : Domain α} {conflict : List (BoundChange α)}
    (hlogged : ∀ l ∈ conflict, ∃ entry ∈ d.log, entry.change = l) :
    Keeps (AffectsAt x t d) (learn conflict : SearchStep α ρ σ η τ Unit) := by
  have hcount (f : ConflictStatistics → Checked ConflictStatistics) :
      Keeps (AffectsAt x t d) (changeConflictStatistics f : SearchStep α ρ σ η τ Unit) :=
    search_keeps.bind fun _ => Keeps.lift.bind fun _ => changeSearch_leads fun _ hs =>
      ⟨hs.1, hs.2.kept rfl rfl ⟨rfl, rfl⟩⟩
  refine Leads.ite (fun _ => ?_) fun _ => ?_
  · exact Leads.bind (Q := fun _ => AffectsAt x t d)
      (Leads.modify fun _ hs => ⟨hs.1, hs.2.kept rfl rfl ⟨rfl, rfl⟩⟩) fun _ =>
        changeSearch_leads fun _ hs => ⟨hs.1, hs.2.kept rfl rfl ⟨rfl, rfl⟩⟩
  refine shared_leads.bind fun shared => Leads.lift.bind fun result => ?_
  refine Leads.bind (Q := fun _ => AffectsAt x t d) (Leads.modify fun s hs => ?_) fun _ =>
    Leads.ite (fun _ => hcount _) fun _ => Keeps.pure
  obtain ⟨hlearn, rfl, rfl, hs⟩ := hs
  simp only [Shared.learn, Pools.onConflicts, Pools.conflictPool, bind_eq_ok, pure_eq_ok] at hlearn
  obtain ⟨_, ⟨pool, hpool, conflicts, hstore, rfl⟩, rfl⟩ := hlearn
  refine ⟨rfl, hs.performed (.addConflict s.shared.conflictPool conflict) hlogged ?_ rfl⟩
  simp only [Operation.perform, PropagationState.onConflictPool, Pools.onConflicts,
    Pools.conflictPool, bind_eq_ok, pure_eq_ok]
  exact ⟨_, ⟨pool, hpool, conflicts, hstore, rfl⟩, rfl⟩

/-- Analysing an infeasibility only learns literals on record. -/
theorem analyse_affects (proof : Option (Inequality α)) :
    Keeps (Affects x t) (analyse proof : SearchStep α ρ σ η τ Unit) := by
  refine domain_leads.bind fun d => ?_
  have hcount (f : ConflictStatistics → Checked ConflictStatistics) :
      Keeps (AffectsAt x t d) (changeConflictStatistics f : SearchStep α ρ σ η τ Unit) :=
    search_keeps.bind fun _ => Keeps.lift.bind fun _ => changeSearch_leads fun _ hs =>
      ⟨hs.1, hs.2.kept rfl rfl ⟨rfl, rfl⟩⟩
  refine Leads.mono (P := AffectsAt x t d) (Q := fun _ => AffectsAt x t d) ?_
    (fun s hs => ⟨hs.1.symm, hs.2⟩) fun _ _ hs => hs.2
  refine shared_keeps.bind fun shared => Keeps.lift.bind fun set => ?_
  cases set with
  | none => exact hcount _
  | some positions =>
      refine shared_keeps.bind fun _ => Leads.lift.knowing fun resolution hresolution => ?_
      have hlearn : Keeps (AffectsAt x t d)
          (resolution.conflicts.forM learn : SearchStep α ρ σ η τ Unit) :=
        Keeps.forM_mem fun conflict hconflict =>
          learn_affects (Domain.computeConflicts_logged hresolution conflict hconflict)
      have hrest : Keeps (AffectsAt x t d) (do
          if resolution.conflicts.isEmpty then
            changeConflictStatistics fun s => return { s with failures := ← count 64 s.failures 1 }
          resolution.conflicts.forM learn : SearchStep α ρ σ η τ Unit) :=
        Leads.ite (fun _ => (hcount _).bind fun _ => hlearn) fun _ => hlearn
      dsimp only
      split
      · exact Leads.bind (Q := fun _ => AffectsAt x t d)
          (Leads.modify fun _ hs => ⟨hs.1, hs.2.kept rfl rfl ⟨rfl, rfl⟩⟩) fun _ => hrest
      · exact hrest

end Domain

section Solutions

theorem submitIntegral_affects (solution : RelaxationSolution α) :
    Keeps (Affects x t) (submitIntegral solution : SearchStep α ρ σ η τ NodeResult) := by
  refine domain_keeps.bind fun d => Leads.bind (Keeps.foldlM (fun _ _ => Keeps.lift) _ _)
    fun point => shared_leads.bind fun shared => Leads.ite (fun _ => ?_) fun _ => ?_
  · refine Leads.bind (Q := fun _ => Affects x t) (Leads.modify fun s hs => ?_) fun _ =>
      Leads.bind (raiseCounter_affects fun _ _ => rfl) fun _ => Keeps.pure
    obtain ⟨rfl, hs⟩ := hs
    exact hs.kept rfl rfl (Shared.submit_kept ..)
  · exact Leads.before ((notify_affects _).bind fun _ => Keeps.pure) fun _ hs => hs.2

theorem runHeuristics_affects [Proposer η α] (solution : RelaxationSolution α) :
    Keeps (Affects x t) (runHeuristics solution : SearchStep α ρ σ η τ Unit) := by
  refine shared_leads.bind fun shared => search_keeps.bind fun search =>
    Leads.ite (fun _ => ?_) fun _ => Leads.pure fun _ hs => hs.2
  refine domain_keeps.bind fun d => Leads.lift.bind fun found => ?_
  refine Leads.bind (Q := fun _ => Affects x t) (Leads.modify fun s hs => ?_) fun _ =>
    raiseCounter_affects fun _ _ => rfl
  obtain ⟨hrun, rfl, hs⟩ := hs
  exact hs.kept rfl rfl (Shared.runHeuristics_kept hrun)

theorem concludeNode_affects [Proposer η α] (solution : RelaxationSolution α) :
    Keeps (Affects x t) (concludeNode solution : SearchStep α ρ σ η τ NodeResult) := by
  have hrest : Keeps (Affects x t) (do
      runHeuristics solution
      let fractional ← (← domain).fractionalColumns solution
      if fractional.isEmpty then submitIntegral solution
      else if (← shared).cutoff < solution.objective then return .boundExceeding
      else
        let estimate ← (← search).pseudocost.estimate solution fractional
        changeNode fun node => { node with estimate := estimate }
        changeSearch fun s => { s with solution := some solution }
        return .unsolved : SearchStep α ρ σ η τ NodeResult) := by
    refine (runHeuristics_affects solution).bind fun _ => domain_keeps.bind fun _ =>
      Keeps.lift.bind fun fractional => Leads.ite (fun _ => submitIntegral_affects solution)
        fun _ => ?_
    refine shared_keeps.bind fun _ => Leads.ite (fun _ => Keeps.pure) fun _ => ?_
    exact search_keeps.bind fun _ => Keeps.lift.bind fun _ => (changeNode_affects _).bind fun _ =>
      Leads.bind (changeSearch_affects (fun _ => rfl) fun _ => rfl) fun _ => Keeps.pure
  exact Leads.ite (fun _ => (changeNode_affects _).bind fun _ => hrest) fun _ => hrest

end Solutions

section Relaxation

variable [Relaxation ρ α]

theorem resolve_affects :
    Keeps (Affects x t) (resolve : SearchStep α ρ σ η τ (RelaxationResult α)) :=
  search_keeps.bind fun _ => Leads.bind (changeSearch_affects (fun _ => rfl) fun _ => rfl)
    fun _ => Keeps.lift

theorem recover_affects : Keeps (Affects x t) (recover : SearchStep α ρ σ η τ Bool) :=
  search_keeps.bind fun _ => Leads.bind (changeSearch_affects (fun _ => rfl) fun _ => rfl)
    fun _ => Keeps.pure

theorem warmStart_affects (basis : Option Basis) :
    Keeps (Affects x t) (warmStart basis : SearchStep α ρ σ η τ Unit) := by
  cases basis with
  | none => exact Keeps.pure
  | some basis =>
      exact changeSearch_affects (f := fun s => { s with
        relaxation := Relaxation.setBasis s.relaxation basis }) (fun _ => rfl) fun _ => rfl

theorem resolveOnce_affects :
    Keeps (Affects x t) (resolveOnce : SearchStep α ρ σ η τ (Option (Bounded α))) := by
  refine resolve_affects.bind fun result => ?_
  cases result with
  | optimal solution => exact Leads.bind (raiseCounter_affects fun _ _ => rfl) fun _ => Keeps.pure
  | infeasible proof => exact (analyse_affects proof).bind fun _ => Keeps.pure
  | unbounded => exact search_keeps.bind fun _ => (notify_affects _).bind fun _ => Keeps.pure
  | numericalTrouble => exact Keeps.pure

theorem resolveNode_affects (retries budget : Nat) :
    Keeps (Affects x t) (resolveNode retries budget : SearchStep α ρ σ η τ (Bounded α)) := by
  have hgiveUp (retries : Nat) :
      Keeps (Affects x t) (giveUp retries : SearchStep α ρ σ η τ (Bounded α)) :=
    search_keeps.bind fun _ => (notify_affects _).bind fun _ => Keeps.pure
  induction budget generalizing retries with
  | zero =>
      refine resolveOnce_affects.bind fun outcome => ?_
      cases outcome with
      | none => exact hgiveUp _
      | some outcome => exact Keeps.pure
  | succ budget ih =>
      refine resolveOnce_affects.bind fun outcome => ?_
      cases outcome with
      | none =>
          exact recover_affects.bind fun _ => Leads.ite
            (fun _ => (notify_affects _).bind fun _ => ih _) fun _ => hgiveUp _
      | some outcome => exact Keeps.pure

theorem boundNode_affects :
    Keeps (Affects x t) (boundNode : SearchStep α ρ σ η τ (Bounded α)) := by
  refine shared_keeps.bind fun _ => (resolveNode_affects _ _).bind fun outcome => ?_
  cases outcome with
  | error result => exact Keeps.pure
  | ok solution =>
      exact (recordObjective_affects _).bind fun _ => shared_keeps.bind fun _ =>
        Leads.ite (fun _ => Keeps.pure) fun _ => Keeps.pure

theorem boundChild_affects (parentObjective : α) (decision : Decision α) :
    Keeps (Affects x t) (boundChild parentObjective decision :
      SearchStep α ρ σ η τ (ChildOutcome α)) := by
  refine Leads.bind (raiseCounter_affects fun _ _ => rfl) fun _ =>
    resolve_affects.bind fun result => ?_
  cases result with
  | optimal child =>
      exact Leads.bind (raiseCounter_affects fun _ _ => rfl) fun _ =>
        (changePseudocost_affects _).bind fun _ => shared_keeps.bind fun _ =>
          Leads.ite (fun _ => Keeps.pure) fun _ => (notify_affects _).bind fun _ => Keeps.pure
  | infeasible proof => exact Keeps.pure
  | unbounded => exact Keeps.pure
  | numericalTrouble => exact Keeps.pure

theorem tryChild_affects (solution : RelaxationSolution α) (c : ColumnId) {value : α}
    (hvalue : IsFractional value) (direction : Direction) :
    Keeps (Affects x t) (tryChild solution c value direction :
      SearchStep α ρ σ η τ (ChildOutcome α)) := by
  have hundo (outcome : ChildOutcome α) : Keeps (Affects x t) (do
      undoLevel
      return outcome : SearchStep α ρ σ η τ (ChildOutcome α)) :=
    undoLevel_affects.bind fun _ => Keeps.pure
  refine (decide_affects hvalue _ _ _).bind fun _ => propagate_affects.bind fun _ =>
    Leads.ite (fun _ => ?_) fun _ => Keeps.pure.bind hundo
  exact (boundChild_affects _ _).bind hundo

theorem tryCandidates_affects (solution : RelaxationSolution α) {candidates : List (Candidate α)}
    (hcandidates : ∀ candidate ∈ candidates, IsFractional candidate.value) :
    Leads (Affects x t) (tryCandidates solution candidates :
      SearchStep α ρ σ η τ (Option (Selection α)))
      fun selection s => (∀ c value, selection ≠ some (.column c value)) ∧ Affects x t s := by
  induction candidates with
  | nil => exact Leads.pure fun _ hs => ⟨nofun, hs⟩
  | cons candidate rest ih =>
      have hvalue := hcandidates candidate (List.mem_cons_self ..)
      have hrest := ih fun other hother => hcandidates other (List.mem_cons_of_mem _ hother)
      refine (tryChild_affects _ _ hvalue _).bind fun down =>
        (tryChild_affects _ _ hvalue _).bind fun up => ?_
      have htightened (direction : Direction) : Leads (Affects x t) (do
          tighten (Decision.ofValue candidate.column candidate.value solution.objective direction)
          return some .tightened : SearchStep α ρ σ η τ (Option (Selection α)))
          fun selection s => (∀ c value, selection ≠ some (.column c value)) ∧ Affects x t s :=
        (decide_affects hvalue _ _ _).bind fun _ => Leads.pure fun _ hs => ⟨nofun, hs⟩
      cases down <;> cases up
      · exact Leads.pure fun _ hs => ⟨nofun, hs⟩
      · exact htightened _
      · exact htightened _
      · exact htightened _
      · exact hrest
      · exact hrest
      · exact htightened _
      · exact hrest
      · exact hrest

omit [Relaxation ρ α] in
theorem rank_leads {P : SearchState α ρ σ η τ → Prop} (fractional : List (ColumnId × α)) :
    Leads P (rank fractional : SearchStep α ρ σ η τ (List (Candidate α)))
      fun ranked s => (∃ p : Pseudocost α, p.rank fractional = .ok ranked) ∧ P s :=
  search_keeps.bind fun _ => Leads.lift.after fun _ _ hs => ⟨⟨_, hs.1⟩, hs.2⟩

/-- A column is selected with its fractional value. -/
theorem selectColumn_affects (solution : RelaxationSolution α) {fractional : List (ColumnId × α)}
    (hfractional : ∀ entry ∈ fractional, IsFractional entry.2) :
    Leads (Affects x t) (selectColumn solution fractional : SearchStep α ρ σ η τ (Selection α))
      fun selection s => (∀ c value, selection = .column c value → (c, value) ∈ fractional) ∧
        Affects x t s := by
  have hbest {p : Pseudocost α} {ranked : List (Candidate α)}
      (hranked : p.rank fractional = .ok ranked) (c : ColumnId) (value : α)
      (h : best ranked = .column c value) : (c, value) ∈ fractional := by
    cases ranked with
    | nil => cases h
    | cons candidate rest =>
        cases h
        exact Pseudocost.mem_rank hranked (List.mem_cons_self ..)
  refine shared_keeps.bind fun _ => (rank_leads fractional).knowing fun ranked hranked => ?_
  obtain ⟨p, hranked⟩ := hranked
  refine Leads.ite (fun _ => Leads.pure fun s hs => ⟨hbest hranked, hs⟩) fun _ => ?_
  refine search_keeps.bind fun search => Leads.lift.knowing fun unreliable hkept => ?_
  refine (tryCandidates_affects solution fun candidate hcandidate =>
    hfractional _ (Pseudocost.mem_rank hranked
      (mem_keepIf hkept (List.mem_of_mem_take hcandidate)).1)).bind fun selection => ?_
  cases selection with
  | some selection =>
      exact Leads.pure fun s hs => ⟨fun c value h => absurd (congrArg some h) (hs.1 c value), hs.2⟩
  | none =>
      refine Leads.before ?_ fun _ hs => hs.2
      refine currentNode_keeps.bind fun _ => (warmStart_affects _).bind fun _ => ?_
      exact (rank_leads fractional).bind fun ranked => Leads.pure fun _ hs =>
        ⟨hbest hs.1.choose_spec, hs.2⟩

theorem enterChild_affects {c : ColumnId} {value : α} (hvalue : IsFractional value) (objective : α)
    (direction : Direction) :
    Keeps (Affects x t) (enterChild (Decision.ofValue c value objective direction) :
      SearchStep α ρ σ η τ Unit) :=
  currentNode_keeps.bind fun _ => search_keeps.bind fun _ => Keeps.lift.bind fun _ =>
    Keeps.lift.bind fun _ => (changeNode_affects _).bind fun _ => Keeps.lift.bind fun _ =>
      domain_keeps.bind fun _ => (decide_affects hvalue _ _ _).bind fun _ =>
        (warmStart_affects _).bind fun _ => changeSearch_affects (fun _ => rfl) fun _ => rfl

theorem branchOn_affects (solution : RelaxationSolution α) (c : ColumnId) {value : α}
    (hvalue : IsFractional value) :
    Keeps (Affects x t) (branchOn solution c value : SearchStep α ρ σ η τ Unit) := by
  refine (firstDirection_affects c value).bind fun direction => ?_
  cases direction with
  | down => exact (changeNode_affects _).bind fun _ => enterChild_affects hvalue _ _
  | up => exact (changeNode_affects _).bind fun _ => enterChild_affects hvalue _ _

variable [Separator σ α]

theorem separateNode_affects (solution : RelaxationSolution α) :
    Keeps (Affects x t) (separateNode solution : SearchStep α ρ σ η τ Bool) := by
  refine shared_keeps.bind fun _ => search_keeps.bind fun _ => Leads.ite (fun _ => Keeps.pure)
    fun _ => domain_keeps.bind fun _ => Keeps.lift.bind fun _ =>
      Leads.ite (fun _ => Keeps.pure) fun _ => shared_leads.bind fun shared =>
        domain_keeps.bind fun d => Leads.lift.bind fun found => ?_
  refine Leads.bind (Q := fun _ => Affects x t) (Leads.modify fun s hs => ?_) fun _ =>
    Leads.ite (fun _ => Keeps.pure) fun _ => ?_
  · obtain ⟨hseparate, rfl, hs⟩ := hs
    exact hs.kept rfl rfl (Shared.separate_kept hseparate)
  · exact Leads.bind (raiseCounter_affects fun _ _ => rfl) fun _ =>
      Leads.bind (changeSearch_affects (fun _ => rfl) fun _ => rfl) fun _ => Keeps.pure

theorem boundNodeWithCuts_affects :
    Keeps (Affects x t) (boundNodeWithCuts : SearchStep α ρ σ η τ (Bounded α)) := by
  refine boundNode_affects.bind fun outcome => ?_
  cases outcome with
  | error result => exact Keeps.pure
  | ok solution =>
      refine (separateNode_affects solution).bind fun _ =>
        Leads.ite (fun _ => ?_) fun _ => Keeps.pure
      exact propagate_affects.bind fun _ => Leads.ite (fun _ => boundNode_affects) fun _ =>
        (analyse_affects none).bind fun _ => Keeps.pure

theorem boundCurrent_affects :
    Keeps (Affects x t) (boundCurrent : SearchStep α ρ σ η τ (Bounded α)) := by
  refine Leads.bind (changeSearch_affects (fun _ => rfl) fun _ => rfl) fun _ =>
    shared_keeps.bind fun shared => Leads.bind (changeDomain_affects
      (fun _ => .setObjectiveCutoff shared.cutoff) fun pools d d' h => ⟨trivial, ?_⟩) fun _ =>
        propagate_affects.bind fun _ => recordInferences_affects.bind fun _ =>
          Leads.ite (fun _ => ?_) fun _ => ?_
  · rw [← pure_eq_ok.mp h]
    rfl
  · exact (analyse_affects none).bind fun _ => Keeps.pure
  · exact shared_keeps.bind fun _ => currentNode_keeps.bind fun _ =>
      Leads.ite (fun _ => Keeps.pure) fun _ => boundNodeWithCuts_affects

variable [Proposer η α]

theorem evaluateOnce_affects :
    Keeps (Affects x t) (evaluateOnce : SearchStep α ρ σ η τ NodeResult) := by
  rw [evaluateOnce_eq]
  refine boundCurrent_affects.bind fun outcome => ?_
  cases outcome with
  | error result => exact Keeps.pure
  | ok solution => exact concludeNode_affects solution

theorem branchOnce_affects :
    Keeps (Affects x t) (branchOnce : SearchStep α ρ σ η τ (Option NodeResult)) := by
  have hprune (result : NodeResult) : Keeps (Affects x t) (do
      return some (← prune result) : SearchStep α ρ σ η τ (Option NodeResult)) :=
    (prune_affects result).bind fun _ => Keeps.pure
  refine search_keeps.bind fun s => Leads.bind (changeSearch_affects (fun _ => rfl) fun _ => rfl)
    fun _ => ?_
  cases s.solution with
  | none => exact hprune _
  | some solution =>
      refine domain_keeps.bind fun d => Leads.lift.knowing fun fractional hfractional => ?_
      have hvalues : ∀ entry ∈ fractional, IsFractional entry.2 := fun entry hentry =>
        have ⟨_, _, _, _, _, _, _, _, hvalue, _⟩ := Domain.mem_fractionalColumns hfractional hentry
        ⟨_, hvalue⟩
      refine Leads.ite (fun _ => hprune _) fun _ =>
        (selectColumn_affects solution hvalues).bind fun selection => ?_
      cases selection with
      | column c value =>
          refine Leads.fix fun s hs => Leads.before (P := Affects x t) ?_
            (by rintro _ rfl; exact hs.2)
          exact (branchOn_affects _ _ (hvalues _ (hs.1 c value rfl))).bind fun _ => Keeps.pure
      | infeasible => exact (hprune _).before fun _ hs => hs.2
      | tightened =>
          exact Leads.before (evaluateOnce_affects.bind fun _ =>
            Leads.ite (fun _ => Keeps.pure) fun _ => hprune _) fun _ hs => hs.2

/-- Branching has its effects, and counts no node. -/
theorem branch_affects : Keeps (Affects x t) (branch : SearchStep α ρ σ η τ NodeResult) :=
  branch_leads (branchOnce_affects.after fun result _ hs => by cases result <;> exact hs)

/-- Evaluating a node has its effects, counts the node and tells the condition. -/
theorem evaluate_affects [StopCondition τ] :
    Leads (Affects x t) (evaluate : SearchStep α ρ σ η τ NodeResult)
      fun _ => Affects x ⟨t.nodes + 1, t.condition.nodeProcessed⟩ := by
  refine search_keeps.bind fun search => ?_
  refine Leads.bind (Q := fun _ => Affects x ⟨t.nodes + 1, t.condition⟩)
    (changeStatistics_leads fun s counted hs hcount => ?_) fun _ => ?_
  · simp only [bind_eq_ok, pure_eq_ok] at hcount
    obtain ⟨nodes, hnodes, rfl⟩ := hcount
    obtain ⟨heffects, rfl⟩ := hs
    exact ⟨heffects, congrArg (Tally.mk · _) (count_eq_ok hnodes)⟩
  refine Leads.bind (changeSearch_affects (fun _ => rfl) fun _ => rfl) fun _ =>
    shared_leads.bind fun shared => ?_
  refine Leads.bind (Q := fun _ => Affects x ⟨t.nodes + 1, t.condition.nodeProcessed⟩)
    (Leads.modify fun s hs => ?_) fun _ => evaluateOnce_affects.bind fun result =>
      Leads.ite (fun _ => prune_affects result) fun _ => Keeps.pure
  obtain ⟨rfl, heffects, htally⟩ := hs
  refine ⟨heffects, ?_⟩
  have hnodes : s.search.statistics.nodes = t.nodes + 1 := congrArg Tally.nodes htally
  have hcondition : s.shared.condition = t.condition := congrArg Tally.condition htally
  change Tally.mk s.search.statistics.nodes s.shared.condition.nodeProcessed = _
  rw [hnodes, hcondition]

end Relaxation

end SearchStep

end BranchBound
