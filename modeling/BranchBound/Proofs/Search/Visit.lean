import BranchBound.Proofs.Search.Effects
import BranchBound.Proofs.Search.StackInStep

/-!
# What a search counts

Evaluating a node is the only thing that a search counts, and it tells the condition about it. The
condition is asked at one place only, before a node is evaluated. Everything else that a search does
leaves both alone: a node that is evaluated again after it was tightened is not counted again.
-/

namespace BranchBound

open Checked BranchBound.Action

variable {α ρ σ η τ : Type}

/-- The tally after the condition was asked and a node was evaluated. -/
def Tally.visited [StopCondition τ] (t : Tally τ) : Tally τ :=
  ⟨t.nodes + 1, t.condition.shouldStop.2.nodeProcessed⟩

namespace Shared

variable {s s' : Shared α σ η τ}

theorem propagate_condition [Scalar α] {d d' : Domain α} (h : s.propagate d = .ok (s', d')) :
    s'.condition = s.condition := by
  simp only [propagate, bind_eq_ok, pure_eq_ok, Prod.mk.injEq] at h
  obtain ⟨_, -, rfl, -⟩ := h
  rfl

theorem ageCuts_condition {used : List CutId} (h : s.ageCuts used = .ok s') :
    s'.condition = s.condition := by
  simp only [ageCuts, bind_eq_ok, pure_eq_ok] at h
  obtain ⟨_, -, rfl⟩ := h
  split
  · rfl
  · rfl

theorem propagate_incumbent [Scalar α] {d d' : Domain α} (h : s.propagate d = .ok (s', d')) :
    s'.incumbent = s.incumbent := by
  simp only [propagate, bind_eq_ok, pure_eq_ok, Prod.mk.injEq] at h
  obtain ⟨_, -, rfl, -⟩ := h
  rfl

theorem ageCuts_incumbent {used : List CutId} (h : s.ageCuts used = .ok s') :
    s'.incumbent = s.incumbent := by
  simp only [ageCuts, bind_eq_ok, pure_eq_ok] at h
  obtain ⟨_, -, rfl⟩ := h
  split
  · rfl
  · rfl

theorem separate_incumbent [Scalar α] [Separator σ α] {d : Domain α}
    {solution : RelaxationSolution α} {violated : List (CutId × Inequality α)}
    (h : s.separate d solution = .ok (violated, s')) : s'.incumbent = s.incumbent := by
  simp only [separate, bind_eq_ok, pure_eq_ok, Prod.mk.injEq] at h
  obtain ⟨_, -, ⟨round, after⟩, -, _, -, -, rfl⟩ := h
  split
  · rfl
  · rfl

theorem ageConflicts_condition (h : s.ageConflicts = .ok s') : s'.condition = s.condition := by
  simp only [ageConflicts, bind_eq_ok, pure_eq_ok] at h
  obtain ⟨_, -, rfl⟩ := h
  split
  · rfl
  · rfl

end Shared

namespace SearchStep

variable {t : Tally τ}

/-- The state has a given tally. -/
abbrev Tallies (t : Tally τ) (s : SearchState α ρ σ η τ) : Prop := s.tally = t

/-- Nothing but the tally and the pools matters to the predicate. -/
def Aside (P : SearchState α ρ σ η τ → Prop) : Prop :=
  ∀ ⦃s s'⦄, P s → s'.tally = s.tally → s'.shared.pools = s.shared.pools → P s'

theorem tallies_aside : Aside (Tallies t : SearchState α ρ σ η τ → Prop) :=
  fun _ _ hs htally _ => htally.trans hs

section Work

variable [Scalar α] [Relaxation ρ α] [Separator σ α] [Proposer η α]

theorem branch_tallies : Keeps (Tallies t) (branch : SearchStep α ρ σ η τ NodeResult) := by
  rintro s result s' rfl h
  exact (branch_affects s result s' ⟨.refl, rfl⟩ h).tally

/-- Evaluating a node counts it and tells the condition. -/
theorem evaluate_tallies [StopCondition τ] :
    Leads (Tallies t) (evaluate : SearchStep α ρ σ η τ NodeResult)
      fun _ => Tallies ⟨t.nodes + 1, t.condition.nodeProcessed⟩ := by
  rintro s result s' rfl h
  exact (evaluate_affects s result s' ⟨.refl, rfl⟩ h).tally

end Work

/-- Asking whether to stop asks the condition. -/
theorem shouldStop_tallies [StopCondition τ] :
    Leads (Tallies t) (shouldStop : SearchStep α ρ σ η τ Bool)
      fun stop s => stop = t.condition.shouldStop.1 ∧
        Tallies ⟨t.nodes, t.condition.shouldStop.2⟩ s := by
  refine shared_leads.bind fun shared => Leads.bind (Q := fun _ s =>
    shared.condition = t.condition ∧ Tallies ⟨t.nodes, t.condition.shouldStop.2⟩ s)
    (Leads.modify fun s hs => ?_) fun _ => Leads.pure fun s hs =>
      ⟨congrArg (fun c => c.shouldStop.1) hs.1, hs.2⟩
  obtain ⟨rfl, hs⟩ := hs
  cases hs
  exact ⟨rfl, rfl⟩

section Traversal

variable {P : SearchState α ρ σ η τ → Prop} (hP : Aside P)
include hP

theorem changeSearch_aside {f : Search α ρ → Search α ρ}
    (h : ∀ s, (f s).statistics.nodes = s.statistics.nodes) : Keeps P (changeSearch f) :=
  changeSearch_leads fun s hs => hP hs (congrArg (Tally.mk · _) (h s.search)) rfl

theorem changeNode_aside (f : SearchNode α → SearchNode α) : Keeps P (changeNode f) :=
  changeNode_leads fun _ _ _ hs _ => hP hs rfl rfl

theorem changeDomain_aside (f : Domain α → Checked (Domain α)) : Keeps P (changeDomain f) := by
  refine domain_keeps.bind fun _ => Keeps.lift.bind fun _ => Leads.bind
    (changeSearch_aside hP fun _ => rfl) fun _ => shared_leads.bind fun shared =>
      Leads.modify fun s hs => ?_
  obtain ⟨rfl, hs⟩ := hs
  exact hP hs rfl rfl

theorem takePending_aside :
    Keeps P (takePending : SearchStep α ρ σ η τ (Option (Decision α))) := by
  refine search_keeps.bind fun s => ?_
  cases s.nodes with
  | nil => exact Keeps.pure
  | cons node rest => exact (changeNode_aside hP _).bind fun _ => Keeps.pure

variable [Scalar α]

theorem popFinished_aside : Keeps P (popFinished : SearchStep α ρ σ η τ Unit) :=
  search_keeps.bind fun _ => Keeps.lift.bind fun _ => changeSearch_aside hP fun _ => rfl

theorem suspendNode_aside : Keeps P (suspendNode : SearchStep α ρ σ η τ (OpenNode α)) :=
  domain_keeps.bind fun _ => currentNode_keeps.bind fun _ => (changeNode_aside hP _).bind fun _ =>
    Leads.bind (changeSearch_aside hP fun _ => rfl) fun _ => (popFinished_aside hP).bind fun _ =>
      Keeps.pure

variable [Relaxation ρ α]

omit [Scalar α] in
theorem warmStart_aside (basis : Option Basis) :
    Keeps P (warmStart basis : SearchStep α ρ σ η τ Unit) := by
  cases basis with
  | none => exact Keeps.pure
  | some basis =>
      exact changeSearch_aside hP (f := fun s => { s with
        relaxation := Relaxation.setBasis s.relaxation basis }) fun _ => rfl

theorem enterChild_aside (decision : Decision α) :
    Keeps P (enterChild decision : SearchStep α ρ σ η τ Unit) :=
  currentNode_keeps.bind fun _ => search_keeps.bind fun _ => Keeps.lift.bind fun _ =>
    Keeps.lift.bind fun _ => (changeNode_aside hP _).bind fun _ => Keeps.lift.bind fun _ =>
      domain_keeps.bind fun _ => (changeDomain_aside hP _).bind fun _ =>
        (warmStart_aside hP _).bind fun _ => changeSearch_aside hP fun _ => rfl

theorem install_aside (node : OpenNode α) :
    Keeps P (install node : SearchStep α ρ σ η τ Unit) :=
  Leads.bind (changeSearch_aside hP fun _ => rfl) fun _ => (changeDomain_aside hP _).bind fun _ =>
    (changeDomain_aside hP _).bind fun _ => (warmStart_aside hP _).bind fun _ =>
      changeSearch_aside hP fun _ => rfl

theorem backtrackWithin_aside (isExhausted : Bool) (suspended : List (OpenNode α)) (steps : Nat) :
    Keeps P (backtrackWithin isExhausted suspended steps :
      SearchStep α ρ σ η τ (Bool × List (OpenNode α))) := by
  induction steps generalizing suspended with
  | zero => exact Leads.throw
  | succ steps ih =>
      refine (popFinished_aside hP).bind fun _ => (takePending_aside hP).bind fun pending => ?_
      cases pending with
      | none => exact Keeps.pure
      | some decision =>
          refine shared_keeps.bind fun _ => currentNode_keeps.bind fun _ => Leads.ite
            (fun _ => (changeNode_aside hP _).bind fun _ => ih _) fun _ =>
              (enterChild_aside hP _).bind fun _ => Leads.ite (fun _ => ?_) fun _ => Keeps.pure
          exact (suspendNode_aside hP).bind fun _ => ih _

theorem backtrackPlunge_aside : Keeps P
    (backtrackPlunge : SearchStep α ρ σ η τ (Bool × List (OpenNode α))) :=
  search_keeps.bind fun _ => shared_keeps.bind fun _ => backtrackWithin_aside hP _ _ _

theorem suspendWithin_aside (suspended : List (OpenNode α)) (steps : Nat) :
    Keeps P (suspendWithin suspended steps : SearchStep α ρ σ η τ (List (OpenNode α))) := by
  induction steps generalizing suspended with
  | zero => exact Leads.throw
  | succ steps ih =>
      refine search_keeps.bind fun s => ?_
      cases s.nodes with
      | nil => exact Keeps.pure
      | cons node rest =>
          refine Leads.ite (fun _ => (suspendNode_aside hP).bind fun _ => ih _) fun _ =>
            (popFinished_aside hP).bind fun _ => (takePending_aside hP).bind fun pending => ?_
          cases pending with
          | none => exact Keeps.pure
          | some decision =>
              exact (enterChild_aside hP _).bind fun _ => (suspendNode_aside hP).bind fun _ => ih _

theorem suspendOpenNodes_aside : Keeps P
    (suspendOpenNodes : SearchStep α ρ σ η τ (List (OpenNode α))) :=
  search_keeps.bind fun _ => (suspendWithin_aside hP _ _).bind fun _ =>
    Leads.bind (changeSearch_aside hP fun _ => rfl) fun _ => Keeps.pure

end Traversal

end SearchStep

end BranchBound

/-!
## Visits of a search

Exploring a subtree asks the condition whether to stop at one place, the head of a visit. A visit
evaluates the current node and ends at the next head: at the child that the node was branched into,
or at the next child that is entered once the node is finished. So an exploration is a number of
visits and a way of leaving, and every visit counts one node.
-/

namespace BranchBound

open Checked BranchBound.Action

variable {α ρ σ η τ : Type} [Scalar α] [Relaxation ρ α] [Separator σ α] [Proposer η α]

namespace SearchStep

variable [StopCondition τ]

/-- The current node was evaluated, and branching on it was tried if it was unsolved; there is no
child of it to go on with. -/
inductive Handled (s : SearchState α ρ σ η τ) : NodeResult → SearchState α ρ σ η τ → Prop
  | evaluated {result : NodeResult} {t : SearchState α ρ σ η τ}
      (hevaluate : evaluate.perform s = (.ok result, t)) (hresult : result ≠ .unsolved) :
      Handled s result t
  | tried {t u : SearchState α ρ σ η τ} {result : NodeResult}
      (hevaluate : evaluate.perform s = (.ok .unsolved, t))
      (hbranch : branch.perform t = (.ok result, u)) (hresult : result ≠ .branched) :
      Handled s result u

/-- From the head of one visit, with the nodes suspended so far, to the head of the next. -/
inductive Visit : List (OpenNode α) × SearchState α ρ σ η τ →
    List (OpenNode α) × SearchState α ρ σ η τ → Prop
  | branched {suspended : List (OpenNode α)} {s t u v : SearchState α ρ σ η τ}
      (hask : shouldStop.perform s = (.ok false, t))
      (hevaluate : evaluate.perform t = (.ok .unsolved, u))
      (hbranch : branch.perform u = (.ok .branched, v)) : Visit (suspended, s) (suspended, v)
  | finished {suspended more : List (OpenNode α)} {s t u v : SearchState α ρ σ η τ}
      {result : NodeResult} (hask : shouldStop.perform s = (.ok false, t))
      (hhandled : Handled t result u) (hresult : result ≠ .unsolved)
      (hopen : u.search.improvementExcluded = false)
      (hback : backtrackPlunge.perform u = (.ok (true, more), v)) :
      Visit (suspended, s) (suspended ++ more, v)

/-- The search leaves the subtree from the head of a last visit: it is asked to stop and suspends
what is open, or it suspends that since nothing can be improved, or no child is left. -/
inductive Leaves (suspended : List (OpenNode α)) (s : SearchState α ρ σ η τ) :
    List (OpenNode α) → SearchState α ρ σ η τ → Prop
  | asked {t u : SearchState α ρ σ η τ} {more : List (OpenNode α)}
      (hask : shouldStop.perform s = (.ok true, t))
      (hsuspend : suspendOpenNodes.perform t = (.ok more, u)) :
      Leaves suspended s (suspended ++ more) u
  | given {t u v : SearchState α ρ σ η τ} {result : NodeResult} {more : List (OpenNode α)}
      (hask : shouldStop.perform s = (.ok false, t)) (hhandled : Handled t result u)
      (hresult : result = .unsolved ∨ u.search.improvementExcluded = true)
      (hsuspend : suspendOpenNodes.perform u = (.ok more, v)) :
      Leaves suspended s (suspended ++ more) v
  | through {t u v : SearchState α ρ σ η τ} {result : NodeResult} {more : List (OpenNode α)}
      (hask : shouldStop.perform s = (.ok false, t)) (hhandled : Handled t result u)
      (hresult : result ≠ .unsolved) (hopen : u.search.improvementExcluded = false)
      (hback : backtrackPlunge.perform u = (.ok (false, more), v)) :
      Leaves suspended s (suspended ++ more) v

/-- The work of a last visit stops with a fault: the node cannot be evaluated or branched on, the
next child cannot be entered, or what is open cannot be suspended. -/
inductive Breaks (s : SearchState α ρ σ η τ) (fault : Fault) : SearchState α ρ σ η τ → Prop
  | evaluating {t u : SearchState α ρ σ η τ} (hask : shouldStop.perform s = (.ok false, t))
      (hevaluate : evaluate.perform t = (.error fault, u)) : Breaks s fault u
  | branching {t u v : SearchState α ρ σ η τ} (hask : shouldStop.perform s = (.ok false, t))
      (hevaluate : evaluate.perform t = (.ok .unsolved, u))
      (hbranch : branch.perform u = (.error fault, v)) : Breaks s fault v
  | backtracking {t u v : SearchState α ρ σ η τ} {result : NodeResult}
      (hask : shouldStop.perform s = (.ok false, t)) (hhandled : Handled t result u)
      (hresult : result ≠ .unsolved) (hopen : u.search.improvementExcluded = false)
      (hback : backtrackPlunge.perform u = (.error fault, v)) : Breaks s fault v
  | stopping {t u : SearchState α ρ σ η τ} (hask : shouldStop.perform s = (.ok true, t))
      (hsuspend : suspendOpenNodes.perform t = (.error fault, u)) : Breaks s fault u
  | suspending {t u v : SearchState α ρ σ η τ} {result : NodeResult}
      (hask : shouldStop.perform s = (.ok false, t)) (hhandled : Handled t result u)
      (hresult : result = .unsolved ∨ u.search.improvementExcluded = true)
      (hsuspend : suspendOpenNodes.perform u = (.error fault, v)) : Breaks s fault v

/-- A dive consists of visits that branch. Then the search is asked to stop, or the node is handled
without a child to go on with. -/
theorem diveWithin_visits {nodes : Nat} {s t : SearchState α ρ σ η τ} {result : NodeResult}
    (suspended : List (OpenNode α)) (h : (diveWithin nodes).perform s = (.ok result, t)) :
    ∃ u, Relation.ReflTransGen Visit (suspended, s) (suspended, u) ∧
      (result = .unsolved ∧ shouldStop.perform u = (.ok true, t) ∨
        ∃ v, shouldStop.perform u = (.ok false, v) ∧ Handled v result t) := by
  induction nodes generalizing s with
  | zero => cases h
  | succ nodes ih =>
      rw [diveWithin] at h
      obtain ⟨stop, asked, hask, h⟩ := perform_bind_eq_ok.mp h
      cases stop with
      | true =>
          cases h
          exact ⟨s, .refl, .inl ⟨rfl, hask⟩⟩
      | false =>
          obtain ⟨evaluated, u, hevaluate, h⟩ := perform_bind_eq_ok.mp h
          split at h
          · next hresult =>
              cases h
              exact ⟨s, .refl, .inr ⟨asked, hask, .evaluated hevaluate (by simpa using hresult)⟩⟩
          · next hunsolved =>
              obtain rfl : evaluated = .unsolved := by simpa using hunsolved
              obtain ⟨outcome, v, hbranch, h⟩ := perform_bind_eq_ok.mp h
              split at h
              · next hresult =>
                  cases h
                  exact ⟨s, .refl,
                    .inr ⟨asked, hask, .tried hevaluate hbranch (by simpa using hresult)⟩⟩
              · next hbranched =>
                  obtain rfl : outcome = .branched := by simpa using hbranched
                  obtain ⟨w, hvisits, hend⟩ := ih h
                  exact ⟨w, .head (.branched hask hevaluate hbranch) hvisits, hend⟩

theorem exploreWithin_visits {dives : Nat} {suspended all : List (OpenNode α)}
    {s t : SearchState α ρ σ η τ} (h : (exploreWithin suspended dives).perform s = (.ok all, t)) :
    ∃ before u, Relation.ReflTransGen Visit (suspended, s) (before, u) ∧ Leaves before u all t := by
  induction dives generalizing suspended s with
  | zero => cases h
  | succ dives ih =>
      rw [exploreWithin] at h
      obtain ⟨result, u, hdive, h⟩ := perform_bind_eq_ok.mp h
      obtain ⟨head, hvisits, hend⟩ := diveWithin_visits suspended hdive
      obtain ⟨search, _, hsearch, h⟩ := perform_bind_eq_ok.mp h
      cases hsearch
      split at h
      · next hleave =>
          obtain ⟨more, v, hsuspend, h⟩ := perform_bind_eq_ok.mp h
          cases h
          refine ⟨suspended, head, hvisits, ?_⟩
          rcases hend with ⟨-, hask⟩ | ⟨asked, hask, hhandled⟩
          · exact .asked hask hsuspend
          · exact .given hask hhandled (by simpa using hleave) hsuspend
      · next hgo =>
          simp only [Bool.or_eq_true, beq_iff_eq, not_or, Bool.not_eq_true] at hgo
          obtain ⟨⟨entered, more⟩, v, hback, h⟩ := perform_bind_eq_ok.mp h
          rcases hend with ⟨hunsolved, -⟩ | ⟨asked, hask, hhandled⟩
          · exact absurd hunsolved hgo.1
          cases entered with
          | false =>
              cases h
              exact ⟨suspended, head, hvisits, .through hask hhandled hgo.1 hgo.2 hback⟩
          | true =>
              obtain ⟨before, w, hmore, hleaves⟩ := ih h
              exact ⟨before, w, (hvisits.tail (.finished hask hhandled hgo.1 hgo.2 hback)).trans
                hmore,
                hleaves⟩

/-- Exploring a subtree consists of visits, from the last head of which the search leaves. -/
theorem solveDepthFirst_visits {s t : SearchState α ρ σ η τ} {all : List (OpenNode α)}
    (h : solveDepthFirst.perform s = (.ok all, t)) :
    ∃ suspended u, Relation.ReflTransGen Visit ([], s) (suspended, u) ∧ Leaves suspended u all t :=
  exploreWithin_visits h

section Tally

variable {s t : SearchState α ρ σ η τ} {suspended suspended' all : List (OpenNode α)}
  {result : NodeResult}

theorem Handled.tally (h : Handled s result t) :
    t.tally = ⟨s.tally.nodes + 1, s.tally.condition.nodeProcessed⟩ := by
  cases h with
  | evaluated hevaluate _ => exact evaluate_tallies _ _ _ rfl hevaluate
  | tried hevaluate hbranch _ =>
      exact branch_tallies _ _ _ (evaluate_tallies _ _ _ rfl hevaluate) hbranch

/-- A visit asks the condition once, which does not ask to stop, and counts one node. -/
theorem Visit.tally (h : Visit (suspended, s) (suspended', t)) :
    s.tally.condition.shouldStop.1 = false ∧ t.tally = s.tally.visited := by
  cases h with
  | branched hask hevaluate hbranch =>
      obtain ⟨hstop, hasked⟩ := shouldStop_tallies _ _ _ rfl hask
      exact ⟨hstop.symm, branch_tallies _ _ _ (evaluate_tallies _ _ _ hasked hevaluate) hbranch⟩
  | finished hask hhandled _ _ hback =>
      obtain ⟨hstop, hasked⟩ := shouldStop_tallies _ _ _ rfl hask
      refine ⟨hstop.symm, backtrackPlunge_aside tallies_aside _ _ _ ?_ hback⟩
      rw [Tallies, hhandled.tally, hasked, Tally.visited]

/-- A search that is asked to stop leaves without another evaluation. -/
theorem Leaves.tally (h : Leaves suspended s all t) :
    s.tally.condition.shouldStop.1 = true ∧
    t.tally = ⟨s.tally.nodes, s.tally.condition.shouldStop.2⟩ ∨
      s.tally.condition.shouldStop.1 = false ∧ t.tally = s.tally.visited := by
  cases h with
  | asked hask hsuspend =>
      obtain ⟨hstop, hasked⟩ := shouldStop_tallies _ _ _ rfl hask
      exact .inl ⟨hstop.symm, suspendOpenNodes_aside tallies_aside _ _ _ hasked hsuspend⟩
  | given hask hhandled _ hsuspend =>
      obtain ⟨hstop, hasked⟩ := shouldStop_tallies _ _ _ rfl hask
      refine .inr ⟨hstop.symm, suspendOpenNodes_aside tallies_aside _ _ _ ?_ hsuspend⟩
      rw [Tallies, hhandled.tally, hasked, Tally.visited]
  | through hask hhandled _ _ hback =>
      obtain ⟨hstop, hasked⟩ := shouldStop_tallies _ _ _ rfl hask
      refine .inr ⟨hstop.symm, backtrackPlunge_aside tallies_aside _ _ _ ?_ hback⟩
      rw [Tallies, hhandled.tally, hasked, Tally.visited]

/-- A node that is evaluated was counted. -/
theorem evaluate_counted (h : evaluate.perform s = (.ok result, t)) :
    s.tally.nodes + 1 < 1 <<< 64 := by
  rw [evaluate] at h
  obtain ⟨depth, _, hdepth, h⟩ := perform_bind_eq_ok.mp h
  cases hdepth
  obtain ⟨_, counted, hcount, -⟩ := perform_bind_eq_ok.mp h
  refine changeStatistics_leads (P := (· = s)) (Q := fun _ => s.tally.nodes + 1 < 1 <<< 64)
    (fun u statistics hu hstatistics => ?_) _ _ _ rfl hcount
  subst hu
  simp only [bind_eq_ok, count] at hstatistics
  obtain ⟨nodes, hnodes, -⟩ := hstatistics
  split at hnodes
  · next hlt => exact hlt
  · cases hnodes

theorem Handled.counted (h : Handled s result t) : s.tally.nodes + 1 < 1 <<< 64 := by
  cases h with
  | evaluated hevaluate _ => exact evaluate_counted hevaluate
  | tried hevaluate _ _ => exact evaluate_counted hevaluate

/-- The node of a visit was counted. -/
theorem Visit.counted (h : Visit (suspended, s) (suspended', t)) : t.tally.nodes < 1 <<< 64 := by
  rw [h.tally.2, Tally.visited]
  cases h with
  | branched hask hevaluate _ =>
      have hasked := (shouldStop_tallies _ _ _ rfl hask).2
      have hcounted := evaluate_counted hevaluate
      rwa [hasked] at hcounted
  | finished hask hhandled _ _ _ =>
      have hasked := (shouldStop_tallies _ _ _ rfl hask).2
      have hcounted := hhandled.counted
      rwa [hasked] at hcounted

/-- Visits take the number of nodes up, and what is counted is within the range of the counter. -/
theorem visits_nodes {x y : List (OpenNode α) × SearchState α ρ σ η τ}
    (h : Relation.ReflTransGen Visit x y) :
    x.2.tally.nodes ≤ y.2.tally.nodes ∧
      (x.2.tally.nodes < y.2.tally.nodes → y.2.tally.nodes < 1 <<< 64) := by
  induction h with
  | refl => exact ⟨Nat.le_refl _, fun hlt => absurd hlt (Nat.lt_irrefl _)⟩
  | tail _ hvisit ih =>
      refine ⟨ih.1.trans ?_, fun _ => hvisit.counted⟩
      rw [hvisit.tally.2, Tally.visited]
      exact Nat.le_succ _

end Tally

section Faults

variable {s t : SearchState α ρ σ η τ} {suspended suspended' : List (OpenNode α)} {fault : Fault}

/-- A dive that stops with a fault does so in a last visit, or it consists of as many visits as it
may be long. -/
theorem diveWithin_breaks {nodes : Nat} (suspended : List (OpenNode α))
    (h : (diveWithin nodes).perform s = (.error fault, t)) :
    ∃ u, Relation.ReflTransGen Visit (suspended, s) (suspended, u) ∧
      (Breaks u fault t ∨ u.tally.nodes = s.tally.nodes + nodes) := by
  induction nodes generalizing s with
  | zero => exact ⟨s, .refl, .inr rfl⟩
  | succ nodes ih =>
      rw [diveWithin] at h
      rcases perform_bind_eq_error.mp h with hask | ⟨stop, asked, hask, h⟩
      · cases hask
      cases stop with
      | true => cases h
      | false =>
          rcases perform_bind_eq_error.mp h with hevaluate | ⟨evaluated, u, hevaluate, h⟩
          · exact ⟨s, .refl, .inl (.evaluating hask hevaluate)⟩
          split at h
          · cases h
          · next hunsolved =>
              obtain rfl : evaluated = .unsolved := by simpa using hunsolved
              rcases perform_bind_eq_error.mp h with hbranch | ⟨outcome, v, hbranch, h⟩
              · exact ⟨s, .refl, .inl (.branching hask hevaluate hbranch)⟩
              split at h
              · cases h
              · next hbranched =>
                  obtain rfl : outcome = .branched := by simpa using hbranched
                  have hvisit : Visit (suspended, s) (suspended, v) :=
                    .branched hask hevaluate hbranch
                  obtain ⟨w, hvisits, hend⟩ := ih h
                  refine ⟨w, .head hvisit hvisits, hend.imp_right fun hcount => ?_⟩
                  rw [hcount, hvisit.tally.2, Tally.visited, Nat.add_right_comm, Nat.add_assoc]

/-- An exploration that stops with a fault does so in a last visit, or there were as many visits as
it may have dives, or as one dive may have. -/
theorem exploreWithin_breaks {dives : Nat}
    (h : (exploreWithin suspended dives).perform s = (.error fault, t)) :
    ∃ before u, Relation.ReflTransGen Visit (suspended, s) (before, u) ∧
      (Breaks u fault t ∨ s.tally.nodes + min dives nodeLimit ≤ u.tally.nodes) := by
  induction dives generalizing suspended s with
  | zero => exact ⟨suspended, s, .refl, .inr (by simp)⟩
  | succ dives ih =>
      rw [exploreWithin] at h
      rcases perform_bind_eq_error.mp h with hdive | ⟨result, u, hdive, h⟩
      · obtain ⟨head, hvisits, hend⟩ := diveWithin_breaks suspended hdive
        exact ⟨suspended, head, hvisits, hend.imp_right fun hcount => by omega⟩
      obtain ⟨head, hvisits, hend⟩ := diveWithin_visits suspended hdive
      rcases perform_bind_eq_error.mp h with hsearch | ⟨search, _, hsearch, h⟩
      · cases hsearch
      cases hsearch
      split at h
      · next hleave =>
          rcases perform_bind_eq_error.mp h with hsuspend | ⟨more, v, -, h⟩
          · refine ⟨suspended, head, hvisits, .inl ?_⟩
            rcases hend with ⟨-, hask⟩ | ⟨asked, hask, hhandled⟩
            · exact .stopping hask hsuspend
            · exact .suspending hask hhandled (by simpa using hleave) hsuspend
          · cases h
      · next hgo =>
          simp only [Bool.or_eq_true, beq_iff_eq, not_or, Bool.not_eq_true] at hgo
          rcases hend with ⟨hunsolved, -⟩ | ⟨asked, hask, hhandled⟩
          · exact absurd hunsolved hgo.1
          rcases perform_bind_eq_error.mp h with hback | ⟨⟨entered, more⟩, v, hback, h⟩
          · exact ⟨suspended, head, hvisits, .inl (.backtracking hask hhandled hgo.1 hgo.2 hback)⟩
          cases entered with
          | false => cases h
          | true =>
              have hvisit : Visit (suspended, head) (suspended ++ more, v) :=
                .finished hask hhandled hgo.1 hgo.2 hback
              obtain ⟨before, w, hmore, hend⟩ := ih h
              refine ⟨before, w, (hvisits.tail hvisit).trans hmore, hend.imp_right fun hcount => ?_⟩
              have hfirst := (visits_nodes hvisits).1
              rw [hvisit.tally.2, Tally.visited] at hcount
              dsimp only at hcount hfirst
              omega

/-- An exploration that stops with a fault does so in the work of a visit. The numbers of dives and
of nodes of a dive are never used up: the counter of the evaluated nodes is before that. -/
theorem solveDepthFirst_breaks (h : solveDepthFirst.perform s = (.error fault, t)) :
    ∃ suspended u, Relation.ReflTransGen Visit ([], s) (suspended, u) ∧ Breaks u fault t := by
  obtain ⟨suspended, u, hvisits, hbreaks | hcount⟩ := exploreWithin_breaks h
  · exact ⟨suspended, u, hvisits, hbreaks⟩
  · rw [Nat.min_self] at hcount
    have hcounted := (visits_nodes hvisits).2
    dsimp only [nodeLimit] at hcount hcounted
    omega

end Faults

section InStep

variable {base : List Nat} {start : List (Child α) × SearchState α ρ σ η τ}
  {s t : SearchState α ρ σ η τ} {suspended suspended' all : List (OpenNode α)} {result : NodeResult}

omit [Relaxation ρ α] [Separator σ α] [Proposer η α] in
theorem asked_settles {stop : Bool} (hask : shouldStop.perform s = (.ok stop, t))
    (hs : Settles base start s) : Settles base start t :=
  (shouldStop_keeps reaches_indifferent) _ _ _ hs hask

theorem evaluated_settles {result : NodeResult} (hevaluate : evaluate.perform s = (.ok result, t))
    (hs : Settles base start s) : Settles base start t :=
  (evaluate_settles _ _ _ hs hevaluate).1.mono fun _ _ hn => hn.1

theorem tried_settles (hevaluate : evaluate.perform s = (.ok .unsolved, t))
    {u : SearchState α ρ σ η τ} (hbranch : branch.perform t = (.ok result, u))
    (hs : Settles base start s) : Settles base start u :=
  (branch_settles _ _ _ ⟨evaluated_settles hevaluate hs,
    (evaluate_settles _ _ _ hs hevaluate).2 rfl⟩ hbranch).mono fun _ _ hn => hn.1

theorem Handled.settles (h : Handled s result t) (hs : Settles base start s) :
    Settles base start t := by
  cases h with
  | evaluated hevaluate _ => exact evaluated_settles hevaluate hs
  | tried hevaluate hbranch _ => exact tried_settles hevaluate hbranch hs

/-- From the head of a visit to that of the next the stack and the domain stay in step, and no child
of the current node is left. -/
theorem Visit.settles (h : Visit (suspended, s) (suspended', t)) (hs : Settles base start s) :
    Settles base start t := by
  cases h with
  | branched hask hevaluate hbranch => exact tried_settles hevaluate hbranch (asked_settles hask hs)
  | finished hask hhandled _ _ hback =>
      exact backtrackPlunge_settles _ _ _ (hhandled.settles (asked_settles hask hs)) hback

theorem Leaves.settles (h : Leaves suspended s all t) (hs : Settles base start s) :
    Settles base start t := by
  cases h with
  | asked hask hsuspend =>
      exact (suspendOpenNodes_exhausts _ _ _ (asked_settles hask hs) hsuspend).1
  | given hask hhandled _ hsuspend =>
      exact (suspendOpenNodes_exhausts _ _ _ (hhandled.settles (asked_settles hask hs)) hsuspend).1
  | through hask hhandled _ _ hback =>
      exact backtrackPlunge_settles _ _ _ (hhandled.settles (asked_settles hask hs)) hback

end InStep

end SearchStep

end BranchBound
