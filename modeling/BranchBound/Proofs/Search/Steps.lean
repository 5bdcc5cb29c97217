import BranchBound.Proofs.Action
import BranchBound.Proofs.Domain.Propagation
import BranchBound.Search.Traversal

/-!
# The steps a search is made of

Every operation of a search reads and changes its state through a few primitive steps. What these
do is said here once, for any invariant. Most of the steps only learn something besides the nodes,
the domain and the incumbent; they keep every invariant to which nothing else matters. A step that
looks at what is shared finds it as other searches left it, so it keeps only what no other search
disturbs. Nothing disturbs a search on its own.
-/

namespace BranchBound

open Checked BranchBound.Action

variable {α ρ σ η τ : Type}

/-- The two searches have the same nodes and the same domain, and gave the same nodes up. -/
structure Search.Alike (s s' : Search α ρ) : Prop where
  nodes : s'.nodes = s.nodes
  domain : s'.domain = s.domain
  solution : s'.solution = s.solution
  givenUpBound : s'.givenUpBound = s.givenUpBound
  givenUp : s'.statistics.givenUp = s.statistics.givenUp

theorem Search.Alike.refl (s : Search α ρ) : s.Alike s := ⟨rfl, rfl, rfl, rfl, rfl⟩

/-- The two states have searches that are alike and the same incumbent, and check points alike. -/
structure SearchState.Alike (s s' : SearchState α ρ σ η τ) : Prop
    extends Search.Alike s.search s'.search where
  options : s'.shared.options = s.shared.options
  heuristics : s'.shared.heuristics = s.shared.heuristics
  incumbent : s'.shared.incumbent = s.shared.incumbent

/-- A turn of the other searches does not matter to the predicate. -/
def Undisturbed [Others α σ η τ] (P : SearchState α ρ σ η τ → Prop) : Prop :=
  ∀ ⦃s⦄, P s → P { s with shared := Others.turn s.shared }

theorem Undisturbed.alone {P : SearchState α ρ σ η τ → Prop} : Undisturbed P := fun _ hs => hs

/-- Neither the other searches nor what else there is in a state matter to the predicate. -/
structure Indifferent [Others α σ η τ] (P : SearchState α ρ σ η τ → Prop) : Prop where
  undisturbed : Undisturbed P
  alike : ∀ ⦃s s'⦄, P s → s.Alike s' → P s'

/-- To a search on its own only what else there is in a state may matter. -/
theorem Indifferent.alone {P : SearchState α ρ σ η τ → Prop}
    (h : ∀ ⦃s s'⦄, P s → s.Alike s' → P s') : Indifferent P :=
  ⟨.alone, h⟩

/-- The two searches differ in no more than what is counted and observed. -/
structure Search.Akin (s s' : Search α ρ) : Prop extends Search.Alike s s' where
  relaxation : s'.relaxation = s.relaxation
  improvementExcluded : s'.improvementExcluded = s.improvementExcluded

/-- The two states differ in no more than what is counted, observed and noted. -/
structure SearchState.Akin (s s' : SearchState α ρ σ η τ) : Prop where
  alike : s.Alike s'
  relaxation : s'.search.relaxation = s.search.relaxation
  improvementExcluded : s'.search.improvementExcluded = s.search.improvementExcluded
  pools : s'.shared.pools = s.shared.pools
  cutPool : s'.shared.cutPool = s.shared.cutPool
  conflictPool : s'.shared.conflictPool = s.shared.conflictPool
  separation : s'.shared.separation = s.shared.separation

/-- Neither the other searches nor what is counted, observed and noted matter to the predicate. -/
structure Aloof [Others α σ η τ] (P : SearchState α ρ σ η τ → Prop) : Prop where
  undisturbed : Undisturbed P
  akin : ∀ ⦃s s'⦄, P s → s.Akin s' → P s'

/-- To a search on its own only what is counted, observed and noted may matter. -/
theorem Aloof.alone {P : SearchState α ρ σ η τ → Prop}
    (h : ∀ ⦃s s'⦄, P s → s.Akin s' → P s') : Aloof P :=
  ⟨.alone, h⟩

theorem Indifferent.aloof [Others α σ η τ] {P : SearchState α ρ σ η τ → Prop}
    (h : Indifferent P) : Aloof P :=
  ⟨h.undisturbed, fun _ _ hs hakin => h.alike hs hakin.alike⟩

section Aloof

variable [Others α σ η τ] {P : SearchState α ρ σ η τ → Prop}

theorem Aloof.given (hP : Aloof P) (p : Prop) : Aloof fun s => p ∧ P s :=
  ⟨fun _ hs => ⟨hs.1, hP.undisturbed hs.2⟩, fun _ _ hs hakin => ⟨hs.1, hP.akin hs.2 hakin⟩⟩

theorem Aloof.over (hP : Aloof P) (d : Domain α) : Aloof fun s => s.search.domain = d ∧ P s :=
  ⟨fun _ hs => ⟨hs.1, hP.undisturbed hs.2⟩,
    fun _ _ hs hakin => ⟨hakin.alike.domain.trans hs.1, hP.akin hs.2 hakin⟩⟩

end Aloof

namespace SearchStep

variable {P : SearchState α ρ σ η τ → Prop}

theorem search_leads : Leads P search fun b s => b = s.search ∧ P s := by
  intro s b t hs h
  cases h
  exact ⟨rfl, hs⟩

theorem yield_keeps [Others α σ η τ] (hP : Undisturbed P) : Keeps P yield :=
  Leads.modify fun _ hs => hP hs

theorem shared_finds [Others α σ η τ] (hP : Undisturbed P) :
    Leads P shared fun b s => b = s.shared ∧ P s := by
  refine (yield_keeps hP).bind fun _ => ?_
  intro s b t hs h
  cases h
  exact ⟨rfl, hs⟩

theorem shared_leads : Leads P shared fun b s => b = s.shared ∧ P s := shared_finds .alone

theorem domain_leads : Leads P domain fun b s => b = s.search.domain ∧ P s := by
  intro s b t hs h
  cases h
  exact ⟨rfl, hs⟩

theorem currentNode_leads :
    Leads P currentNode fun b s => (∃ rest, s.search.nodes = b :: rest) ∧ P s := by
  refine search_leads.bind fun search => ?_
  intro s b t hs h
  obtain ⟨rfl, hP⟩ := hs
  split at h
  · next node rest hnodes =>
      cases h
      exact ⟨⟨rest, hnodes⟩, hP⟩
  · cases h

theorem changeSearch_leads {Q : Unit → SearchState α ρ σ η τ → Prop}
    {f : Search α ρ → Search α ρ} (h : ∀ s, P s → Q () { s with search := f s.search }) :
    Leads P (changeSearch f) Q :=
  Leads.modify h

theorem changeNode_leads {Q : Unit → SearchState α ρ σ η τ → Prop}
    {f : SearchNode α → SearchNode α}
    (h : ∀ s node rest, P s → s.search.nodes = node :: rest →
      Q () { s with search := { s.search with nodes := f node :: rest } }) :
    Leads P (changeNode f) Q := by
  refine search_leads.bind fun search => ?_
  split
  · next node rest hnodes =>
      refine changeSearch_leads fun s hs => ?_
      obtain ⟨rfl, hP⟩ := hs
      exact h s node rest hP hnodes
  · exact Leads.throw

theorem changeStatistics_leads {Q : SearchState α ρ σ η τ → Prop}
    {f : SearchStatistics → Checked SearchStatistics}
    (h : ∀ s t, P s → f s.search.statistics = .ok t →
      Q { s with search := { s.search with statistics := t } }) :
    Leads P (changeStatistics f) fun _ => Q := by
  refine search_leads.bind fun search => Leads.lift.bind fun t => changeSearch_leads fun s hs => ?_
  obtain ⟨ht, rfl, hs⟩ := hs
  exact h s t hs ht

section Keeps

theorem search_keeps : Keeps P search := search_leads.after fun _ _ h => h.2

theorem shared_undisturbed [Others α σ η τ] (hP : Undisturbed P) : Keeps P shared :=
  (shared_finds hP).after fun _ _ h => h.2

theorem shared_keeps : Keeps P shared := shared_undisturbed .alone

theorem domain_keeps : Keeps P domain := domain_leads.after fun _ _ h => h.2

theorem currentNode_keeps : Keeps P currentNode := currentNode_leads.after fun _ _ h => h.2

end Keeps

section Domain

variable [Scalar α]

/-- The domain of a state is replaced. -/
def withDomain (s : SearchState α ρ σ η τ) (d : Domain α) : SearchState α ρ σ η τ :=
  { s with search := { s.search with domain := d } }

section Others

variable [Others α σ η τ]

omit [Scalar α] in
theorem changeDomain_leads {Q : SearchState α ρ σ η τ → Prop} (hQ : Indifferent Q)
    {f : Domain α → Checked (Domain α)}
    (h : ∀ s d, P s → f s.search.domain = .ok d → Q (withDomain s d)) :
    Leads P (changeDomain f) fun _ => Q := by
  refine domain_leads.bind fun before => Leads.lift.bind fun after => ?_
  refine Leads.bind (Q := fun _ => Q) ?_ fun _ => ?_
  · refine changeSearch_leads fun s hs => ?_
    obtain ⟨hafter, rfl, hs⟩ := hs
    exact h s after hs hafter
  · refine (shared_finds hQ.undisturbed).bind fun shared => Leads.modify fun s hs => ?_
    obtain ⟨rfl, hs⟩ := hs
    exact hQ.alike hs ⟨.refl _, rfl, rfl, rfl⟩

theorem propagate_undisturbed {Q : Bool → SearchState α ρ σ η τ → Prop} (hP : Undisturbed P)
    (hQ : ∀ b, Indifferent (Q b))
    (h : ∀ s pools d, P s → s.search.domain.propagate s.shared.pools = .ok (pools, d) →
      Q (!d.isInfeasible) (withDomain s d)) : Leads P propagate Q := by
  refine (shared_finds hP).bind fun shared => domain_leads.bind fun d =>
    Leads.lift.bind fun result => ?_
  refine Leads.bind (Q := fun _ s => Q (!result.2.isInfeasible) (withDomain s result.2)) ?_
    fun _ => ?_
  · refine Leads.modify fun s hs => ?_
    obtain ⟨hresult, rfl, rfl, hs⟩ := hs
    simp only [Shared.propagate, bind_eq_ok, pure_eq_ok] at hresult
    obtain ⟨⟨pools, after⟩, hpropagate, rfl⟩ := hresult
    exact (hQ _).alike (h s pools after hs hpropagate) ⟨.refl _, rfl, rfl, rfl⟩
  · exact Leads.bind (Q := fun _ => Q (!result.2.isInfeasible))
      (changeSearch_leads fun s hs => hs) fun _ => Leads.pure fun s hs => hs

end Others

theorem propagate_leads {Q : Bool → SearchState α ρ σ η τ → Prop} (hQ : ∀ b, Indifferent (Q b))
    (h : ∀ s pools d, P s → s.search.domain.propagate s.shared.pools = .ok (pools, d) →
      Q (!d.isInfeasible) (withDomain s d)) : Leads P propagate Q :=
  propagate_undisturbed .alone hQ h

theorem undoLevel_leads {Q : SearchState α ρ σ η τ → Prop}
    (h : ∀ s undone d, P s → s.search.domain.backtrack = .ok (undone, d) → Q (withDomain s d)) :
    Leads P undoLevel fun _ => Q := by
  refine domain_leads.bind fun d => Leads.lift.bind fun result => ?_
  refine changeSearch_leads fun s hs => ?_
  obtain ⟨hback, rfl, hs⟩ := hs
  exact h s result.1 result.2 hs hback

end Domain

section Aloof

variable [Others α σ η τ] (hP : Aloof P)

include hP

theorem changeSearch_aloof {f : Search α ρ → Search α ρ} (h : ∀ s, Search.Akin s (f s)) :
    Keeps P (changeSearch f) :=
  changeSearch_leads fun s hs => hP.akin hs
    ⟨⟨(h s.search).toAlike, rfl, rfl, rfl⟩, (h s.search).relaxation,
      (h s.search).improvementExcluded, rfl, rfl, rfl, rfl⟩

theorem notify_aloof (notice : Notice α) : Keeps P (notify notice) :=
  Leads.modify fun _ hs => hP.akin hs ⟨⟨.refl _, rfl, rfl, rfl⟩, rfl, rfl, rfl, rfl, rfl, rfl⟩

theorem changePseudocost_aloof (f : Pseudocost α → Checked (Pseudocost α)) :
    Keeps P (changePseudocost f) :=
  search_keeps.bind fun _ => Keeps.lift.bind fun _ =>
    changeSearch_aloof hP fun _ => ⟨⟨rfl, rfl, rfl, rfl, rfl⟩, rfl, rfl⟩

/-- A counter may be raised, unless it is that of the nodes which were given up. -/
theorem changeStatistics_aloof {n m : SearchStatistics → Nat}
    {f : SearchStatistics → Nat → SearchStatistics} (h : ∀ t k, (f t k).givenUp = t.givenUp) :
    Keeps P (changeStatistics fun t => return f t (← count 64 (n t) (m t))) :=
  changeStatistics_leads fun s t hs ht => by
    simp only [bind_eq_ok, pure_eq_ok] at ht
    obtain ⟨k, -, rfl⟩ := ht
    exact hP.akin hs ⟨⟨⟨rfl, rfl, rfl, rfl, h _ _⟩, rfl, rfl, rfl⟩, rfl, rfl, rfl, rfl, rfl, rfl⟩

theorem changeConflictStatistics_aloof (f : ConflictStatistics → Checked ConflictStatistics) :
    Keeps P (changeConflictStatistics f) :=
  search_keeps.bind fun _ => Keeps.lift.bind fun _ =>
    changeSearch_aloof hP fun _ => ⟨⟨rfl, rfl, rfl, rfl, rfl⟩, rfl, rfl⟩

theorem shouldStop_aloof [StopCondition τ] : Keeps P shouldStop := by
  refine (shared_finds hP.undisturbed).bind fun shared => ?_
  refine Leads.bind (Q := fun _ => P) (Leads.modify fun s hs => ?_) fun _ => Keeps.pure
  obtain ⟨rfl, hs⟩ := hs
  exact hP.akin hs ⟨⟨.refl _, rfl, rfl, rfl⟩, rfl, rfl, rfl, rfl, rfl, rfl⟩

theorem recordInferences_aloof [Scalar α] : Keeps P recordInferences := by
  refine search_keeps.bind fun s => ?_
  split
  · exact Keeps.pure
  · split
    · exact domain_keeps.bind fun _ => Keeps.lift.bind fun _ => changePseudocost_aloof hP _
    · exact Keeps.pure

theorem firstDirection_aloof [Scalar α] (c : ColumnId) (value : α) :
    Keeps P (firstDirection c value) := by
  refine search_keeps.bind fun s => (shared_undisturbed hP.undisturbed).bind fun shared => ?_
  have hpure (isUp : Bool) : Keeps P (do
      let isUp ← pure isUp
      return if isUp then .up else .down : SearchStep α ρ σ η τ Direction) :=
    Keeps.pure.bind fun _ => Keeps.pure
  dsimp only
  cases shared.options.branching.childSelection with
  | up => exact hpure _
  | down => exact hpure _
  | rootSolution => exact hpure _
  | objective => exact Keeps.lift.bind fun _ => hpure _
  | random =>
      exact Leads.bind (changeSearch_aloof hP fun _ => ⟨⟨rfl, rfl, rfl, rfl, rfl⟩, rfl, rfl⟩)
        fun _ => hpure _
  | bestCost => exact Keeps.lift.bind fun _ => Keeps.lift.bind fun _ => hpure _
  | worstCost => exact Keeps.lift.bind fun _ => Keeps.lift.bind fun _ => hpure _
  | hybridInferenceCost => exact Keeps.lift.bind fun _ => Keeps.lift.bind fun _ => hpure _

end Aloof

section Indifferent

variable [Others α σ η τ] (hP : Indifferent P)

include hP

theorem changeSearch_keeps {f : Search α ρ → Search α ρ} (h : ∀ s, Search.Alike s (f s)) :
    Keeps P (changeSearch f) :=
  changeSearch_leads fun s hs => hP.alike hs ⟨h s.search, rfl, rfl, rfl⟩

theorem notify_keeps (notice : Notice α) : Keeps P (notify notice) :=
  notify_aloof hP.aloof notice

theorem changePseudocost_keeps (f : Pseudocost α → Checked (Pseudocost α)) :
    Keeps P (changePseudocost f) :=
  changePseudocost_aloof hP.aloof f

theorem changeStatistics_keeps {n m : SearchStatistics → Nat}
    {f : SearchStatistics → Nat → SearchStatistics} (h : ∀ t k, (f t k).givenUp = t.givenUp) :
    Keeps P (changeStatistics fun t => return f t (← count 64 (n t) (m t))) :=
  changeStatistics_aloof hP.aloof h

theorem changeConflictStatistics_keeps (f : ConflictStatistics → Checked ConflictStatistics) :
    Keeps P (changeConflictStatistics f) :=
  changeConflictStatistics_aloof hP.aloof f

theorem shouldStop_keeps [StopCondition τ] : Keeps P shouldStop := shouldStop_aloof hP.aloof

section Relaxation

variable [Relaxation ρ α]

theorem recover_keeps : Keeps P recover :=
  search_keeps.bind fun _ => Leads.bind
    (changeSearch_keeps hP fun _ => ⟨rfl, rfl, rfl, rfl, rfl⟩) fun _ => Keeps.pure

theorem warmStart_keeps (basis : Option Basis) : Keeps P (warmStart basis) := by
  cases basis with
  | none => exact Keeps.pure
  | some basis =>
      exact changeSearch_keeps hP (f := fun s => { s with
        relaxation := Relaxation.setBasis s.relaxation basis }) fun _ => ⟨rfl, rfl, rfl, rfl, rfl⟩

end Relaxation

variable [Scalar α]

theorem learn_keeps (conflict : List (BoundChange α)) : Keeps P (learn conflict) := by
  refine Leads.ite (fun _ => (notify_keeps hP _).bind fun _ =>
    changeSearch_keeps hP fun _ => ⟨rfl, rfl, rfl, rfl, rfl⟩) fun _ => ?_
  refine (shared_finds hP.undisturbed).bind fun shared => Leads.lift.bind fun result => ?_
  refine Leads.bind (Q := fun _ => P) (Leads.modify fun s hs => ?_) fun _ =>
    Leads.ite (fun _ => changeConflictStatistics_keeps hP _) fun _ => Keeps.pure
  obtain ⟨hlearn, rfl, hs⟩ := hs
  simp only [Shared.learn, bind_eq_ok, pure_eq_ok] at hlearn
  obtain ⟨_, -, rfl⟩ := hlearn
  exact hP.alike hs ⟨.refl _, rfl, rfl, rfl⟩

theorem analyse_keeps (proof : Option (Inequality α)) : Keeps P (analyse proof) := by
  refine domain_keeps.bind fun d => (shared_undisturbed hP.undisturbed).bind fun shared =>
    Keeps.lift.bind fun set => ?_
  cases set with
  | none => exact changeConflictStatistics_keeps hP _
  | some positions =>
      refine (shared_undisturbed hP.undisturbed).bind fun _ => Keeps.lift.bind fun resolution => ?_
      have hlearn : Keeps P (resolution.conflicts.forM learn) := Keeps.forM (learn_keeps hP) _
      have hrest : Keeps P (do
          if resolution.conflicts.isEmpty then
            changeConflictStatistics fun s => return { s with failures := ← count 64 s.failures 1 }
          resolution.conflicts.forM learn) :=
        Leads.ite (fun _ => (changeConflictStatistics_keeps hP _).bind fun _ => hlearn)
          fun _ => hlearn
      dsimp only
      split
      · exact (notify_keeps hP _).bind fun _ => hrest
      · exact hrest

theorem recordInferences_keeps : Keeps P recordInferences := recordInferences_aloof hP.aloof

omit [Others α σ η τ] hP in
theorem rank_keeps (fractional : List (ColumnId × α)) : Keeps P (rank fractional) :=
  search_keeps.bind fun _ => Keeps.lift

theorem firstDirection_keeps (c : ColumnId) (value : α) : Keeps P (firstDirection c value) :=
  firstDirection_aloof hP.aloof c value

variable [Relaxation ρ α]

omit [Scalar α] in
theorem resolve_keeps : Keeps P resolve :=
  search_keeps.bind fun _ => Leads.bind
    (changeSearch_keeps hP fun _ => ⟨rfl, rfl, rfl, rfl, rfl⟩) fun _ => Keeps.lift

/-- Solving the relaxation never tells that the node was branched on. -/
theorem resolveOnce_leads :
    Leads P resolveOnce fun outcome s => outcome ≠ some (.error .branched) ∧ P s := by
  refine (resolve_keeps hP).bind fun result => ?_
  cases result with
  | optimal solution =>
      exact (changeStatistics_keeps hP (by intros; rfl)).bind fun _ =>
        Leads.pure fun s hs => ⟨by simp, hs⟩
  | infeasible proof =>
      exact (analyse_keeps hP proof).bind fun _ => Leads.pure fun s hs => ⟨by simp, hs⟩
  | unbounded =>
      exact search_keeps.bind fun _ => (notify_keeps hP _).bind fun _ =>
        Leads.pure fun s hs => ⟨by simp, hs⟩
  | numericalTrouble => exact Leads.pure fun s hs => ⟨by simp, hs⟩

theorem resolveNode_leads (retries budget : Nat) :
    Leads P (resolveNode retries budget) fun outcome s => outcome ≠ .error .branched ∧ P s := by
  have hgiveUp (retries : Nat) :
      Leads P (giveUp retries) fun outcome s => outcome ≠ .error .branched ∧ P s :=
    search_keeps.bind fun _ => (notify_keeps hP _).bind fun _ =>
      Leads.pure fun s hs => ⟨by simp, hs⟩
  induction budget generalizing retries with
  | zero =>
      refine (resolveOnce_leads hP).bind fun outcome => ?_
      cases outcome with
      | none => exact (hgiveUp retries).before fun s hs => hs.2
      | some outcome => exact Leads.pure fun s hs => ⟨fun h => hs.1 (congrArg some h), hs.2⟩
  | succ budget ih =>
      refine (resolveOnce_leads hP).bind fun outcome => ?_
      cases outcome with
      | none =>
          refine Leads.before ?_ fun s hs => hs.2
          refine (recover_keeps hP).bind fun recovered => Leads.ite (fun _ => ?_) fun _ =>
            hgiveUp _
          exact (notify_keeps hP _).bind fun _ => ih _
      | some outcome => exact Leads.pure fun s hs => ⟨fun h => hs.1 (congrArg some h), hs.2⟩

theorem boundChild_keeps (parentObjective : α) (decision : Decision α) :
    Keeps P (boundChild parentObjective decision) := by
  refine (changeStatistics_keeps hP (by intros; rfl)).bind fun _ => (resolve_keeps hP).bind
    fun result => ?_
  cases result with
  | optimal child =>
      refine (changeStatistics_keeps hP (by intros; rfl)).bind fun _ => ?_
      refine (changePseudocost_keeps hP _).bind fun _ => (shared_undisturbed hP.undisturbed).bind
        fun _ => ?_
      refine Leads.ite (fun _ => Keeps.pure) fun _ => ?_
      exact (notify_keeps hP _).bind fun _ => Keeps.pure
  | infeasible proof => exact Keeps.pure
  | unbounded => exact Keeps.pure
  | numericalTrouble => exact Keeps.pure

theorem separateNode_keeps [Separator σ α] (solution : RelaxationSolution α) :
    Keeps P (separateNode solution) := by
  refine (shared_undisturbed hP.undisturbed).bind fun _ => search_keeps.bind fun _ =>
    Leads.ite (fun _ => Keeps.pure) fun _ => ?_
  refine domain_keeps.bind fun _ => Keeps.lift.bind fun _ =>
    Leads.ite (fun _ => Keeps.pure) fun _ => ?_
  refine (shared_finds hP.undisturbed).bind fun shared => domain_keeps.bind fun d => Leads.lift.bind
    fun found => ?_
  refine Leads.bind (Q := fun _ => P) (Leads.modify fun s hs => ?_) fun _ => ?_
  · obtain ⟨hseparate, rfl, hs⟩ := hs
    simp only [Shared.separate, bind_eq_ok, pure_eq_ok] at hseparate
    obtain ⟨_, -, ⟨round, after⟩, -, _, -, rfl⟩ := hseparate
    dsimp only
    split
    · exact hP.alike hs ⟨.refl _, rfl, rfl, rfl⟩
    · exact hP.alike hs ⟨.refl _, rfl, rfl, rfl⟩
  · refine Leads.ite (fun _ => Keeps.pure) fun _ =>
      (changeStatistics_keeps hP (by intros; rfl)).bind fun _ => ?_
    exact Leads.bind (changeSearch_keeps hP fun _ => ⟨rfl, rfl, rfl, rfl, rfl⟩) fun _ => Keeps.pure

end Indifferent

/-- Branching keeps what every try keeps, and gives what the last one gives. -/
theorem branch_leads [Scalar α] [Others α σ η τ] [Relaxation ρ α] [Separator σ α] [Proposer η α]
    {Q : NodeResult → SearchState α ρ σ η τ → Prop}
    (h : Leads P branchOnce fun result s => result.elim (P s) fun result => Q result s) :
    Leads P (branch : SearchStep α ρ σ η τ NodeResult) Q := by
  intro s result after hs hbranch
  change (branchOutcome? s).getD (.error .stepsExhausted, s) = (.ok result, after) at hbranch
  cases houtcome : branchOutcome? s with
  | none =>
      rw [houtcome] at hbranch
      cases hbranch
  | some outcome =>
      rw [houtcome, Option.getD_some] at hbranch
      subst hbranch
      refine iterate?_induction (P := fun s => P s → Q result after) (fun t hend ht => ?_)
        (fun t u hnext ih ht => ih ?_) houtcome hs
      · unfold nextBranching at hend
        split at hend
        · cases hend
        · next hperform =>
            cases hend
            exact h t _ _ ht hperform
        · cases hend
      · unfold nextBranching at hnext
        split at hnext
        · cases hnext
        · cases hnext
        · next hperform =>
            cases hnext
            exact h t _ _ ht hperform

section Evaluation

variable [Scalar α] [Others α σ η τ] [Relaxation ρ α] [Separator σ α]

/-- Evaluates the current node up to the solution of its relaxation. -/
def boundCurrent : SearchStep α ρ σ η τ (Bounded α) := do
  changeSearch fun s => { s with solution := none }
  let cutoff := (← shared).cutoff
  changeDomain fun d => return d.setObjectiveCutoff cutoff
  let isFeasible ← propagate
  recordInferences
  if !isFeasible then
    analyse none
    return .error .domainInfeasible
  if (← shared).cutoff < (← currentNode).lowerBound then return .error .boundExceeding
  boundNodeWithCuts

theorem evaluateOnce_eq [Proposer η α] : (evaluateOnce : SearchStep α ρ σ η τ NodeResult) = (do
    match ← boundCurrent with
    | .error result => return result
    | .ok solution => concludeNode solution) := by
  simp only [evaluateOnce, boundCurrent, bind_assoc]
  refine bind_congr fun _ => bind_congr fun _ => bind_congr fun _ => bind_congr fun _ =>
    bind_congr fun _ => ?_
  split
  · rw [bind_assoc]
    rfl
  · simp only [bind_assoc]
    refine bind_congr fun _ => bind_congr fun _ => ?_
    split
    · rw [pure_bind]
    · rfl

end Evaluation

end SearchStep

end BranchBound
