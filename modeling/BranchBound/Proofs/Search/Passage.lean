import BranchBound.Proofs.Domain.Level
import BranchBound.Proofs.Number.Order
import BranchBound.Proofs.Search.Steps
import BranchBound.Search.Traversal

/-!
# Passages of a search

What a search can do is said once, by the relation `Passage`: it changes its domain by changes of
bounds and by undoing them, passes the lower bound of a node on to its children, raises it, gives a
node up, suspends one, and replaces the incumbent by a point that was checked. In between, other
searches have their turns. A record goes along and notes which nodes were given up and which were
suspended. Every operation of a search is put together from passages, so what every passage keeps,
every operation keeps.
-/

namespace BranchBound

open Checked BranchBound.Action

variable {α ρ σ η τ : Type} [Scalar α]

/-- What is noted of a search: the lower bounds of the nodes which it gave up, and the nodes which
it suspended. -/
structure SearchRecord (α : Type) where
  givenUp : List α
  suspended : List (OpenNode α)

/-- Nothing is noted yet. -/
def SearchRecord.empty : SearchRecord α := ⟨[], []⟩

/-- The lower bound of every node is that of a node which was there before, or it was raised from
one. -/
def SearchNode.Raised (nodes nodes' : List (SearchNode α)) : Prop :=
  ∀ n' ∈ nodes', ∃ n ∈ nodes, n'.lowerBound = n.lowerBound ∨
    ∃ objective, n'.lowerBound = Scalar.max n.lowerBound objective

/-- A search that gave up one more node. -/
def Search.giveUp (s : Search α ρ) (bound : α) : Search α ρ :=
  { s with
    givenUpBound := Scalar.min s.givenUpBound bound
    statistics := { s.statistics with givenUp := s.statistics.givenUp + 1 } }

/-- A node over the present domain, as an open node. -/
def Search.openNode (s : Search α ρ) (node : SearchNode α) : OpenNode α :=
  ⟨s.domain.reducedStack.1, s.domain.reducedStack.2, node.lowerBound, node.estimate, node.depth,
    node.basis⟩

/-- The incumbent may have been replaced by points that were checked. -/
inductive Shared.Improves [Proposer η α] (m : Model α) (s : Shared α σ η τ) :
    Shared α σ η τ → Prop
  | submitted {point : Array α} (h : m.check point s.options.feastol = true) :
      Improves m s (s.submit point (m.objectiveValue point)).2
  | proposed {d : Domain α} {solution : RelaxationSolution α} {found : Nat}
      {s' : Shared α σ η τ} (hmodel : d.model = m)
      (h : s.runHeuristics d solution = .ok (found, s')) : Improves m s s'

/-- One thing that a search can do, and what is noted of it, or a turn of the others. -/
inductive Passage [Others α σ η τ] [Proposer η α] : SearchRecord α × SearchState α ρ σ η τ →
    SearchRecord α × SearchState α ρ σ η τ → Prop
  | yielded {r : SearchRecord α} {s : SearchState α ρ σ η τ} :
      Passage (r, s) (r, { s with shared := Others.turn s.shared })
  | alike {r : SearchRecord α} {s s' : SearchState α ρ σ η τ} (h : s.Alike s') :
      Passage (r, s) (r, s')
  | turned {r : SearchRecord α} {s : SearchState α ρ σ η τ} {d : Domain α}
      (h : Domain.Turns s.search.domain d) : Passage (r, s) (r, SearchStep.withDomain s d)
  | solution {r : SearchRecord α} {s : SearchState α ρ σ η τ}
      (solution : Option (RelaxationSolution α)) :
      Passage (r, s) (r, { s with search := { s.search with solution := solution } })
  | raised {r : SearchRecord α} {s : SearchState α ρ σ η τ} {nodes : List (SearchNode α)}
      (h : SearchNode.Raised s.search.nodes nodes) :
      Passage (r, s) (r, { s with search := { s.search with nodes := nodes } })
  | improved {r : SearchRecord α} {s : SearchState α ρ σ η τ} {shared : Shared α σ η τ}
      (h : s.shared.Improves s.search.domain.model shared) :
      Passage (r, s) (r, { s with shared := shared })
  | gaveUp {r : SearchRecord α} {s : SearchState α ρ σ η τ} {node : SearchNode α}
      {rest : List (SearchNode α)} (h : s.search.nodes = node :: rest) :
      Passage (r, s) (⟨r.givenUp ++ [node.lowerBound], r.suspended⟩,
        { s with search := s.search.giveUp node.lowerBound })
  | suspended {r : SearchRecord α} {s : SearchState α ρ σ η τ} {node : SearchNode α}
      {rest : List (SearchNode α)} (h : s.search.nodes = node :: rest) :
      Passage (r, s) (⟨r.givenUp, r.suspended ++ [s.search.openNode node]⟩, s)

/-- What a search can do in several steps. -/
abbrev Passages [Others α σ η τ] [Proposer η α] : SearchRecord α × SearchState α ρ σ η τ →
    SearchRecord α × SearchState α ρ σ η τ → Prop :=
  Relation.ReflTransGen Passage

/-- Passages lead to a state, and meanwhile the given nodes were suspended. -/
def Passes [Others α σ η τ] [Proposer η α] (start : SearchRecord α × SearchState α ρ σ η τ)
    (suspended : List (OpenNode α)) (s : SearchState α ρ σ η τ) : Prop :=
  ∃ givenUp, Passages start (⟨givenUp, suspended⟩, s)

namespace SearchNode

omit [Scalar α] in
theorem Raised.of_bounds [Scalar α] {nodes nodes' : List (SearchNode α)}
    (h : ∀ n' ∈ nodes', ∃ n ∈ nodes, n'.lowerBound = n.lowerBound) : Raised nodes nodes' :=
  fun n' hn' => have ⟨n, hn, hbound⟩ := h n' hn'; ⟨n, hn, .inl hbound⟩

/-- The node on top may change in everything but its lower bound. -/
theorem raised_top {node node' : SearchNode α} (rest : List (SearchNode α))
    (h : node'.lowerBound = node.lowerBound ∨
      ∃ objective, node'.lowerBound = Scalar.max node.lowerBound objective) :
    Raised (node :: rest) (node' :: rest) := by
  intro n hn
  rcases List.mem_cons.mp hn with rfl | hn
  · exact ⟨node, List.mem_cons_self .., h⟩
  · exact ⟨n, List.mem_cons_of_mem _ hn, .inl rfl⟩

end SearchNode

section Passes

variable [Others α σ η τ] [Proposer η α] {start : SearchRecord α × SearchState α ρ σ η τ}
  {suspended : List (OpenNode α)} {s s' : SearchState α ρ σ η τ}

theorem Passes.alike (h : Passes start suspended s) (halike : s.Alike s') :
    Passes start suspended s' :=
  have ⟨givenUp, hs⟩ := h
  ⟨givenUp, hs.tail (.alike halike)⟩

theorem passes_undisturbed : Undisturbed (Passes start suspended) :=
  fun _ ⟨givenUp, hs⟩ => ⟨givenUp, hs.tail .yielded⟩

theorem passes_indifferent : Indifferent (Passes start suspended) :=
  ⟨passes_undisturbed, fun _ _ h => h.alike⟩

theorem Passes.turned (h : Passes start suspended s) {d : Domain α}
    (hturns : Domain.Turns s.search.domain d) :
    Passes start suspended (SearchStep.withDomain s d) :=
  have ⟨givenUp, hs⟩ := h
  ⟨givenUp, hs.tail (.turned hturns)⟩

theorem Passes.solution (h : Passes start suspended s)
    (solution : Option (RelaxationSolution α)) :
    Passes start suspended { s with search := { s.search with solution := solution } } :=
  have ⟨givenUp, hs⟩ := h
  ⟨givenUp, hs.tail (.solution solution)⟩

theorem Passes.raised (h : Passes start suspended s) (nodes : List (SearchNode α))
    (hraised : SearchNode.Raised s.search.nodes nodes) :
    Passes start suspended { s with search := { s.search with nodes := nodes } } :=
  have ⟨givenUp, hs⟩ := h
  ⟨givenUp, hs.tail (.raised hraised)⟩

theorem Passes.improved (h : Passes start suspended s) {shared : Shared α σ η τ}
    (himproves : s.shared.Improves s.search.domain.model shared) :
    Passes start suspended { s with shared := shared } :=
  have ⟨givenUp, hs⟩ := h
  ⟨givenUp, hs.tail (.improved himproves)⟩

end Passes

namespace SearchStep

variable [Others α σ η τ] [Proposer η α] {start : SearchRecord α × SearchState α ρ σ η τ}
  {suspended : List (OpenNode α)}

theorem setSolution_passes (solution : Option (RelaxationSolution α)) :
    Keeps (Passes start suspended)
      (changeSearch fun s => { s with solution := solution }) :=
  changeSearch_leads fun _ hs => hs.solution solution

/-- The current node may change in everything but its lower bound. -/
theorem changeNode_passes {f : SearchNode α → SearchNode α}
    (h : ∀ n, (f n).lowerBound = n.lowerBound) :
    Keeps (Passes start suspended) (changeNode f) :=
  changeNode_leads fun _ node rest hs hnodes => hs.raised _
    (hnodes ▸ SearchNode.raised_top rest (.inl (h node)))

theorem changeDomain_passes {f : Domain α → Checked (Domain α)}
    (h : ∀ d d', f d = .ok d' → Domain.Turns d d') :
    Keeps (Passes start suspended) (changeDomain f) :=
  changeDomain_leads passes_indifferent fun _ _ hs hd => hs.turned (h _ _ hd)

theorem changeBound_passes (change : BoundChange α) (reason : Reason) :
    Keeps (Passes start suspended) (changeDomain fun d => d.changeBound change reason) :=
  changeDomain_passes fun _ _ h => .single (.change h)

theorem propagate_passes : Keeps (Passes start suspended) propagate :=
  propagate_undisturbed passes_undisturbed (fun _ => passes_indifferent) fun _ _ _ hs hpropagate =>
    hs.turned (Domain.propagate_turns hpropagate)

theorem undoLevel_passes : Keeps (Passes start suspended) undoLevel :=
  undoLevel_leads fun _ _ _ hs hback => hs.turned (Domain.backtrack_turns hback)

theorem recordObjective_passes (objective : α) :
    Keeps (Passes start suspended) (recordObjective objective) := by
  refine currentNode_keeps.bind fun node => Leads.bind (Q := fun _ => Passes start suspended)
    (changeNode_leads fun s node rest hs hnodes => hs.raised _ ?_) fun _ => ?_
  · rw [hnodes]
    exact SearchNode.raised_top rest (.inr ⟨objective, rfl⟩)
  · split
    · exact changePseudocost_keeps passes_indifferent _
    · exact Keeps.pure

/-- Only a node that is given up is noted. -/
theorem prune_passes (result : NodeResult) :
    Keeps (Passes start suspended) (prune result) := by
  refine (setSolution_passes none).bind fun _ =>
    Leads.bind (changeNode_passes fun _ => rfl) fun _ => currentNode_leads.bind fun node => ?_
  cases hresult : result == .givenUp with
  | false =>
      refine (changeStatistics_leads (Q := Passes start suspended) fun s t hs ht => ?_).bind
        fun _ => Leads.ite (fun h => nomatch h) fun _ => Keeps.pure
      simp only [bind_eq_ok, pure_eq_ok] at ht
      obtain ⟨leaves, -, boundExceeding, -, givenUp, hgivenUp, rfl⟩ := ht
      exact hs.2.alike ⟨⟨rfl, rfl, rfl, rfl, count_eq_ok hgivenUp⟩, rfl, rfl, rfl⟩
  | true =>
      refine (changeStatistics_leads (Q := fun s => Passes start suspended { s with
        search := { s.search with
          givenUpBound := Scalar.min s.search.givenUpBound node.lowerBound } })
        fun s t hs ht => ?_).bind fun _ => Leads.ite (fun _ => ?_) fun h => absurd rfl h
      · simp only [bind_eq_ok, pure_eq_ok] at ht
        obtain ⟨leaves, -, boundExceeding, -, givenUp, hgivenUp, rfl⟩ := ht
        obtain ⟨⟨rest, hnodes⟩, others, hs⟩ := hs
        exact ⟨_, (hs.tail (.gaveUp hnodes)).tail
          (.alike ⟨⟨rfl, rfl, rfl, rfl, count_eq_ok hgivenUp⟩, rfl, rfl, rfl⟩)⟩
      · exact Leads.bind (Q := fun _ => Passes start suspended) (changeSearch_leads fun _ hs => hs)
          fun _ => Keeps.pure

/-- An integral solution of the relaxation is rounded and checked before it is submitted. -/
theorem submitIntegral_passes (solution : RelaxationSolution α) :
    Keeps (Passes start suspended) (submitIntegral solution) := by
  refine domain_leads.bind fun d => ?_
  refine Leads.bind (Keeps.foldlM (fun _ _ => Keeps.lift) _ _) fun point => ?_
  refine (shared_finds fun _ hs => ⟨hs.1, passes_undisturbed hs.2⟩).bind fun shared =>
    Leads.ite (fun hcheck => ?_) fun _ => ?_
  · refine Leads.bind (Q := fun _ => Passes start suspended) (Leads.modify fun s hs => ?_) fun _ =>
      (changeStatistics_keeps passes_indifferent (by intros; rfl)).bind fun _ => Keeps.pure
    obtain ⟨rfl, rfl, hs⟩ := hs
    exact hs.improved (.submitted hcheck)
  · exact Leads.before ((notify_keeps passes_indifferent _).bind fun _ => Keeps.pure)
      fun s hs => hs.2.2

theorem runHeuristics_passes (solution : RelaxationSolution α) :
    Keeps (Passes start suspended) (runHeuristics solution) := by
  refine (shared_finds passes_undisturbed).bind fun shared => search_leads.bind fun search => ?_
  refine Leads.ite (fun _ => ?_) fun _ => Leads.pure fun s hs => hs.2.2
  refine domain_leads.bind fun d => Leads.lift.bind fun found => ?_
  refine Leads.bind (Q := fun _ => Passes start suspended) (Leads.modify fun s hs => ?_) fun _ =>
    changeStatistics_keeps passes_indifferent (by intros; rfl)
  obtain ⟨hrun, rfl, -, rfl, hs⟩ := hs
  exact hs.improved (.proposed rfl hrun)

theorem concludeNode_passes (solution : RelaxationSolution α) :
    Keeps (Passes start suspended) (concludeNode solution) := by
  have hrest : Keeps (Passes start suspended) (do
      runHeuristics solution
      let fractional ← (← domain).fractionalColumns solution
      if fractional.isEmpty then submitIntegral solution
      else if (← shared).cutoff < solution.objective then return .boundExceeding
      else
        let estimate ← (← search).pseudocost.estimate solution fractional
        changeNode fun node => { node with estimate := estimate }
        changeSearch fun s => { s with solution := some solution }
        return .unsolved : SearchStep α ρ σ η τ NodeResult) := by
    refine (runHeuristics_passes solution).bind fun _ => domain_keeps.bind fun _ =>
      Keeps.lift.bind fun fractional => ?_
    refine Leads.ite (fun _ => submitIntegral_passes solution) fun _ => ?_
    refine (shared_undisturbed passes_undisturbed).bind fun _ =>
      Leads.ite (fun _ => Keeps.pure) fun _ => ?_
    refine search_keeps.bind fun _ => Keeps.lift.bind fun _ => ?_
    exact Leads.bind (changeNode_passes fun _ => rfl) fun _ =>
      (setSolution_passes (some solution)).bind fun _ => Keeps.pure
  exact Leads.ite (fun _ => Leads.bind (changeNode_passes fun _ => rfl) fun _ => hrest)
    fun _ => hrest

section Evaluation

variable [Relaxation ρ α]

theorem boundNode_passes : Keeps (Passes start suspended) boundNode := by
  refine (shared_undisturbed passes_undisturbed).bind fun _ =>
    ((resolveNode_leads passes_indifferent _ _).after
    fun _ _ h => h.2).bind fun outcome => ?_
  cases outcome with
  | error result => exact Keeps.pure
  | ok solution =>
      refine (recordObjective_passes _).bind fun _ => (shared_undisturbed passes_undisturbed).bind
        fun _ => ?_
      exact Leads.ite (fun _ => Keeps.pure) fun _ => Keeps.pure

variable [Separator σ α]

theorem boundNodeWithCuts_passes : Keeps (Passes start suspended) boundNodeWithCuts := by
  refine boundNode_passes.bind fun outcome => ?_
  cases outcome with
  | error result => exact Keeps.pure
  | ok solution =>
      refine (separateNode_keeps passes_indifferent solution).bind fun separated =>
        Leads.ite (fun _ => ?_) fun _ => Keeps.pure
      refine propagate_passes.bind fun isFeasible => Leads.ite (fun _ => boundNode_passes)
        fun _ => ?_
      exact (analyse_keeps passes_indifferent none).bind fun _ => Keeps.pure

theorem boundCurrent_passes : Keeps (Passes start suspended) boundCurrent := by
  refine (setSolution_passes none).bind fun _ => (shared_undisturbed passes_undisturbed).bind
    fun _ => ?_
  refine (changeDomain_passes fun d d' h => ?_).bind fun _ => ?_
  · rw [← pure_eq_ok.mp h, Domain.setObjectiveCutoff_eq]
    exact .keep rfl rfl rfl rfl
  refine propagate_passes.bind fun isFeasible =>
    (recordInferences_keeps passes_indifferent).bind fun _ => ?_
  refine Leads.ite (fun _ => (analyse_keeps passes_indifferent none).bind fun _ => Keeps.pure)
    fun _ => ?_
  exact (shared_undisturbed passes_undisturbed).bind fun _ => currentNode_keeps.bind fun _ =>
    Leads.ite (fun _ => Keeps.pure) fun _ => boundNodeWithCuts_passes

theorem evaluateOnce_passes : Keeps (Passes start suspended) evaluateOnce := by
  rw [evaluateOnce_eq]
  refine boundCurrent_passes.bind fun outcome => ?_
  cases outcome with
  | error result => exact Keeps.pure
  | ok solution => exact concludeNode_passes solution

theorem evaluate_passes [StopCondition τ] : Keeps (Passes start suspended) evaluate := by
  refine search_keeps.bind fun _ => ?_
  refine (changeStatistics_keeps passes_indifferent (by intros; rfl)).bind fun _ => ?_
  refine Leads.bind (changeSearch_keeps passes_indifferent fun _ => ⟨rfl, rfl, rfl, rfl, rfl⟩)
    fun _ => (shared_finds passes_undisturbed).bind fun shared => ?_
  refine Leads.bind (Q := fun _ => Passes start suspended) (Leads.modify fun s hs => ?_) fun _ => ?_
  · obtain ⟨rfl, hs⟩ := hs
    exact hs.alike ⟨.refl _, rfl, rfl, rfl⟩
  · refine evaluateOnce_passes.bind fun result => ?_
    exact Leads.ite (fun _ => prune_passes result) fun _ => Keeps.pure

end Evaluation

end SearchStep

end BranchBound

/-!
## Walking through a subtree by passages

Branching, backtracking and suspending are put together from passages, too. A child starts with the
lower bound of its parent, and what is suspended is noted in the order in which it is returned.
-/

namespace BranchBound

open Checked BranchBound.Action

variable {α ρ σ η τ : Type} [Scalar α]

namespace SearchStep

variable [Others α σ η τ] [Proposer η α] {start : SearchRecord α × SearchState α ρ σ η τ}
  {suspended : List (OpenNode α)}

section Branching

/-- Passages lead to a state in which some node has a given lower bound. -/
def Offers (start : SearchRecord α × SearchState α ρ σ η τ) (suspended : List (OpenNode α))
    (bound : α) (s : SearchState α ρ σ η τ) : Prop :=
  Passes start suspended s ∧ ∃ n ∈ s.search.nodes, n.lowerBound = bound

theorem offers_indifferent {bound : α} : Indifferent (Offers start suspended bound) :=
  ⟨fun _ hs => ⟨passes_undisturbed hs.1, hs.2⟩,
    fun _ _ hs h => ⟨hs.1.alike h, by rw [h.nodes]; exact hs.2⟩⟩

variable [Relaxation ρ α]

theorem tryChild_passes (solution : RelaxationSolution α) (c : ColumnId) (value : α)
    (direction : Direction) :
    Keeps (Passes start suspended) (tryChild solution c value direction) := by
  refine (changeBound_passes _ _).bind fun _ => propagate_passes.bind fun isFeasible => ?_
  have hundo (outcome : ChildOutcome α) : Keeps (Passes start suspended) (do
      undoLevel
      return outcome : SearchStep α ρ σ η τ (ChildOutcome α)) :=
    undoLevel_passes.bind fun _ => Keeps.pure
  refine Leads.ite (fun _ => ?_) fun _ => Keeps.pure.bind hundo
  exact (boundChild_keeps passes_indifferent _ _).bind hundo

theorem tryCandidates_passes (solution : RelaxationSolution α) (candidates : List (Candidate α)) :
    Keeps (Passes start suspended) (tryCandidates solution candidates) := by
  induction candidates with
  | nil => exact Keeps.pure
  | cons candidate rest ih =>
      refine (tryChild_passes _ _ _ _).bind fun down => (tryChild_passes _ _ _ _).bind fun up => ?_
      have htightened (decision : Decision α) : Keeps (Passes start suspended) (do
          tighten decision
          return some .tightened : SearchStep α ρ σ η τ (Option (Selection α))) :=
        Leads.bind (changeBound_passes _ _) fun _ => Keeps.pure
      cases down <;> cases up
      · exact Keeps.pure
      · exact htightened _
      · exact htightened _
      · exact htightened _
      · exact ih
      · exact ih
      · exact htightened _
      · exact ih
      · exact ih

theorem selectColumn_passes (solution : RelaxationSolution α)
    (fractional : List (ColumnId × α)) :
    Keeps (Passes start suspended) (selectColumn solution fractional) := by
  refine (shared_undisturbed passes_undisturbed).bind fun _ => (rank_keeps _).bind fun ranked => ?_
  refine Leads.ite (fun _ => Keeps.pure) fun _ => search_keeps.bind fun _ => ?_
  refine Keeps.lift.bind fun unreliable => (tryCandidates_passes _ _).bind fun selection => ?_
  cases selection with
  | some selection => exact Keeps.pure
  | none =>
      refine currentNode_keeps.bind fun node =>
        Leads.bind (warmStart_keeps passes_indifferent _) fun _ => ?_
      exact (rank_keeps _).bind fun _ => Keeps.pure

/-- A child starts with the lower bound of its parent. -/
theorem enterChild_passes (decision : Decision α) :
    Keeps (Passes start suspended) (enterChild decision) := by
  refine currentNode_leads.bind fun parent => search_keeps.bind fun _ => ?_
  refine Keeps.lift.bind fun _ => Keeps.lift.bind fun openSubtrees => ?_
  refine Leads.bind (Q := fun _ => Offers start suspended parent.lowerBound)
    (changeNode_leads fun s node rest hs hnodes => ?_) fun _ => ?_
  · obtain ⟨⟨below, hparent⟩, hs⟩ := hs
    obtain ⟨rfl, rfl⟩ := List.cons.inj (hparent.symm.trans hnodes)
    exact ⟨hs.raised _ (hnodes ▸ SearchNode.raised_top _ (.inl rfl)), _, List.mem_cons_self .., rfl⟩
  refine Keeps.lift.bind fun _ => domain_keeps.bind fun _ => ?_
  refine Leads.bind (Q := fun _ => Offers start suspended parent.lowerBound)
    (changeDomain_leads offers_indifferent fun s d hs hchange =>
      ⟨hs.1.turned (.single (.change hchange)), hs.2⟩) fun _ => ?_
  refine Leads.bind (warmStart_keeps offers_indifferent _) fun _ =>
    changeSearch_leads fun s hs => ?_
  obtain ⟨hs, parent', hparent, hbound⟩ := hs
  refine hs.raised _ (SearchNode.Raised.of_bounds fun n hn => ?_)
  rcases List.mem_cons.mp hn with rfl | hn
  · exact ⟨parent', hparent, hbound.symm⟩
  · exact ⟨n, hn, rfl⟩

theorem branchOn_passes (solution : RelaxationSolution α) (c : ColumnId) (value : α) :
    Keeps (Passes start suspended) (branchOn solution c value) := by
  have hsplit (first second : Decision α) :
      Keeps (Passes start suspended) (splitNode first second) :=
    Leads.bind (changeNode_passes fun _ => rfl) fun _ => enterChild_passes _
  refine (firstDirection_keeps passes_indifferent _ _).bind fun direction => ?_
  cases direction with
  | down => exact hsplit _ _
  | up => exact hsplit _ _

variable [Separator σ α]

theorem branchOnce_passes : Keeps (Passes start suspended) branchOnce := by
  have hprune (result : NodeResult) : Keeps (Passes start suspended) (do
      return some (← prune result) : SearchStep α ρ σ η τ (Option NodeResult)) :=
    (prune_passes result).bind fun _ => Keeps.pure
  refine search_keeps.bind fun s => (setSolution_passes none).bind fun _ => ?_
  cases s.solution with
  | none => exact hprune _
  | some solution =>
      refine domain_keeps.bind fun _ => Keeps.lift.bind fun fractional => ?_
      refine Leads.ite (fun _ => hprune _) fun _ =>
        (selectColumn_passes _ _).bind fun selection => ?_
      cases selection with
      | column c value => exact (branchOn_passes _ _ _).bind fun _ => Keeps.pure
      | infeasible => exact hprune _
      | tightened =>
          exact evaluateOnce_passes.bind fun result =>
            Leads.ite (fun _ => Keeps.pure) fun _ => hprune _

theorem branch_passes : Keeps (Passes start suspended) branch := by
  refine branch_leads (branchOnce_passes.after fun result s hs => ?_)
  cases result with
  | none => exact hs
  | some result => exact hs

end Branching

section Traversal

omit [Proposer η α] in
/-- Removing finished nodes takes nodes off the stack and undoes what they decided. -/
theorem dropFinished_eq_ok {nodes rest : List (SearchNode α)} {d d' : Domain α}
    (h : dropFinished nodes d = .ok (rest, d')) : rest <:+ nodes ∧ Domain.Turns d d' := by
  induction nodes generalizing d with
  | nil =>
      cases h
      exact ⟨List.suffix_rfl, .refl⟩
  | cons node nodes ih =>
      rw [dropFinished] at h
      split at h
      · cases h
        exact ⟨List.suffix_rfl, .refl⟩
      · dsimp only at h
        split at h
        · simp only [bind_eq_ok, pure_eq_ok] at h
          obtain ⟨undone, hback, _, rfl, h⟩ := h
          obtain ⟨hrest, hturns⟩ := ih h
          exact ⟨hrest.trans (List.suffix_cons ..), (Domain.backtrack_turns hback).trans hturns⟩
        · obtain ⟨hrest, hturns⟩ := ih h
          exact ⟨hrest.trans (List.suffix_cons ..), hturns⟩

theorem popFinished_passes : Keeps (Passes start suspended) popFinished := by
  refine search_leads.bind fun search => Leads.lift.bind fun kept =>
    changeSearch_leads fun s hs => ?_
  obtain ⟨hdrop, rfl, hs⟩ := hs
  obtain ⟨hrest, hturns⟩ := dropFinished_eq_ok hdrop
  have hkept := hs.raised kept.1
    (SearchNode.Raised.of_bounds fun n hn => ⟨n, hrest.subset hn, rfl⟩)
  exact hkept.turned hturns

theorem takePending_passes : Keeps (Passes start suspended) takePending := by
  refine search_keeps.bind fun s => ?_
  cases s.nodes with
  | nil => exact Keeps.pure
  | cons node rest => exact Leads.bind (changeNode_passes fun _ => rfl) fun _ => Keeps.pure

/-- The node that is returned is noted. -/
theorem suspendNode_passes :
    Leads (Passes start suspended) suspendNode fun node => Passes start (suspended ++ [node]) := by
  refine domain_leads.bind fun d => currentNode_leads.bind fun node => ?_
  let noted : OpenNode α := ⟨d.reducedStack.1, d.reducedStack.2, node.lowerBound, node.estimate,
    node.depth, node.basis⟩
  refine Leads.bind (Q := fun _ => Passes start (suspended ++ [noted]))
    (changeNode_leads fun s top below hs hnodes => ?_) fun _ => ?_
  · obtain ⟨⟨rest, htop⟩, rfl, others, hs⟩ := hs
    obtain ⟨rfl, rfl⟩ := List.cons.inj (htop.symm.trans hnodes)
    have hnoted : Passes start (suspended ++ [noted]) s := ⟨others, hs.tail (.suspended htop)⟩
    exact hnoted.raised _ (hnodes ▸ SearchNode.raised_top _ (.inl rfl))
  · exact (setSolution_passes none).bind fun _ => popFinished_passes.bind fun _ =>
      Leads.pure fun _ hs => hs

variable [Relaxation ρ α]

theorem backtrackWithin_passes (isExhausted : Bool) (before : List (OpenNode α)) (steps : Nat) :
    Leads (Passes start (before ++ suspended)) (backtrackWithin isExhausted suspended steps)
      fun next => Passes start (before ++ next.2) := by
  induction steps generalizing suspended with
  | zero => exact Leads.throw
  | succ steps ih =>
      refine popFinished_passes.bind fun _ => takePending_passes.bind fun pending => ?_
      cases pending with
      | none => exact Leads.pure fun _ hs => hs
      | some decision =>
          refine (shared_undisturbed passes_undisturbed).bind fun _ => currentNode_keeps.bind
            fun _ =>
            Leads.ite (fun _ => ?_) fun _ => ?_
          · exact Leads.bind (changeNode_passes fun _ => rfl) fun _ => ih
          · refine (enterChild_passes _).bind fun _ => Leads.ite (fun _ => ?_) fun _ =>
              Leads.pure fun _ hs => hs
            refine suspendNode_passes.bind fun node => ?_
            rw [List.append_assoc]
            exact ih

theorem backtrackPlunge_passes :
    Leads (Passes start suspended) backtrackPlunge
      fun next => Passes start (suspended ++ next.2) :=
  search_keeps.bind fun _ => (shared_undisturbed passes_undisturbed).bind fun _ =>
    (backtrackWithin_passes _ _ _).before fun _ hs => by rwa [List.append_nil]

theorem suspendWithin_passes (before : List (OpenNode α)) (steps : Nat) :
    Leads (Passes start (before ++ suspended)) (suspendWithin suspended steps)
      fun all => Passes start (before ++ all) := by
  have hnext (suspended : List (OpenNode α)) (steps : Nat)
      (ih : ∀ suspended, Leads (Passes start (before ++ suspended)) (suspendWithin suspended steps)
        fun all => Passes start (before ++ all)) :
      Leads (Passes start (before ++ suspended)) (do
        let node ← suspendNode
        suspendWithin (suspended ++ [node]) steps) fun all => Passes start (before ++ all) := by
    refine suspendNode_passes.bind fun node => ?_
    rw [List.append_assoc]
    exact ih _
  induction steps generalizing suspended with
  | zero => exact Leads.throw
  | succ steps ih =>
      refine search_keeps.bind fun s => ?_
      cases s.nodes with
      | nil => exact Leads.pure fun _ hs => hs
      | cons node rest =>
          refine Leads.ite (fun _ => hnext _ _ fun _ => ih) fun _ => ?_
          refine popFinished_passes.bind fun _ => takePending_passes.bind fun pending => ?_
          cases pending with
          | none => exact Leads.pure fun _ hs => hs
          | some decision => exact (enterChild_passes _).bind fun _ => hnext _ _ fun _ => ih

theorem suspendOpenNodes_passes :
    Leads (Passes start suspended) suspendOpenNodes fun more =>
      Passes start (suspended ++ more) := by
  refine search_keeps.bind fun _ => Leads.bind ((suspendWithin_passes suspended _).before
    fun _ hs => by rwa [List.append_nil]) fun more => ?_
  refine Leads.bind (Q := fun _ => Passes start (suspended ++ more))
    (changeSearch_leads fun s hs => hs.raised [] nofun) fun _ =>
      Leads.pure fun _ hs => hs

variable [Separator σ α] [StopCondition τ]

theorem diveWithin_passes (nodes : Nat) : Keeps (Passes start suspended) (diveWithin nodes) := by
  induction nodes with
  | zero => exact Leads.throw
  | succ nodes ih =>
      refine (shouldStop_keeps passes_indifferent).bind fun stop =>
        Leads.ite (fun _ => Keeps.pure) fun _ => ?_
      refine evaluate_passes.bind fun result => Leads.ite (fun _ => Keeps.pure) fun _ => ?_
      exact branch_passes.bind fun result => Leads.ite (fun _ => Keeps.pure) fun _ => ih

theorem exploreWithin_passes (before : List (OpenNode α)) (dives : Nat) :
    Leads (Passes start (before ++ suspended)) (exploreWithin suspended dives)
      fun all => Passes start (before ++ all) := by
  induction dives generalizing suspended with
  | zero => exact Leads.throw
  | succ dives ih =>
      refine (diveWithin_passes _).bind fun result => search_keeps.bind fun _ =>
        Leads.ite (fun _ => ?_) fun _ => ?_
      · refine suspendOpenNodes_passes.bind fun more => Leads.pure fun _ hs => ?_
        rwa [← List.append_assoc]
      · refine backtrackPlunge_passes.bind fun next => ?_
        rw [List.append_assoc]
        exact Leads.ite (fun _ => ih) fun _ => Leads.pure fun _ hs => hs

/-- Exploring a subtree is put together from passages, which note the nodes that it returns. -/
theorem solveDepthFirst_passages {s t : SearchState α ρ σ η τ} {all : List (OpenNode α)}
    (h : solveDepthFirst.perform s = (.ok all, t)) :
    ∃ givenUp, Passages (.empty, s) (⟨givenUp, all⟩, t) :=
  have hexplore : (exploreWithin [] nodeLimit).perform s = (.ok all, t) := h
  exploreWithin_passes [] _ s all t ⟨[], .refl⟩ hexplore

end Traversal

end SearchStep

/-! ### Lower bounds in a subtree

The lower bounds of the nodes of a search only rise on the way down: a child starts with the lower
bound of its parent, and a relaxation can only raise it. So everything that a search gives up or
suspends has at least the lower bound of the node that was installed. What it gave up is counted,
and the smallest lower bound of it is kept. -/

/-- No lower bound of a search is below a given number: not of a node on its stack, not of a node
that it gave up, and not of one that it suspended. -/
structure BoundedBelow (bound : α) (x : SearchRecord α × SearchState α ρ σ η τ) : Prop where
  nodes : ∀ n ∈ x.2.search.nodes, bound ≤ n.lowerBound
  givenUp : ∀ b ∈ x.1.givenUp, bound ≤ b
  suspended : ∀ n ∈ x.1.suspended, bound ≤ n.lowerBound

/-- The record tells how many nodes a search gave up since an earlier state, and the smallest of
their lower bounds. -/
structure Accounted (s : Search α ρ) (x : SearchRecord α × SearchState α ρ σ η τ) : Prop where
  bound : x.2.search.givenUpBound = x.1.givenUp.foldl Scalar.min s.givenUpBound
  number : x.2.search.statistics.givenUp = s.statistics.givenUp + x.1.givenUp.length

variable [Others α σ η τ] [Proposer η α] {x y : SearchRecord α × SearchState α ρ σ η τ}

theorem Passage.boundedBelow [Scalar.Ordered α] {bound : α} (h : Passage x y)
    (hx : BoundedBelow bound x) : BoundedBelow bound y := by
  cases h with
  | yielded => exact ⟨hx.nodes, hx.givenUp, hx.suspended⟩
  | alike h => exact ⟨by rw [h.nodes]; exact hx.nodes, hx.givenUp, hx.suspended⟩
  | turned _ => exact ⟨hx.nodes, hx.givenUp, hx.suspended⟩
  | solution _ => exact ⟨hx.nodes, hx.givenUp, hx.suspended⟩
  | raised h =>
      refine ⟨fun n' hn' => ?_, hx.givenUp, hx.suspended⟩
      obtain ⟨n, hn, hsame | ⟨objective, hraised⟩⟩ := h n' hn'
      · rw [hsame]
        exact hx.nodes n hn
      · rw [hraised]
        exact Scalar.le_max (hx.nodes n hn) objective
  | improved _ => exact ⟨hx.nodes, hx.givenUp, hx.suspended⟩
  | gaveUp h =>
      refine ⟨hx.nodes, fun b hb => ?_, hx.suspended⟩
      rcases List.mem_append.mp hb with hb | hb
      · exact hx.givenUp b hb
      · rw [List.mem_singleton.mp hb]
        exact hx.nodes _ (h ▸ List.mem_cons_self ..)
  | suspended h =>
      refine ⟨hx.nodes, hx.givenUp, fun n hn => ?_⟩
      rcases List.mem_append.mp hn with hn | hn
      · exact hx.suspended n hn
      · rw [List.mem_singleton.mp hn]
        exact hx.nodes _ (h ▸ List.mem_cons_self ..)

theorem Passages.boundedBelow [Scalar.Ordered α] {bound : α} (h : Passages x y)
    (hx : BoundedBelow bound x) : BoundedBelow bound y := by
  induction h with
  | refl => exact hx
  | tail _ hpassage ih => exact hpassage.boundedBelow ih

theorem Passage.accounted {s : Search α ρ} (h : Passage x y) (hx : Accounted s x) :
    Accounted s y := by
  cases h with
  | yielded => exact ⟨hx.bound, hx.number⟩
  | alike h => exact ⟨h.givenUpBound.trans hx.bound, h.givenUp.trans hx.number⟩
  | turned _ => exact ⟨hx.bound, hx.number⟩
  | solution _ => exact ⟨hx.bound, hx.number⟩
  | raised _ => exact ⟨hx.bound, hx.number⟩
  | improved _ => exact ⟨hx.bound, hx.number⟩
  | gaveUp _ =>
      refine ⟨?_, ?_⟩
      · rw [List.foldl_append, ← hx.bound]
        rfl
      · rw [List.length_append, ← Nat.add_assoc, ← hx.number]
        rfl
  | suspended _ => exact ⟨hx.bound, hx.number⟩

theorem Passages.accounted {s : Search α ρ} (h : Passages x y) (hx : Accounted s x) :
    Accounted s y := by
  induction h with
  | refl => exact hx
  | tail _ hpassage ih => exact hpassage.accounted ih

omit [Proposer η α] in
/-- Installing a node makes it the only one and gives nothing up. -/
theorem SearchStep.install_accounted [Relaxation ρ α] {s t : SearchState α ρ σ η τ}
    {node : OpenNode α} (h : (install node).perform s = (.ok (), t)) :
    (∃ n, t.search.nodes = [n] ∧ n.lowerBound = node.lowerBound) ∧
      t.search.givenUpBound = s.search.givenUpBound ∧
      t.search.statistics.givenUp = s.search.statistics.givenUp := by
  let Same : SearchState α ρ σ η τ → Prop := fun t =>
    t.search.givenUpBound = s.search.givenUpBound ∧
      t.search.statistics.givenUp = s.search.statistics.givenUp
  have hsame : Indifferent Same :=
    ⟨fun _ ht => ht, fun _ _ ht h => ⟨h.givenUpBound.trans ht.1, h.givenUp.trans ht.2⟩⟩
  have hinstall : Leads Same (install node) fun _ t =>
      (∃ n, t.search.nodes = [n] ∧ n.lowerBound = node.lowerBound) ∧ Same t := by
    refine Leads.bind (Q := fun _ => Same) (changeSearch_leads fun _ ht => ht) fun _ => ?_
    refine (changeDomain_leads hsame fun _ _ ht _ => ht).bind fun _ => ?_
    refine (changeDomain_leads hsame fun _ _ ht _ => ht).bind fun _ => ?_
    refine (warmStart_keeps hsame _).bind fun _ => changeSearch_leads fun t ht => ?_
    exact ⟨⟨_, rfl, rfl⟩, ht⟩
  exact hinstall s () t ⟨rfl, rfl⟩ h

end BranchBound
