import BranchBound.Proofs.Search.DescentRuns

/-!
# The tree search ends

The integer columns of a model with finite bounds have a box of whole numbers, and the search makes
it narrower whenever it enters a child and whenever it tightens a node that it branches on again. So
branching on a node ends, no path of the tree is longer than the box of the installed node is wide,
and the number of visits is limited, whatever the relaxation, the separators, the heuristics and the
condition of the user answer.
-/

namespace BranchBound

open Checked BranchBound.Action

/-- Moves leave the tolerance of the domain alone. -/
theorem Moves.feastol {α ρ σ η τ : Type} [Scalar α]
    {x y : List (Child α) × SearchState α ρ σ η τ} (h : Moves x y) :
    y.2.search.domain.feastol = x.2.search.domain.feastol := by
  induction h with
  | refl => rfl
  | tail _ hmove ih =>
      refine Eq.trans ?_ ih
      cases hmove with
      | works h => exact h.turns.constant.2
      | finished h => exact congrArg Domain.feastol h.domain
      | popped h =>
          obtain ⟨node, -, -, -, hdomain⟩ := h.nodes
          split at hdomain
          · obtain ⟨undone, hback⟩ := hdomain
            exact (Domain.backtrack_turns hback).constant.2
          · exact congrArg Domain.feastol hdomain
      | branched h _ => exact (Domain.changeBound_sameSetting h.domain).feastol
      | entered h _ _ => exact (Domain.changeBound_sameSetting h.domain).feastol
      | dropped h _ => exact congrArg Domain.feastol h.domain

/-- Every node of a stack but the one at the bottom adds a decision to the path. -/
theorem SearchNode.length_le_path {α : Type} {nodes : List (SearchNode α)}
    (h : nodes.IsChain fun n parent => n.decision.isSome ∧ parent.Waits) :
    nodes.length ≤ (path nodes).length + 1 := by
  induction nodes with
  | nil => exact Nat.zero_le _
  | cons node rest ih =>
      have hrest := ih h.tail
      cases rest with
      | nil => simp
      | cons parent below =>
          rw [List.isChain_cons_cons] at h
          obtain ⟨decision, hdecision⟩ := Option.isSome_iff_exists.mp h.1.1
          rw [path_cons, hdecision, List.length_append, List.length_cons]
          simp only [Option.toList_some, List.length_singleton]
          omega

namespace SearchStep

open Exact

variable {ρ σ η τ : Type} {m : Model Exact} {w f : ℚ} {base : List Nat}
  {start : List (Child Exact) × SearchState Exact ρ σ η τ} {allowance : Nat}
  {s t u : SearchState Exact ρ σ η τ} {suspended suspended' : List (OpenNode Exact)}

/-- At the head of a visit the current node is not explored, and no child of it is left. -/
structure AtHead (m : Model Exact) (w : ℚ) (base : List Nat)
    (start : List (Child Exact) × SearchState Exact ρ σ η τ) (allowance : Nat)
    (s : SearchState Exact ρ σ η τ) : Prop where
  settles : Settles base start s
  descended : Descended m w base start allowance s
  unexplored : Unexplored s

namespace AtHead

theorem isOpen (h : AtHead m w base start allowance s) :
    ∀ n ∈ s.search.nodes.head?, n.isExplored = false ∧ n.pending = none :=
  fun n hn => ⟨h.unexplored n hn, (h.settles.choose_spec.2.2 n hn).2⟩

variable [StopCondition τ]

/-- Asking the condition changes nothing that matters. -/
theorem asked (h : AtHead m w base start allowance s) {stop : Bool}
    (hask : shouldStop.perform s = (.ok stop, t)) : AtHead m w base start allowance t := by
  cases hask
  exact ⟨h.settles.congr rfl rfl, h.descended.congr rfl rfl, h.unexplored⟩

variable [Relaxation ρ Exact] [Separator σ Exact] [Proposer η Exact]

section Evaluated

variable (hm : m.Boxed)
include hm

variable (hfeastol : start.2.search.domain.feastol = number f)
include hfeastol

/-- A node that has to be branched on is still at the head, and the search may branch. -/
theorem unsolved (h : AtHead m w base start allowance s)
    (hevaluate : evaluate.perform s = (.ok .unsolved, t)) :
    AtHead m w base start allowance t ∧ t.Ready m f := by
  have hworked : s.search.Worked t.search := by
    obtain ⟨-, hend⟩ := evaluate_evaluated _ _ _ (Search.Works.refl s.search) hevaluate
    rwa [if_pos rfl] at hend
  have haffects := evaluate_affects (x := s.propagation) (t := s.tally) _ _ _ ⟨.refl, rfl⟩ hevaluate
  have hnarrow := haffects.narrow hm h.descended.narrow
  have hsettles := h.settles.works hworked.works
  refine ⟨⟨hsettles, h.descended.works hm hworked.works hnarrow fun n hn => (h.isOpen n hn).2,
    fun n hn => ?_⟩, hnarrow, ?_, ?_, hworked.ready⟩
  · obtain ⟨before, hbefore, hsame⟩ := hworked.works.top hn
    exact hsame.isExplored.trans (h.unexplored before hbefore)
  · obtain ⟨ledger, hmoves, -⟩ := hsettles
    exact hmoves.feastol.trans hfeastol
  · obtain ⟨ledger, -, hstep, -⟩ := hsettles
    exact hstep.leveled

/-- A node that is handled is used up. -/
theorem handled (h : AtHead m w base start allowance s) {result : NodeResult}
    (hhandled : Handled s result t) : ∃ fewer < allowance, Descended m w base start fewer t := by
  cases hhandled with
  | evaluated hevaluate hresult =>
      have hnarrow := (evaluate_affects (x := s.propagation) (t := s.tally) _ _ _ ⟨.refl, rfl⟩
        hevaluate).narrow hm h.descended.narrow
      obtain ⟨hbranched, hend⟩ := evaluate_evaluated _ _ _ (Search.Works.refl s.search) hevaluate
      rw [if_neg hresult] at hend
      obtain ⟨before, hworks, hend⟩ := hend
      rw [if_neg hbranched] at hend
      exact h.descended.concluded hm hworks hnarrow h.isOpen hend
  | @tried evaluated _ _ hevaluate hbranch hresult =>
      obtain ⟨hhead, hready⟩ := h.unsolved hm hfeastol hevaluate
      have hnarrow := (branch_affects (x := evaluated.propagation) (t := evaluated.tally) _ _ _
        ⟨.refl, rfl⟩ hbranch).narrow hm hready.narrow
      obtain ⟨-, before, hworks, hend⟩ :=
        branch_concluded hready.leveled _ _ _ ⟨.refl _, hready.feasible⟩ hbranch
      rw [if_neg hresult] at hend
      exact hhead.descended.concluded hm hworks hnarrow hhead.isOpen hend

/-- Leaving the subtree does not exceed the allowance either. -/
theorem leaves (h : AtHead m w base start allowance s) {all : List (OpenNode Exact)}
    (hleaves : Leaves suspended s all t) :
    (∃ ledger, Descends m start (ledger, t)) ∧ t.tally.nodes ≤ s.tally.nodes + allowance := by
  have htally := hleaves.tally
  have hcount : t.tally.nodes ≤ s.tally.nodes + 1 := by
    rcases htally with ⟨-, htally⟩ | ⟨-, htally⟩
    · simp [htally]
    · simp [htally, Tally.visited]
  cases hleaves with
  | asked hask hsuspend =>
      have hhead := h.asked hask
      have hstop := (shouldStop_tallies _ _ _ rfl hask).1
      refine ⟨(suspendOpenNodes_descending hm _ _ _ ⟨hhead.settles, hhead.descended⟩
        hsuspend).exists_descends, ?_⟩
      rcases htally with ⟨-, htally⟩ | ⟨hgo, -⟩
      · simp [htally]
      · rw [← hstop] at hgo
        cases hgo
  | given hask hhandled _ hsuspend =>
      obtain ⟨fewer, hfewer, hdescended⟩ := (h.asked hask).handled hm hfeastol hhandled
      exact ⟨(suspendOpenNodes_descending hm _ _ _
        ⟨hhandled.settles (h.asked hask).settles, hdescended⟩ hsuspend).exists_descends, by omega⟩
  | through hask hhandled _ _ hback =>
      obtain ⟨fewer, hfewer, hdescended⟩ := (h.asked hask).handled hm hfeastol hhandled
      exact ⟨(backtrackPlunge_descending hm _ _ _
        ⟨hhandled.settles (h.asked hask).settles, hdescended⟩ hback).1.exists_descends, by omega⟩

variable (hf : 0 ≤ f)
include hf

/-- A node that is branched on is used up, and its first child is at the head. -/
theorem branched (h : AtHead m w base start allowance s)
    (hevaluate : evaluate.perform s = (.ok .unsolved, t))
    (hbranch : branch.perform t = (.ok .branched, u)) :
    ∃ fewer < allowance, AtHead m w base start fewer u := by
  obtain ⟨hhead, hready⟩ := h.unsolved hm hfeastol hevaluate
  have hnarrow := (branch_affects (x := t.propagation) (t := t.tally) _ _ _ ⟨.refl, rfl⟩
    hbranch).narrow hm hready.narrow
  have hsplit : u.Split m := branch_splits hm hf _ _ _ hready hbranch rfl
  obtain ⟨-, before, hworks, hend⟩ :=
    branch_concluded hready.leveled _ _ _ ⟨.refl _, hready.feasible⟩ hbranch
  rw [if_pos rfl] at hend
  obtain ⟨first, second, hentered⟩ := hend
  obtain ⟨fewer, hfewer, hdescended⟩ :=
    hhead.descended.split hm hworks hnarrow hhead.isOpen hentered hsplit
  refine ⟨fewer, hfewer, tried_settles hevaluate hbranch h.settles, hdescended, ?_⟩
  obtain ⟨child, parent, rest, _, _, hnodes, hunexplored, -⟩ := hsplit
  rw [Unexplored, hnodes]
  rintro _ ⟨⟩
  exact hunexplored

/-- Every visit uses a node up. -/
theorem visit (h : AtHead m w base start allowance s)
    (hvisit : Visit (suspended, s) (suspended', t)) :
    ∃ fewer < allowance, AtHead m w base start fewer t := by
  have hsettles := hvisit.settles h.settles
  cases hvisit with
  | branched hask hevaluate hbranch =>
      exact (h.asked hask).branched hm hfeastol hf hevaluate hbranch
  | finished hask hhandled _ _ hback =>
      obtain ⟨fewer, hfewer, hdescended⟩ := (h.asked hask).handled hm hfeastol hhandled
      obtain ⟨hdescended, hunexplored⟩ := backtrackPlunge_descending hm _ _ _
        ⟨hhandled.settles (h.asked hask).settles, hdescended⟩ hback
      exact ⟨fewer, hfewer, hsettles, hdescended, hunexplored rfl⟩

/-- Visits in a row use as many nodes up. -/
theorem length_le {x : List (OpenNode Exact) × SearchState Exact ρ σ η τ}
    (h : AtHead m w base start allowance x.2)
    {visits : List (List (OpenNode Exact) × SearchState Exact ρ σ η τ)}
    (hvisits : (x :: visits).IsChain Visit) : visits.length ≤ allowance := by
  induction visits generalizing x allowance with
  | nil => exact Nat.zero_le _
  | cons y visits ih =>
      rw [List.isChain_cons_cons] at hvisits
      obtain ⟨fewer, hfewer, hy⟩ := h.visit hm hfeastol hf hvisits.1
      have hrest := ih hy hvisits.2
      rw [List.length_cons]
      omega

/-- So the allowance limits what is counted. -/
theorem visits {x : List (OpenNode Exact) × SearchState Exact ρ σ η τ}
    (h : AtHead m w base start allowance s) (hvisits : Relation.ReflTransGen Visit (suspended, s)
      x) :
    ∃ fewer, AtHead m w base start fewer x.2 ∧
      x.2.tally.nodes + fewer ≤ s.tally.nodes + allowance := by
  induction hvisits with
  | refl => exact ⟨allowance, h, Nat.le_refl _⟩
  | tail _ hvisit ih =>
      obtain ⟨fewer, hhead, hle⟩ := ih
      obtain ⟨rest, hrest, hnext⟩ := hhead.visit hm hfeastol hf hvisit
      have htally := congrArg Tally.nodes hvisit.tally.2
      rw [Tally.visited] at htally
      dsimp only at htally
      exact ⟨rest, hnext, by omega⟩

end Evaluated

end AtHead

section Install

theorem floor_max_zero (x : ℚ) : ⌊max 0 x⌋₊ = ⌊x⌋₊ := by
  rcases le_total 0 x with hle | hle
  · rw [max_eq_right hle]
  · rw [max_eq_left hle, Nat.floor_zero, Nat.floor_of_nonpos hle]

theorem changeDomain_performs {g : Domain Exact → Checked (Domain Exact)}
    (x : PropagationState Exact) :
    Leads (fun s => s.propagation = x) (changeDomain g : SearchStep Exact ρ σ η τ Unit)
      fun _ s => x.onDomain g = .ok s.propagation := by
  refine domain_leads.bind fun before => Leads.lift.bind fun after => ?_
  refine Leads.bind (Q := fun _ s => x.onDomain g = .ok s.propagation)
    (changeSearch_leads fun s hs => ?_) fun _ => shared_leads.bind fun shared =>
      Leads.modify fun s hs => ?_
  · obtain ⟨hafter, rfl, rfl⟩ := hs
    exact PropagationState.onDomain_eq_ok.mpr ⟨after, hafter, rfl⟩
  · obtain ⟨rfl, hs⟩ := hs
    exact hs

variable [Relaxation ρ Exact]

/-- Installing a node sets the stack of the domain up. The installed node is not explored. -/
theorem install_performs (node : OpenNode Exact) (x : PropagationState Exact) :
    Leads (fun s => s.propagation = x) (install node : SearchStep Exact ρ σ η τ Unit)
      fun _ s => (Operation.setStack node.changes node.branchings).perform x = .ok s.propagation ∧
        Unexplored s := by
  let Set : SearchState Exact ρ σ η τ → Prop := fun s =>
    (Operation.setStack node.changes node.branchings).perform x = .ok s.propagation
  refine Leads.bind (Q := fun _ s => s.propagation = x) (changeSearch_leads fun s hs => hs) fun _ =>
    (changeDomain_performs x).bind fun _ => Leads.fix fun s₁ hs₁ => ?_
  obtain ⟨cleared, hback, hcleared⟩ := PropagationState.onDomain_eq_ok.mp hs₁
  refine Leads.bind (Q := fun _ => Set) (((changeDomain_performs s₁.propagation).before
    (by rintro _ rfl; rfl)).after fun _ s hs => ?_) fun _ => Leads.bind (Q := fun _ => Set) ?_
      fun _ =>
      changeSearch_leads fun s hs => ⟨hs, by rintro _ ⟨⟩; rfl⟩
  · obtain ⟨reached, happly, hreached⟩ := PropagationState.onDomain_eq_ok.mp hs
    rw [← hcleared] at happly hreached
    simp only [bind_eq_ok, pure_eq_ok] at happly
    obtain ⟨⟨_, _⟩, happly, rfl⟩ := happly
    change (Operation.setStack node.changes node.branchings).perform x = _
    rw [Operation.perform, PropagationState.onDomain_eq_ok]
    refine ⟨_, ?_, hreached⟩
    simp only [bind_eq_ok, pure_eq_ok]
    refine ⟨((), _), finish_eq_ok.mpr ?_, rfl⟩
    rw [Domain.setStack, perform_bind_eq_ok]
    exact ⟨(), cleared, perform_change_eq_ok.mpr hback, finish_eq_ok.mp happly⟩
  · cases node.basis with
    | none => exact Keeps.pure
    | some basis =>
        exact changeSearch_leads (f := fun s => { s with
          relaxation := Relaxation.setBasis s.relaxation basis }) fun s hs => hs

section Installed

variable {feastol : Exact} {node : OpenNode Exact} (hm : m.Boxed)
  (hreach : Reachable (fun _ op => op.Whole m) m feastol s.propagation)
  (hnode : ∀ x ∈ node.changes, x.Whole m) (hinstall : (install node).perform s = (.ok (), t))
include hreach hnode hinstall

theorem reachable_install : Reachable (fun _ op => op.Whole m) m feastol t.propagation := by
  have hwhole : (Operation.setStack node.changes node.branchings).Whole m := by
    refine ⟨fun x hx => ?_, nofun⟩
    obtain ⟨change, hchange, hx⟩ := List.mem_flatMap.mp hx
    simp only [List.mem_cons, List.not_mem_nil, or_false] at hx
    rcases hx with rfl | rfl
    · exact hnode change hchange
    · exact hnode change hchange
  exact hreach.step hwhole (install_performs node s.propagation _ _ _ rfl hinstall).1

include hm

/-- The installed node is at the head of a visit, with an allowance that its box gives. -/
theorem atHead_install : AtHead m (max 0 (t.width m)) t.search.domain.branchings.toList ([], t)
    (2 ^ (⌊t.width m⌋₊ + 1) - 1) t := by
  have hleveled : s.search.domain.Leveled := hreach.leveled
  have hunexplored := (install_performs node s.propagation _ _ _ rfl hinstall).2
  obtain ⟨-, -, installed, hnodes, hdecision, hchildless⟩ :=
    install_leads node _ _ _ hleveled hinstall
  have hpath : SearchNode.path [installed] = [] := by
    rw [SearchNode.path_cons, hdecision]
    rfl
  refine ⟨install_settles hleveled hinstall, ⟨⟨[], .start, (install_inStep hleveled hinstall).1⟩,
    (reachable_install hreach hnode hinstall).narrow hm, ?_, ?_⟩, hunexplored⟩
  · rw [hnodes]
    refine ⟨⟨?_, fun _ => ?_, ?_⟩, fun hsome => ?_⟩
    · rw [hpath]
      exact le_max_left _ _
    · rw [hpath, List.length_nil, Nat.cast_zero, add_zero]
      exact le_max_right _ _
    · rw [hchildless.2]
      exact nofun
    · rw [hdecision] at hsome
      cases hsome
  · rw [hnodes, SearchNode.allowance_cons,
      SearchNode.allowanceOf_leftItems_cons, hchildless.2, hpath,
      hunexplored installed (by rw [hnodes]; rfl), floor_max_zero]
    simp [SearchNode.subtreeSize, SearchNode.leftItems, SearchNode.allowanceOf]

end Installed

end Install

end SearchStep

open Exact SearchStep

/-- Whatever the relaxation, the separators, the heuristics and the condition answer, the search of
an installed node ends. Let the integer columns have finite bounds, and let all changes of their
bounds from outside be whole numbers. Then the search is made of descents: no child is entered whose
box is not narrower than that of its parent was when this was branched on. A node of the tree is
never deeper than the box of the installed node was wide. Branching on a node that has to be
branched on has an outcome, since every column that is fixed on the way makes the box narrower.
There are less than `2 ^ (W + 1)` visits, and not more nodes are evaluated. If the search stops with
a fault, then the work of a visit does: evaluating a node, where the domain is propagated, the
relaxation solved and the node counted, branching on it, or moving on from it. The search never
stops because a dive is too long or there are too many of them. -/
theorem search_terminates {ρ σ η τ : Type} [Relaxation ρ Exact] [Separator σ Exact]
    [Proposer η Exact] [StopCondition τ] {draft : Draft Exact} {model : Model Exact} {f : ℚ}
    {s t : SearchState Exact ρ σ η τ} {node : OpenNode Exact} (hbuild : draft.build = .ok model)
    (hfinite : model.FiniteOnIntegers) (hf : 0 ≤ f)
    (hreach : Reachable (fun _ op => op.Whole model) model (number f) s.propagation)
    (hnode : ∀ x ∈ node.changes, x.Whole model)
    (hinstall : (install node).perform s = (.ok (), t)) :
    let W := ⌊t.width model⌋₊
    (∀ suspended u, Relation.ReflTransGen Visit ([], t) (suspended, u) →
      (∃ ledger, Descends model ([], t) (ledger, u)) ∧
        (∀ n ∈ u.search.nodes, n.decision.isSome →
          model.Narrower (u.search.domain.trail.rewindTo n.position)
            (u.search.domain.trail.rewindTo (n.position + 1))) ∧
        u.search.nodes.length ≤ W + 1 ∧
        ∀ asked v, shouldStop.perform u = (.ok false, asked) →
          evaluate.perform asked = (.ok .unsolved, v) → (branchOutcome? v).isSome ∧
            ∀ v', Relation.ReflTransGen (fun x y => nextBranching x = .inl y) v v' →
              FixingNarrows model v') ∧
    (∀ visits, ((([], t) : List (OpenNode Exact) × _) :: visits).IsChain Visit →
      visits.length < 2 ^ (W + 1)) ∧
    (∀ all u, solveDepthFirst.perform t = (.ok all, u) →
      (∃ ledger, Descends model ([], t) (ledger, u)) ∧
      u.search.statistics.nodes < t.search.statistics.nodes + 2 ^ (W + 1)) ∧
    ∀ fault u, solveDepthFirst.perform t = (.error fault, u) →
      ∃ suspended v, Relation.ReflTransGen Visit ([], t) (suspended, v) ∧ Breaks v fault u := by
  intro W
  have hm : model.Boxed := Draft.boxed_of_build hbuild hfinite
  have hhead := atHead_install hm hreach hnode hinstall
  have hfeastol : t.search.domain.feastol = number f :=
    (reachable_install hreach hnode hinstall).constant.2
  have hpos : 0 < 2 ^ (W + 1) := Nat.two_pow_pos _
  refine ⟨fun suspended u hvisits => ?_, fun visits hvisits => ?_, fun all u hsolve => ?_,
    fun fault u => solveDepthFirst_breaks⟩
  · obtain ⟨fewer, hu, -⟩ := hhead.visits hm hfeastol hf hvisits
    have hdepth : (SearchNode.path u.search.nodes).length ≤ W := by
      have hle := hu.descended.depth_le
      rwa [floor_max_zero] at hle
    refine ⟨hu.descended.exists_descends, hu.descended.narrower, ?_,
      fun asked v hask hevaluate => ?_⟩
    · obtain ⟨ledger, -, hstep⟩ := hu.descended.descends
      have hle : u.search.nodes.length ≤ _ := SearchNode.length_le_path hstep.chain
      omega
    · obtain ⟨-, hready⟩ := (hu.asked hask).unsolved hm hfeastol hevaluate
      refine ⟨branchOutcome?_isSome hm hf hready, fun v' hretried => fixingNarrows_of_ready hm hf
        ?_⟩
      induction hretried with
      | refl => exact hready
      | tail _ hnext ih => exact (nextBranching_ready hm hf ih hnext).1
  · have hle := hhead.length_le hm hfeastol hf hvisits
    change _ ≤ 2 ^ (W + 1) - 1 at hle
    omega
  · obtain ⟨suspended, last, hvisits, hleaves⟩ := solveDepthFirst_visits hsolve
    obtain ⟨fewer, hlast, hcount⟩ := hhead.visits hm hfeastol hf hvisits
    obtain ⟨hdescends, hleft⟩ := hlast.leaves hm hfeastol hleaves
    refine ⟨hdescends, ?_⟩
    change _ + _ ≤ t.search.statistics.nodes + (2 ^ (W + 1) - 1) at hcount
    change u.search.statistics.nodes ≤ _ at hleft
    dsimp only at hcount hleft
    omega

set_option maxRecDepth 100000 in
/-- The box of two columns that are halfway between their bounds is two wide, so less than eight
nodes are evaluated; three are. -/
theorem halved_search_terminates :
    ∃ (model : Model Exact) (t u : SearchState Exact (ElementaryRelaxation Exact) (CutList Exact)
        (ProposalList Exact) Condition) (all : List (OpenNode Exact)),
      t.width model = 2 ∧ solveDepthFirst.perform t = (.ok all, u) ∧
        (∃ ledger, Descends model ([], t) (ledger, u)) ∧ t.search.statistics.nodes = 0 ∧
          u.search.statistics.nodes = 3 ∧ u.search.statistics.nodes < 0 + 2 ^ (2 + 1) := by
  have hrun : passes halvedColumns.build (fun model =>
      passes (Domain.ofModel model (number (1 / 1000000))) fun d =>
        passes ((install (.root 0 none)).finish (halvedSearch d)) fun t =>
          passes (solveDepthFirst.finish t.2) fun u =>
            model.columns.all (fun column => Scalar.isFinite column.lower &&
              Scalar.isFinite column.upper) && t.2.width model == 2 &&
              t.2.search.statistics.nodes == 0 && u.2.search.statistics.nodes == 3) = true := by
    rw [(solveDepthFirstUnrolled 100).property]
    decide +kernel
  obtain ⟨model, hmodel, hrun⟩ := passes_eq_true.mp hrun
  obtain ⟨d, hd, hrun⟩ := passes_eq_true.mp hrun
  obtain ⟨⟨_, t⟩, hinstall, hrun⟩ := passes_eq_true.mp hrun
  obtain ⟨⟨all, u⟩, hsolve, hrun⟩ := passes_eq_true.mp hrun
  simp only [Bool.and_eq_true, beq_iff_eq, Array.all_eq_true'] at hrun
  obtain ⟨⟨⟨hfinite, hwidth⟩, hbefore⟩, hafter⟩ := hrun
  have hcuts (ageLimit : Nat) : Operation.Whole model (.newCutPool ageLimit) :=
    ⟨by simp [Operation.changes], by simp⟩
  have hconflicts (ageLimit softLimit : Nat) :
      Operation.Whole model (.newConflictPool ageLimit softLimit) :=
    ⟨by simp [Operation.changes], by simp⟩
  have hreach : Reachable (fun _ op => op.Whole model) model (number (1 / 1000000))
      (halvedSearch d).propagation :=
    ((Reachable.start hd).step (hcuts _) rfl).step (hconflicts _ _) rfl
  obtain ⟨-, -, hend, -⟩ := search_terminates hmodel
    (fun c column hcolumn _ => hfinite column (Array.mem_of_getElem? hcolumn)) (by norm_num) hreach
    (fun _ hx => absurd hx List.not_mem_nil) (finish_eq_ok.mp hinstall)
  obtain ⟨hdescends, hlt⟩ := hend all u (finish_eq_ok.mp hsolve)
  rw [hwidth, hbefore, Nat.floor_ofNat] at hlt
  exact ⟨model, t, u, all, hwidth, finish_eq_ok.mp hsolve, hdescends, hbefore, hafter, hlt⟩

end BranchBound
