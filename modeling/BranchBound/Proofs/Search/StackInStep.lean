import BranchBound.Proofs.Number.Exact
import BranchBound.Proofs.Solver.Unrolling
import BranchBound.Proofs.Search.Walk
import BranchBound.Relaxation.Elementary
import Mathlib

/-!
# The stack and the domain stay in step

Whatever the relaxation, the separators, the heuristics and the condition of the user answer: from
an installed node on, the operations of a search are moves, and these keep the stack of nodes, the
depth levels of the domain and the children that are left in step. A search that is through has
entered or dropped every child.
-/

namespace BranchBound

open Checked BranchBound.Action

variable {α ρ σ η τ : Type} [Scalar α]

/-- The operations of a search on the subtree of an installed node. -/
inductive SearchOperation where
  | evaluate
  | branch
  | dive
  | backtrack
  | backtrackPlunge
  | suspendOpenNodes
  | solveDepthFirst
  deriving DecidableEq, Repr

namespace SearchOperation

variable [Relaxation ρ α] [Separator σ α] [Proposer η α] [StopCondition τ]

/-- The step of a search that the operation is. -/
def step : SearchOperation → SearchStep α ρ σ η τ Unit
  | evaluate => do let _ ← SearchStep.evaluate
  | branch => do let _ ← SearchStep.branch
  | dive => do let _ ← SearchStep.dive
  | backtrack => do let _ ← SearchStep.backtrack
  | backtrackPlunge => do let _ ← SearchStep.backtrackPlunge
  | suspendOpenNodes => do let _ ← SearchStep.suspendOpenNodes
  | solveDepthFirst => do let _ ← SearchStep.solveDepthFirst

end SearchOperation

/-- No solution is kept in an infeasible domain. Branching relies on that, and it can fail: the
solution of a node is still there when another node was entered after it. -/
def Search.Branchable (s : Search α ρ) : Prop := s.solution.isSome → s.domain.infeasible = none

/-- A search performs an operation; it branches only where it may. -/
def Walks [Relaxation ρ α] [Separator σ α] [Proposer η α] [StopCondition τ]
    (s t : SearchState α ρ σ η τ) : Prop :=
  ∃ op : SearchOperation, op.step.perform s = (.ok (), t) ∧ (op = .branch → s.search.Branchable)

/-- Undoing the deepest level of the domain undoes the decision of the current node, if it was
created by one, and nothing else: the levels and the log are as before it. -/
def Search.UndoesOwnLevel (base : List Nat) (s : Search α ρ) : Prop :=
  ∀ node rest, s.nodes = node :: rest → node.decision.isSome →
    ∀ undone d, s.domain.backtrack = .ok (undone, d) →
      d.branchings.toList = base ++ SearchNode.levels rest ∧
      d.log.toList = s.domain.log.toList.take node.position ∧ d.infeasible = none ∧
      ∃ entry, s.domain.log[node.position]? = some entry ∧ undone = some entry.change

namespace SearchStep

section Install

variable [Relaxation ρ α]

theorem applyStack_leveled (branchings : List Nat) (index : Nat) (changes : List (BoundChange α)) :
    Keeps (fun d : Domain α => d.Leveled) (Domain.applyStack branchings index changes) := by
  induction changes generalizing index with
  | nil => exact Keeps.pure
  | cons change rest ih =>
      refine Keeps.get.bind fun d => Leads.ite (fun _ => Keeps.pure) fun _ => ?_
      have hrest := ih (index + 1)
      exact Leads.bind (Leads.change fun d d' hleveled hchange =>
        Domain.Turn.leveled hleveled (.change hchange)) fun _ => hrest

/-- An installed node is the only one, and nothing is left of what was there before. -/
theorem install_leads (node : OpenNode α) :
    Leads (fun s => s.search.domain.Leveled) (install node : SearchStep α ρ σ η τ Unit)
      fun _ s => s.search.domain.Leveled ∧ s.search.solution = none ∧
        ∃ n, s.search.nodes = [n] ∧ n.decision = none ∧ n.Childless := by
  let Ready : SearchState α ρ σ η τ → Prop := fun s =>
    s.search.domain.Leveled ∧ s.search.solution = none
  have hready : Indifferent Ready := .alone fun _ _ hs h =>
    ⟨by rw [h.domain]; exact hs.1, h.solution.trans hs.2⟩
  refine Leads.bind (Q := fun _ => Ready) (changeSearch_leads fun s hs => ⟨hs, rfl⟩) fun _ => ?_
  refine (changeDomain_leads hready fun s d hs hback => ?_).bind fun _ => ?_
  · exact ⟨Domain.Turn.leveled hs.1 (.back hback), hs.2⟩
  refine (changeDomain_leads hready fun s d hs happly => ?_).bind fun _ => ?_
  · simp only [bind_eq_ok, pure_eq_ok] at happly
    obtain ⟨⟨_, reached⟩, happly, rfl⟩ := happly
    exact ⟨(applyStack_leveled _ _ _).finish hs.1 happly, hs.2⟩
  refine (warmStart_keeps hready _).bind fun _ => changeSearch_leads fun s hs => ?_
  exact ⟨hs.1, hs.2, _, rfl, rfl, rfl, rfl⟩

/-- With the installed node the stack and the domain are in step. -/
theorem install_inStep {node : OpenNode α} {s t : SearchState α ρ σ η τ}
    (hleveled : s.search.domain.Leveled) (h : (install node).perform s = (.ok (), t)) :
    t.search.InStep t.search.domain.branchings.toList [] ∧
      ∀ n ∈ t.search.nodes.head?, n.Childless := by
  obtain ⟨hleveled, -, installed, hnodes, hdecision, hchildless⟩ :=
    install_leads node _ _ _ hleveled h
  refine ⟨⟨hleveled, ?_, fun n hn decision hn' => ?_, ?_, ?_⟩, fun n hn => ?_⟩
  · rw [hnodes, SearchNode.levels, SearchNode.levels, hdecision]
    simp
  · rw [hnodes, List.mem_singleton] at hn
    rw [hn, hdecision] at hn'
    cases hn'
  · rw [hnodes]
    exact .singleton _
  · rw [hnodes, SearchNode.pendings_cons, hchildless.2]
    rfl
  · rw [hnodes] at hn
    obtain rfl := Option.some.inj hn
    exact hchildless

theorem install_settles {node : OpenNode α} {s t : SearchState α ρ σ η τ}
    (hleveled : s.search.domain.Leveled) (h : (install node).perform s = (.ok (), t)) :
    Settles t.search.domain.branchings.toList ([], t) t :=
  ⟨[], .refl, install_inStep hleveled h⟩

end Install

variable {base : List Nat} {start : List (Child α) × SearchState α ρ σ η τ}
  [Relaxation ρ α] [Separator σ α] [Proposer η α] [StopCondition τ]

/-- Every operation leads from one state in step to another. -/
theorem walks_settles {s t : SearchState α ρ σ η τ} (hwalks : Walks s t)
    (hs : Settles base start s) : Settles base start t := by
  obtain ⟨op, hperform, hbranchable⟩ := hwalks
  have hkeeps {β : Type} {x : SearchStep α ρ σ η τ β} (h : Keeps (Settles base start) x) :
      Keeps (Settles base start) (do let _ ← x : SearchStep α ρ σ η τ Unit) :=
    h.bind fun _ => Keeps.pure
  cases op with
  | evaluate =>
      exact hkeeps (evaluate_settles.after fun _ _ h => h.1.mono fun _ _ hn => hn.1) _ _ _ hs
        hperform
  | branch =>
      have hbranch : Leads (fun s => Settles base start s ∧ s.search.Branchable)
          (SearchOperation.branch.step : SearchStep α ρ σ η τ Unit)
          fun _ => Settles base start :=
        (branch_settles.after fun _ _ h => h.mono fun _ _ hn => hn.1).bind fun _ => Keeps.pure
      exact hbranch _ _ _ ⟨hs, hbranchable rfl⟩ hperform
  | dive =>
      exact hkeeps ((diveWithin_settles _).after fun _ _ h => h.mono fun _ _ hn => hn.1) _ _ _ hs
        hperform
  | backtrack => exact hkeeps backtrack_settles _ _ _ hs hperform
  | backtrackPlunge => exact hkeeps backtrackPlunge_settles _ _ _ hs hperform
  | suspendOpenNodes =>
      exact hkeeps (suspendOpenNodes_exhausts.after fun _ _ h => h.1) _ _ _ hs hperform
  | solveDepthFirst =>
      exact hkeeps ((exploreWithin_exhausts _ _).after fun _ _ h => h.1) _ _ _ hs hperform

end SearchStep

/-- From an installed node on, operations are moves, and along moves the stack, the domain and the
ledger of the children stay in step. Branching adds its two children to the ledger, one that is
entered and one that is left. Once every open node is suspended or explored, no child is left. -/
theorem search_stack_in_step [Relaxation ρ α] [Separator σ α] [Proposer η α] [StopCondition τ]
    {s t u : SearchState α ρ σ η τ} {node : OpenNode α} (hleveled : s.search.domain.Leveled)
    (hinstall : (SearchStep.install node).perform s = (.ok (), t))
    (hwalk : Relation.ReflTransGen Walks t u) :
    let base := t.search.domain.branchings.toList
    (∀ ledger v, Moves ([], t) (ledger, v) →
      v.search.InStep base ledger ∧ v.search.UndoesOwnLevel base ∧
        ∀ n ∈ v.search.nodes, n.decision.isSome → n.position + 1 ≤ v.search.domain.log.size) ∧
    ∃ ledger, Moves ([], t) (ledger, u) ∧
      (∀ result v, SearchStep.branch.perform u = (.ok result, v) → u.search.Branchable →
        if result = .branched then
          ∃ first second, Moves ([], t) (ledger ++ [⟨first, .entered⟩, ⟨second, .pending⟩], v)
        else Moves ([], t) (ledger, v)) ∧
      ∀ suspended v, (SearchStep.suspendOpenNodes.perform u = (.ok suspended, v) ∨
          SearchStep.solveDepthFirst.perform u = (.ok suspended, v)) →
        v.search.hasOpenNodes = false ∧
        ∃ after, Moves ([], t) (after, v) ∧ Child.pendings after = [] := by
  intro base
  have hstart : t.search.InStep base [] := (SearchStep.install_inStep hleveled hinstall).1
  have hstep (ledger) (v : SearchState α ρ σ η τ) (hmoves : Moves ([], t) (ledger, v)) :
      v.search.InStep base ledger := by
    have hall : ∀ x : List (Child α) × SearchState α ρ σ η τ, Moves ([], t) x →
        x.2.search.InStep base x.1 := by
      intro x hx
      induction hx with
      | refl => exact hstart
      | tail _ hmove ih => exact hmove.inStep ih
    exact hall _ hmoves
  refine ⟨fun ledger v hmoves => ?_, ?_⟩
  · have hv := hstep ledger v hmoves
    refine ⟨hv, fun n rest hn hdecision undone d hback => hv.undo hn hdecision hback,
      fun n hn hdecision => ?_⟩
    obtain ⟨decision, hdecision⟩ := Option.isSome_iff_exists.mp hdecision
    obtain ⟨entry, hentry, -⟩ := hv.logged n hn decision hdecision
    exact (Array.getElem?_eq_some_iff.mp hentry).1
  · have hsettles : SearchStep.Settles base ([], t) u := by
      induction hwalk with
      | refl => exact SearchStep.install_settles hleveled hinstall
      | tail _ hwalks ih => exact SearchStep.walks_settles hwalks ih
    obtain ⟨ledger, hmoves, hu, htop⟩ := hsettles
    refine ⟨ledger, hmoves, fun result v hbranch hbranchable => ?_, fun suspended v hrun => ?_⟩
    · obtain ⟨-, before, hworks, hend⟩ :=
        SearchStep.branch_concluded hu.leveled _ _ _ ⟨.refl _, hbranchable⟩ hbranch
      have hbefore : Moves ([], t) (ledger, ⟨before, u.shared⟩) := hmoves.tail (.works hworks)
      split
      · next hbranched =>
          rw [if_pos hbranched] at hend
          obtain ⟨first, second, hentered⟩ := hend
          have hsettled : SearchStep.Settles base ([], t) ⟨before, u.shared⟩ :=
            Reaches.works ⟨ledger, hmoves, hu, htop⟩ hworks
          exact ⟨first, second, hbefore.tail
            (.branched hentered fun n hn => (hsettled.choose_spec.2.2 n hn).2)⟩
      · next hbranched =>
          rw [if_neg hbranched] at hend
          exact hbefore.tail (.finished hend)
    · have hexhausts : SearchStep.Exhausts base ([], t) v := by
        rcases hrun with hrun | hrun
        · exact SearchStep.suspendOpenNodes_exhausts _ _ _ ⟨ledger, hmoves, hu, htop⟩ hrun
        · exact SearchStep.exploreWithin_exhausts _ _ _ _ _ ⟨ledger, hmoves, hu, htop⟩ hrun
      obtain ⟨⟨after, hmoves, hv, -⟩, hnone⟩ := hexhausts
      refine ⟨by simp [Search.hasOpenNodes, hnone], after, hmoves, ?_⟩
      rw [hv.pendings, hnone]
      rfl

section Exact

open Exact

/-- Two columns that are halfway between their bounds in every relaxation. -/
def halvedColumns : Draft Exact :=
  ⟨#[⟨1, 0, 1, .integer⟩, ⟨2, 0, 1, .integer⟩], #[], 0⟩

/-- The relaxation of two columns that is solved halfway between the bounds. -/
def halfway : ElementaryRelaxation Exact :=
  { rule := .shifted (number (1 / 2)), columnCount := 2, script := [], recoverable := 0
    proofs := [], sendsProof := false, hasBasis := false, cutGain := 0, cuts := [], isWarm := false
    tally := .zero }

/-- A search over a domain at its beginning. -/
def halvedSearch (d : Domain Exact) :
    SearchState Exact (ElementaryRelaxation Exact) (CutList Exact) (ProposalList Exact) Condition :=
  ⟨.ofDomain d halfway .standard 1, .initial .standard false .indefinite⟩

/-- The state after an operation, if it does not stop and branches only where it may. -/
def walkOnce
    (s : SearchState Exact (ElementaryRelaxation Exact) (CutList Exact) (ProposalList Exact)
      Condition) (op : SearchOperation) :
    Except Fault (SearchState Exact (ElementaryRelaxation Exact) (CutList Exact)
      (ProposalList Exact) Condition) := do
  if op == .branch && s.search.solution.isSome && s.search.domain.isInfeasible then
    throw .noCurrentNode
  return (← op.step.finish s).2

theorem walks_of_walkOnce
    {s t : SearchState Exact (ElementaryRelaxation Exact) (CutList Exact) (ProposalList Exact)
      Condition} {op : SearchOperation} (h : walkOnce s op = .ok t) : Walks s t := by
  unfold walkOnce at h
  split at h
  · cases h
  · next hmay =>
      simp only [bind_eq_ok, pure_eq_ok] at h
      obtain ⟨⟨_, _⟩, hfinish, rfl⟩ := h
      refine ⟨op, finish_eq_ok.mp hfinish, fun hop hsome => ?_⟩
      simpa [hop, hsome, Domain.isInfeasible] using hmay

set_option maxRecDepth 100000 in
/-- After diving and backtracking, two nodes were created by decisions and one child is left; once
it is suspended nothing is. -/
theorem halved_search_in_step :
    ∃ (ledger : List (Child Exact)) (t u : SearchState Exact (ElementaryRelaxation Exact)
        (CutList Exact) (ProposalList Exact) Condition),
      Moves ([], t) (ledger, u) ∧ (Child.pendings ledger).length = 1 ∧
      u.search.domain.branchings.toList = SearchNode.levels u.search.nodes ∧
      SearchNode.levels u.search.nodes = [0, 1] ∧
      ∃ suspended v after, SearchStep.suspendOpenNodes.perform u = (.ok suspended, v) ∧
        suspended.length = 2 ∧ v.search.hasOpenNodes = false ∧ Moves ([], t) (after, v) ∧
        Child.pendings after = [] := by
  have hrun : passes halvedColumns.build (fun model =>
      passes (Domain.ofModel model 1e-6) fun d =>
        passes ((SearchStep.install (.root 0 none)).finish (halvedSearch d)) fun t =>
          passes ([.evaluate, .branch, .dive, .backtrack].foldlM walkOnce t.2) fun u =>
            passes (SearchStep.suspendOpenNodes.finish u) fun v =>
              t.2.search.domain.branchings.toList == [] && u.search.nodes.length == 3 &&
              SearchNode.levels u.search.nodes == [0, 1] &&
              (SearchNode.pendings u.search.nodes).length == 1 && v.1.length == 2) = true := by
    delta walkOnce SearchOperation.step
    rw [(SearchStep.evaluateUnrolled 100).property, (SearchStep.branchUnrolled 100).property,
      (SearchStep.diveUnrolled 100).property]
    decide +kernel
  obtain ⟨model, hmodel, hrun⟩ := passes_eq_true.mp hrun
  obtain ⟨d, hd, hrun⟩ := passes_eq_true.mp hrun
  obtain ⟨⟨_, t⟩, hinstall, hrun⟩ := passes_eq_true.mp hrun
  obtain ⟨u, hwalk, hrun⟩ := passes_eq_true.mp hrun
  obtain ⟨⟨suspended, v⟩, hsuspend, hrun⟩ := passes_eq_true.mp hrun
  simp only [Bool.and_eq_true, beq_iff_eq] at hrun
  obtain ⟨⟨⟨⟨hbase, -⟩, hlevels⟩, hpendings⟩, hlength⟩ := hrun
  have hreach : Reachable (fun _ _ => True) model 1e-6 ⟨.empty, d⟩ := .start hd
  have hleveled : d.Leveled := hreach.leveled
  have hwalk : Relation.ReflTransGen Walks t u := by
    simp only [List.foldlM_cons, List.foldlM_nil, bind_eq_ok, pure_eq_ok] at hwalk
    obtain ⟨t₁, h₁, t₂, h₂, t₃, h₃, t₄, h₄, rfl⟩ := hwalk
    exact (((Relation.ReflTransGen.single (walks_of_walkOnce h₁)).tail
      (walks_of_walkOnce h₂)).tail (walks_of_walkOnce h₃)).tail (walks_of_walkOnce h₄)
  obtain ⟨hstep, ledger, hmoves, -, hend⟩ :=
    search_stack_in_step (s := halvedSearch d) hleveled (finish_eq_ok.mp hinstall) hwalk
  obtain ⟨hu, -⟩ := hstep ledger u hmoves
  obtain ⟨hnone, after, hafter, hdone⟩ := hend suspended v (.inl (finish_eq_ok.mp hsuspend))
  refine ⟨ledger, t, u, hmoves, ?_, ?_, hlevels, suspended, v, after, finish_eq_ok.mp hsuspend,
    hlength, hnone, hafter, hdone⟩
  · rw [hu.pendings]
    exact hpendings
  · rw [hu.levels, hbase, List.nil_append]

end Exact

end BranchBound
