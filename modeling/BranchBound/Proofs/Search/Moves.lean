import BranchBound.Proofs.Domain.Level
import BranchBound.Search.Traversal

/-!
# Moves of a search

What a search can do to its stack of nodes and to its domain is said once, by the relation `Move`:
it works on the current node, finishes it, removes a finished node, branches, enters the child that
is left, or drops it. A ledger goes along with the moves and notes what became of every child. The
stack and the domain are in step if the depth levels of the domain are those of the nodes that were
created by decisions; every move keeps them in step.
-/

namespace BranchBound

open Checked

variable {α ρ σ η τ : Type}

namespace SearchNode

/-- No child of the node is left to be entered. -/
def Childless (n : SearchNode α) : Prop := n.openSubtrees = 0 ∧ n.pending = none

/-- The node is explored, and one child is left or none. -/
def Waits (n : SearchNode α) : Prop :=
  n.isExplored = true ∧ (n.openSubtrees = 1 ∧ n.pending.isSome ∨ n.Childless)

/-- A node as it was, but for what was learned about its subtree. -/
structure Same (n n' : SearchNode α) : Prop where
  decision : n'.decision = n.decision
  position : n'.position = n.position
  isExplored : n'.isExplored = n.isExplored
  openSubtrees : n'.openSubtrees = n.openSubtrees
  pending : n'.pending = n.pending

theorem Same.refl (n : SearchNode α) : n.Same n := ⟨rfl, rfl, rfl, rfl, rfl⟩

theorem Same.trans {n n' n'' : SearchNode α} (h : n.Same n') (h' : n'.Same n'') : n.Same n'' :=
  ⟨h'.decision.trans h.decision, h'.position.trans h.position,
    h'.isExplored.trans h.isExplored, h'.openSubtrees.trans h.openSubtrees,
    h'.pending.trans h.pending⟩

/-- The positions of the decisions that created nodes of a stack, from the bottom to the top. -/
def levels : List (SearchNode α) → List Nat
  | [] => []
  | n :: rest => levels rest ++ if n.decision.isSome then [n.position] else []

/-- The decisions for the children that are left in a stack, from the bottom to the top. -/
def pendings (nodes : List (SearchNode α)) : List (Decision α) :=
  nodes.reverse.filterMap SearchNode.pending

theorem mem_levels {nodes : List (SearchNode α)} {n : SearchNode α} (hn : n ∈ nodes)
    (hdecision : n.decision.isSome) : n.position ∈ levels nodes := by
  induction nodes with
  | nil => cases hn
  | cons top rest ih =>
      rw [levels, List.mem_append]
      rcases List.mem_cons.mp hn with rfl | hn
      · rw [if_pos hdecision]
        exact .inr (List.mem_singleton_self _)
      · exact .inl (ih hn)

theorem pendings_cons (n : SearchNode α) (rest : List (SearchNode α)) :
    pendings (n :: rest) = pendings rest ++ n.pending.toList := by
  rw [pendings, List.reverse_cons, List.filterMap_append, pendings]
  cases hpending : n.pending with
  | none => simp [hpending]
  | some decision => simp [hpending]

section Same

variable {nodes nodes' : List (SearchNode α)}

theorem levels_congr (h : List.Forall₂ Same nodes nodes') : levels nodes' = levels nodes := by
  induction h with
  | nil => rfl
  | cons hsame _ ih => rw [levels, levels, ih, hsame.decision, hsame.position]

theorem pendings_congr (h : List.Forall₂ Same nodes nodes') : pendings nodes' = pendings nodes := by
  induction h with
  | nil => rfl
  | cons hsame _ ih => rw [pendings_cons, pendings_cons, ih, hsame.pending]

theorem Same.waits {n n' : SearchNode α} (h : n.Same n') (hn : n.Waits) : n'.Waits := by
  unfold Waits Childless at hn ⊢
  rw [h.isExplored, h.openSubtrees, h.pending]
  exact hn

theorem exists_same (h : List.Forall₂ Same nodes nodes') {n' : SearchNode α} (hn' : n' ∈ nodes') :
    ∃ n ∈ nodes, n.Same n' := by
  induction h with
  | nil => cases hn'
  | cons hsame _ ih =>
      rcases List.mem_cons.mp hn' with rfl | hn'
      · exact ⟨_, List.mem_cons_self .., hsame⟩
      · obtain ⟨n, hn, hsame⟩ := ih hn'
        exact ⟨n, List.mem_cons_of_mem _ hn, hsame⟩

theorem isChain_congr (h : List.Forall₂ Same nodes nodes')
    (hchain : nodes.IsChain fun n parent => n.decision.isSome ∧ parent.Waits) :
    nodes'.IsChain fun n parent => n.decision.isSome ∧ parent.Waits := by
  induction h with
  | nil => exact .nil
  | @cons n n' rest rest' hsame hrest ih =>
      cases hrest with
      | nil => exact .singleton _
      | @cons parent parent' below below' hparent hbelow =>
          rw [List.isChain_cons_cons] at hchain ⊢
          exact ⟨⟨by rw [hsame.decision]; exact hchain.1.1, hparent.waits hchain.1.2⟩, ih hchain.2⟩

end Same

end SearchNode

/-- What became of a child. -/
inductive Fate where
  /-- It is left on the node that was branched on. -/
  | pending
  /-- It became the current node. -/
  | entered
  /-- The lower bound of its parent exceeded the cutoff. -/
  | dropped
  deriving DecidableEq, Repr

/-- A child of a node that was branched on. -/
structure Child (α : Type) where
  decision : Decision α
  fate : Fate

/-- The decision of a child that is left. -/
def Child.pending? (c : Child α) : Option (Decision α) :=
  if c.fate = .pending then some c.decision else none

/-- The children that are left, in the order in which their parents were branched on. -/
def Child.pendings (ledger : List (Child α)) : List (Decision α) := ledger.filterMap Child.pending?

/-- The last child that is left has its place in the ledger. -/
theorem Child.exists_of_pendings {ledger : List (Child α)} {others : List (Decision α)}
    {decision : Decision α} (h : Child.pendings ledger = others ++ [decision]) :
    ∃ before after, ledger = before ++ ⟨decision, .pending⟩ :: after ∧
      Child.pendings before = others ∧ Child.pendings after = [] := by
  obtain ⟨before, rest, rfl, hbefore, hrest⟩ := List.filterMap_eq_append_iff.mp h
  obtain ⟨skipped, child, after, rfl, hskipped, hchild, hafter⟩ :=
    List.filterMap_eq_cons_iff.mp hrest
  have hsame : child = ⟨decision, .pending⟩ := by
    obtain ⟨_, fate⟩ := child
    cases fate <;> simp_all [Child.pending?]
  refine ⟨before ++ skipped, after, by simp [hsame], ?_, hafter⟩
  rw [Child.pendings, List.filterMap_append, hbefore,
    List.filterMap_eq_nil_iff.mpr hskipped, List.append_nil]

theorem Child.pendings_append (before after : List (Child α)) :
    Child.pendings (before ++ after) = Child.pendings before ++ Child.pendings after :=
  List.filterMap_append ..

namespace Search

variable [Scalar α] {s s' s'' : Search α ρ}

/-- The search worked on its current node and stayed on its depth level. -/
structure Works (s s' : Search α ρ) : Prop where
  nodes : List.Forall₂ SearchNode.Same s.nodes s'.nodes
  domain : Domain.Deepened s.domain s'.domain
  turns : Domain.Turns s.domain s'.domain

theorem Works.refl (s : Search α ρ) : Works s s :=
  ⟨List.forall₂_same.mpr fun n _ => .refl n, .refl _, .refl⟩

/-- The current node is as it was, but for what was learned about its subtree. -/
theorem Works.top (h : s.Works s') {n' : SearchNode α} (hn' : n' ∈ s'.nodes.head?) :
    ∃ n ∈ s.nodes.head?, n.Same n' := by
  have hsame := h.nodes
  cases hnodes : s.nodes with
  | nil =>
      rw [hnodes, List.forall₂_nil_left_iff] at hsame
      rw [hsame] at hn'
      cases hn'
  | cons n rest =>
      rw [hnodes, List.forall₂_cons_left_iff] at hsame
      obtain ⟨top, below, hn, -, hbelow⟩ := hsame
      rw [hbelow] at hn'
      obtain rfl := Option.some.inj hn'
      exact ⟨n, rfl, hn⟩

/-- The search made a child the current node. The parent, which was the current node before, keeps
the given decision for its other child. -/
structure Entered (decision : Decision α) (left : Option (Decision α)) (s s' : Search α ρ) :
    Prop where
  nodes : ∃ node rest parent child, s.nodes = node :: rest ∧ s'.nodes = child :: parent :: rest ∧
    parent.decision = node.decision ∧ parent.position = node.position ∧
    parent.pending = left ∧ parent.Waits ∧
    child.decision = some decision ∧ child.position = s.domain.log.size ∧ child.Childless
  feasible : s.domain.infeasible = none
  domain : s.domain.changeBound decision.change .branching = .ok s'.domain

/-- The current node was finished. -/
structure Finished (s s' : Search α ρ) : Prop where
  nodes : ∃ node rest, s.nodes = node :: rest ∧ s'.nodes = node.finish :: rest
  domain : s'.domain = s.domain

/-- A finished node was taken off the stack, and the depth level that it opened was undone. -/
structure Popped (s s' : Search α ρ) : Prop where
  nodes : ∃ node, s.nodes = node :: s'.nodes ∧ node.isFinished = true ∧ node.pending = none ∧
    if node.decision.isSome then ∃ undone, s.domain.backtrack = .ok (undone, s'.domain)
    else s'.domain = s.domain

/-- The child that was left of the current node was dropped. -/
structure Dropped (decision : Decision α) (cutoff : α) (s s' : Search α ρ) : Prop where
  nodes : ∃ node rest, s.nodes = node :: rest ∧ node.pending = some decision ∧
    cutoff < node.lowerBound ∧
    s'.nodes = { node with pending := none, openSubtrees := 0 } :: rest
  domain : s'.domain = s.domain

end Search

/-- One thing that a search can do to its stack and its domain, and what the ledger notes. -/
inductive Move [Scalar α] : List (Child α) × SearchState α ρ σ η τ →
    List (Child α) × SearchState α ρ σ η τ → Prop
  | works {ledger : List (Child α)} {s s' : SearchState α ρ σ η τ} (h : s.search.Works s'.search) :
      Move (ledger, s) (ledger, s')
  | finished {ledger : List (Child α)} {s s' : SearchState α ρ σ η τ}
      (h : s.search.Finished s'.search) : Move (ledger, s) (ledger, s')
  | popped {ledger : List (Child α)} {s s' : SearchState α ρ σ η τ}
      (h : s.search.Popped s'.search) : Move (ledger, s) (ledger, s')
  | branched {ledger : List (Child α)} {s s' : SearchState α ρ σ η τ} {first second : Decision α}
      (h : s.search.Entered first (some second) s'.search)
      (hnode : ∀ node ∈ s.search.nodes.head?, node.pending = none) :
      Move (ledger, s) (ledger ++ [⟨first, .entered⟩, ⟨second, .pending⟩], s')
  | entered {before after : List (Child α)} {s s' : SearchState α ρ σ η τ} {decision : Decision α}
      (h : s.search.Entered decision none s'.search)
      (hnode : ∀ node ∈ s.search.nodes.head?, node.pending = some decision)
      (hlast : Child.pendings after = []) :
      Move (before ++ ⟨decision, .pending⟩ :: after, s)
        (before ++ ⟨decision, .entered⟩ :: after, s')
  | dropped {before after : List (Child α)} {s s' : SearchState α ρ σ η τ} {decision : Decision α}
      (h : s.search.Dropped decision s.shared.cutoff s'.search)
      (hlast : Child.pendings after = []) :
      Move (before ++ ⟨decision, .pending⟩ :: after, s)
        (before ++ ⟨decision, .dropped⟩ :: after, s')

/-- What a search can do in several steps. -/
abbrev Moves [Scalar α] : List (Child α) × SearchState α ρ σ η τ →
    List (Child α) × SearchState α ρ σ η τ → Prop :=
  Relation.ReflTransGen Move

namespace Search

variable [Scalar α] {base : List Nat} {ledger ledger' : List (Child α)} {s s' : Search α ρ}

/-- The stack, the domain and the ledger are in step: the depth levels above some given ones are
those of the nodes that were created by decisions, and the log has the decision of each of them at
the position of its node. Every node above another one was created by a decision, and the one below
it waits. The children that are left are those of the ledger. -/
structure InStep (base : List Nat) (ledger : List (Child α)) (s : Search α ρ) : Prop where
  leveled : s.domain.Leveled
  levels : s.domain.branchings.toList = base ++ SearchNode.levels s.nodes
  logged : ∀ n ∈ s.nodes, ∀ decision, n.decision = some decision →
    ∃ entry, s.domain.log[n.position]? = some entry ∧
      entry.Decides decision.change s.domain.feastol
  chain : s.nodes.IsChain fun n parent => n.decision.isSome ∧ parent.Waits
  pendings : Child.pendings ledger = SearchNode.pendings s.nodes

namespace InStep

theorem works (h : s.InStep base ledger) (hworks : s.Works s') : s'.InStep base ledger where
  leveled := hworks.turns.leveled h.leveled
  levels := by
    rw [hworks.domain.branchings, SearchNode.levels_congr hworks.nodes]
    exact h.levels
  logged := by
    intro n' hn' decision hdecision
    obtain ⟨n, hn, hsame⟩ := SearchNode.exists_same hworks.nodes hn'
    obtain ⟨entry, hentry, hdecides⟩ := h.logged n hn decision (hsame.decision ▸ hdecision)
    refine ⟨entry, hsame.position ▸ hworks.domain.getElem? hentry, ?_⟩
    rw [hworks.turns.constant.2]
    exact hdecides
  chain := SearchNode.isChain_congr hworks.nodes h.chain
  pendings := by
    rw [SearchNode.pendings_congr hworks.nodes]
    exact h.pendings

/-- The current node may change in what its place on the stack does not depend on. -/
theorem top (h : s.InStep base ledger) {node node' : SearchNode α} {rest : List (SearchNode α)}
    (hnodes : s.nodes = node :: rest) (hnodes' : s'.nodes = node' :: rest)
    (hdecision : node'.decision = node.decision) (hposition : node'.position = node.position)
    (hdomain : s'.domain = s.domain)
    (hpendings : Child.pendings ledger' = SearchNode.pendings s'.nodes) :
    s'.InStep base ledger' where
  leveled := hdomain ▸ h.leveled
  levels := by
    rw [hdomain, h.levels, hnodes, hnodes', SearchNode.levels, SearchNode.levels, hdecision,
      hposition]
  logged := by
    intro n hn decision hn'
    rw [hnodes'] at hn
    rw [hdomain]
    rcases List.mem_cons.mp hn with rfl | hn
    · rw [hposition]
      exact h.logged node (hnodes ▸ List.mem_cons_self ..) decision (hdecision ▸ hn')
    · exact h.logged n (hnodes ▸ List.mem_cons_of_mem _ hn) decision hn'
  chain := by
    have hchain := h.chain
    rw [hnodes] at hchain
    rw [hnodes']
    cases rest with
    | nil => exact .singleton _
    | cons parent below =>
        rw [List.isChain_cons_cons] at hchain ⊢
        exact ⟨⟨by rw [hdecision]; exact hchain.1.1, hchain.1.2⟩, hchain.2⟩
  pendings := hpendings

/-- Undoing the level of the current node takes the domain back to where its decision was taken. -/
theorem undo (h : s.InStep base ledger) {node : SearchNode α} {rest : List (SearchNode α)}
    (hnodes : s.nodes = node :: rest) (hdecision : node.decision.isSome)
    {undone : Option (BoundChange α)} {d : Domain α}
    (hback : s.domain.backtrack = .ok (undone, d)) :
    d.branchings.toList = base ++ SearchNode.levels rest ∧
      d.log.toList = s.domain.log.toList.take node.position ∧ d.infeasible = none ∧
      ∃ entry, s.domain.log[node.position]? = some entry ∧ undone = some entry.change := by
  refine h.leveled.backtrack ?_ hback
  rw [h.levels, hnodes, SearchNode.levels, if_pos hdecision, List.append_assoc]

theorem popped (h : s.InStep base ledger) (hpopped : s.Popped s') : s'.InStep base ledger := by
  obtain ⟨node, hnodes, -, hpending, hdomain⟩ := hpopped
  have hchain := h.chain
  rw [hnodes] at hchain
  have hpendings : Child.pendings ledger = SearchNode.pendings s'.nodes := by
    rw [h.pendings, hnodes, SearchNode.pendings_cons, hpending, Option.toList_none,
      List.append_nil]
  by_cases hdecision : node.decision.isSome
  · rw [if_pos hdecision] at hdomain
    obtain ⟨undone, hback⟩ := hdomain
    have hturns := Domain.backtrack_turns hback
    obtain ⟨hlevels, hlog, -⟩ := h.undo hnodes hdecision hback
    refine ⟨hturns.leveled h.leveled, hlevels, fun n hn decision hn' => ?_, hchain.tail, hpendings⟩
    obtain ⟨entry, hentry, hdecides⟩ := h.logged n (hnodes ▸ List.mem_cons_of_mem _ hn) decision hn'
    refine ⟨entry, ?_, by rwa [hturns.constant.2]⟩
    -- the levels increase, so the decision of a node below was logged before that of this one
    have hbefore : n.position < node.position := by
      have hincreasing := h.leveled.increasing
      rw [h.levels, hnodes, SearchNode.levels, if_pos hdecision, ← List.append_assoc,
        List.pairwise_append] at hincreasing
      refine hincreasing.2.2 _ (List.mem_append_right _ ?_) _ (List.mem_singleton_self _)
      exact SearchNode.mem_levels hn (hn' ▸ rfl)
    rw [← Array.getElem?_toList] at hentry ⊢
    rw [hlog, List.getElem?_take_of_lt hbefore]
    exact hentry
  · rw [if_neg hdecision] at hdomain
    refine ⟨hdomain ▸ h.leveled, ?_, fun n hn decision hn' => ?_, hchain.tail, hpendings⟩
    · rw [hdomain, h.levels, hnodes, SearchNode.levels, if_neg hdecision, List.append_nil]
    · rw [hdomain]
      exact h.logged n (hnodes ▸ List.mem_cons_of_mem _ hn) decision hn'

theorem entered (h : s.InStep base ledger) {decision : Decision α} {left : Option (Decision α)}
    (hentered : s.Entered decision left s')
    (hpendings : Child.pendings ledger' = SearchNode.pendings s'.nodes) :
    s'.InStep base ledger' := by
  obtain ⟨⟨node, rest, parent, child, hnodes, hnodes', hdecision, hposition, -, hwaits, hchild,
    hplace, -⟩, hfeasible, hchange⟩ := hentered
  have hopened := Domain.changeBound_opened hchange hfeasible
  obtain ⟨entry, hdecides, hlog⟩ := hopened.log
  have hfeastol := (Domain.changeBound_sameSetting hchange).feastol
  refine ⟨Domain.Turn.leveled h.leveled (.change hchange), ?_,
    fun n hn taken hn' => ?_, ?_, hpendings⟩
  · rw [hopened.branchings, Array.toList_push, h.levels, hnodes, hnodes', SearchNode.levels,
      SearchNode.levels, SearchNode.levels, hdecision, hposition, hchild, hplace]
    simp
  · rw [hnodes'] at hn
    rw [hlog, hfeastol]
    have hkept (n : SearchNode α) (hn : n ∈ s.nodes) (hn' : n.decision = some taken) :
        ∃ e, (s.domain.log.push entry)[n.position]? = some e ∧
          e.Decides taken.change s.domain.feastol := by
      obtain ⟨e, he, hdecides⟩ := h.logged n hn taken hn'
      have hlt := (Array.getElem?_eq_some_iff.mp he).1
      refine ⟨e, ?_, hdecides⟩
      rw [Array.getElem?_push_lt hlt]
      exact (Array.getElem?_eq_getElem hlt).symm.trans he
    rcases List.mem_cons.mp hn with rfl | hn
    · obtain rfl := Option.some.inj (hchild.symm.trans hn')
      exact ⟨entry, by rw [hplace, Array.getElem?_push_size], hdecides⟩
    · rcases List.mem_cons.mp hn with rfl | hn
      · rw [hposition]
        exact hkept node (hnodes ▸ List.mem_cons_self ..) (hdecision ▸ hn')
      · exact hkept n (hnodes ▸ List.mem_cons_of_mem _ hn) hn'
  · have hchain := h.chain
    rw [hnodes] at hchain
    rw [hnodes', List.isChain_cons_cons, hchild]
    refine ⟨⟨rfl, hwaits⟩, ?_⟩
    cases rest with
    | nil => exact .singleton _
    | cons below rest =>
        rw [List.isChain_cons_cons] at hchain ⊢
        exact ⟨⟨by rw [hdecision]; exact hchain.1.1, hchain.1.2⟩, hchain.2⟩

end InStep

end Search

/-- Every move keeps the stack, the domain and the ledger in step. -/
theorem Move.inStep [Scalar α] {base : List Nat} {x x' : List (Child α) × SearchState α ρ σ η τ}
    (hmove : Move x x') (h : x.2.search.InStep base x.1) : x'.2.search.InStep base x'.1 := by
  cases hmove with
  | works hworks => exact h.works hworks
  | finished hfinished =>
      obtain ⟨⟨node, rest, hnodes, hnodes'⟩, hdomain⟩ := hfinished
      refine h.top hnodes hnodes' rfl rfl hdomain ?_
      rw [h.pendings, hnodes, hnodes', SearchNode.pendings_cons, SearchNode.pendings_cons]
      rfl
  | popped hpopped => exact h.popped hpopped
  | @branched _ _ _ first second hentered hnode =>
      refine h.entered hentered ?_
      obtain ⟨⟨node, rest, parent, child, hnodes, hnodes', -, -, hleft, -, -, -, hchild⟩, -, -⟩ :=
        hentered
      have hnone : node.pending = none := hnode node (by rw [hnodes]; rfl)
      rw [Child.pendings_append, h.pendings, hnodes, hnodes', SearchNode.pendings_cons,
        SearchNode.pendings_cons, SearchNode.pendings_cons, hleft, hchild.2, hnone]
      simp [Child.pendings, Child.pending?]
  | @entered before after _ _ decision hentered hnode hlast =>
      refine h.entered hentered ?_
      obtain ⟨⟨node, rest, parent, child, hnodes, hnodes', -, -, hleft, -, -, -, hchild⟩, -, -⟩ :=
        hentered
      have hsome : node.pending = some decision := hnode node (by rw [hnodes]; rfl)
      have hpendings := h.pendings
      rw [Child.pendings_append, ← List.singleton_append, Child.pendings_append, hlast, hnodes,
        SearchNode.pendings_cons, hsome] at hpendings
      rw [Child.pendings_append, ← List.singleton_append, Child.pendings_append, hlast, hnodes',
        SearchNode.pendings_cons, SearchNode.pendings_cons, hleft, hchild.2]
      simpa [Child.pendings, Child.pending?] using hpendings
  | @dropped before after _ _ decision hdropped hlast =>
      obtain ⟨⟨node, rest, hnodes, hsome, -, hnodes'⟩, hdomain⟩ := hdropped
      refine h.top hnodes hnodes' rfl rfl hdomain ?_
      have hpendings := h.pendings
      rw [Child.pendings_append, ← List.singleton_append, Child.pendings_append, hlast, hnodes,
        SearchNode.pendings_cons, hsome] at hpendings
      rw [Child.pendings_append, ← List.singleton_append, Child.pendings_append, hlast, hnodes',
        SearchNode.pendings_cons]
      simpa [Child.pendings, Child.pending?] using hpendings

namespace Search.InStep

variable [Scalar α] {base : List Nat} {ledger : List (Child α)} {s s' : SearchState α ρ σ η τ}
  {decision : Decision α}

/-- Entering the child that was left of the current node is a move. -/
theorem enters (h : s.search.InStep base ledger)
    (hentered : s.search.Entered decision none s'.search)
    (hnode : ∀ node ∈ s.search.nodes.head?, node.pending = some decision) :
    ∃ ledger', Move (ledger, s) (ledger', s') := by
  obtain ⟨⟨node, rest, _, _, hnodes, -⟩, -, -⟩ := id hentered
  have hpendings := h.pendings
  rw [hnodes, SearchNode.pendings_cons, hnode node (by rw [hnodes]; rfl)] at hpendings
  obtain ⟨before, after, rfl, -, hafter⟩ := Child.exists_of_pendings hpendings
  exact ⟨_, .entered hentered hnode hafter⟩

/-- So is dropping it. -/
theorem drops (h : s.search.InStep base ledger)
    (hdropped : s.search.Dropped decision s.shared.cutoff s'.search) :
    ∃ ledger', Move (ledger, s) (ledger', s') := by
  obtain ⟨⟨node, rest, hnodes, hpending, -⟩, -⟩ := id hdropped
  have hpendings := h.pendings
  rw [hnodes, SearchNode.pendings_cons, hpending] at hpendings
  obtain ⟨before, after, rfl, -, hafter⟩ := Child.exists_of_pendings hpendings
  exact ⟨_, .dropped hdropped hafter⟩

end Search.InStep

end BranchBound
