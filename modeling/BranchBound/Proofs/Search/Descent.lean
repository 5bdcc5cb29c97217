import BranchBound.Proofs.Search.BranchingCuts
import BranchBound.Proofs.Search.Suspension
import BranchBound.Proofs.Search.Visit

/-!
# The box becomes narrower on the way down

Every child that a search enters has a narrower box of integer columns than its parent had when it
was branched on. So the width of the box at an installed node limits how deep its subtree is, and
thereby how many nodes it has: what is open on the stack has an allowance of nodes that may still be
evaluated, which no move increases except for branching, and branching uses up a node of it. While a
child waits, the box of its parent does not change, which is kept along with the stack.
-/

namespace BranchBound

open Checked BranchBound.Action

namespace SearchNode

variable {α : Type} {W : Nat} {n : SearchNode α} {rest nodes nodes' : List (SearchNode α)}

/-- The number of nodes in a binary tree below a node at the given depth, this one included, if no
node is deeper than the limit. -/
def subtreeSize (W depth : Nat) : Nat := 2 ^ (W + 1 - depth) - 1

/-- A node is followed by two subtrees. -/
theorem subtreeSize_eq {depth : Nat} (h : depth ≤ W) :
    subtreeSize W depth = 2 * subtreeSize W (depth + 1) + 1 := by
  have hpos : 0 < 2 ^ (W - depth) := Nat.two_pow_pos _
  rw [subtreeSize, subtreeSize, Nat.succ_sub h, Nat.pow_succ, Nat.add_sub_add_right]
  omega

/-- The number of nodes that may still be evaluated below some open items. -/
def allowanceOf (W : Nat) (items : List (OpenItem α)) : Nat :=
  (items.map fun item => subtreeSize W item.decisions.length).sum

/-- The number of nodes that may still be evaluated for what is open on a stack. -/
def allowance (W : Nat) (nodes : List (SearchNode α)) : Nat := allowanceOf W (openItems nodes)

theorem allowanceOf_leftItems_cons : allowanceOf W (leftItems (n :: rest)) =
    (if n.pending.isSome then subtreeSize W ((path (n :: rest)).length + 1) else 0) +
      allowanceOf W (leftItems rest) := by
  rw [leftItems, allowanceOf, List.map_append, List.sum_append]
  cases n.pending with
  | none => rfl
  | some decision => simp [leftItem, allowanceOf]

theorem allowance_cons : allowance W (n :: rest) =
    (if n.isExplored then 0 else subtreeSize W (path (n :: rest)).length) +
      allowanceOf W (leftItems (n :: rest)) := by
  rw [allowance, openItems]
  split
  · rw [Nat.zero_add]
  · simp [allowanceOf]

/-- A finished node is not counted any more. -/
theorem allowance_finish : allowance W (n :: rest) =
    (if n.isExplored then 0 else subtreeSize W (path (n :: rest)).length) +
      allowance W (n.finish :: rest) := by
  rw [allowance_cons, allowance_cons, allowanceOf_leftItems_cons, allowanceOf_leftItems_cons,
    path_cons, path_cons]
  simp [finish]

theorem path_congr (h : List.Forall₂ Same nodes nodes') : path nodes' = path nodes := by
  induction h with
  | nil => rfl
  | cons hsame _ ih => rw [path_cons, path_cons, ih, hsame.decision]

theorem allowanceOf_leftItems_congr (h : List.Forall₂ Same nodes nodes') :
    allowanceOf W (leftItems nodes') = allowanceOf W (leftItems nodes) := by
  induction h with
  | nil => rfl
  | cons hsame hrest ih =>
      rw [allowanceOf_leftItems_cons, allowanceOf_leftItems_cons, ih, hsame.pending,
        path_congr (.cons hsame hrest)]

theorem allowance_congr (h : List.Forall₂ Same nodes nodes') :
    allowance W nodes' = allowance W nodes := by
  cases h with
  | nil => rfl
  | cons hsame hrest =>
      rw [allowance_cons, allowance_cons, allowanceOf_leftItems_congr (.cons hsame hrest),
        path_congr (.cons hsame hrest), hsame.isExplored]

/-- Removing a finished node without a child that is left leaves what is open. -/
theorem allowance_tail (hexplored : n.isExplored = true) (hpending : n.pending = none)
    (hwaits : ∀ n ∈ rest, n.Waits) : allowance W rest = allowance W (n :: rest) := by
  rw [allowance_cons, if_pos hexplored, allowanceOf_leftItems_cons, hpending, allowance,
    openItems_of_waits hwaits]
  simp

end SearchNode

namespace Search

variable {α ρ : Type} [Scalar α] {W : Nat} {s s' : Search α ρ} {decision : Decision α}
  {left : Option (Decision α)}

/-- The child that was left is open after it was entered, as it was before. -/
theorem Entered.allowance_le (h : s.Entered decision none s')
    (hpending : ∀ n ∈ s.nodes.head?, n.pending = some decision) :
    SearchNode.allowance W s'.nodes ≤ SearchNode.allowance W s.nodes := by
  obtain ⟨⟨node, rest, parent, child, hnodes, hnodes', hdecision, -, hleft, hwaits, hchild, -,
    hchildless⟩, -, -⟩ := h
  have hnode : node.pending = some decision := hpending node (by rw [hnodes]; rfl)
  have hpath : SearchNode.path (parent :: rest) = SearchNode.path (node :: rest) := by
    rw [SearchNode.path_cons, SearchNode.path_cons, hdecision]
  rw [hnodes, hnodes', SearchNode.allowance_cons, SearchNode.allowance_cons,
    SearchNode.allowanceOf_leftItems_cons, SearchNode.allowanceOf_leftItems_cons,
    SearchNode.allowanceOf_leftItems_cons, hchildless.2, hleft, hnode, SearchNode.path_cons child,
    hchild, hpath]
  simp only [Option.isSome_none, Option.isSome_some, Option.toList_some, List.length_append,
    List.length_singleton]
  cases child.isExplored <;> cases node.isExplored <;> simp
  omega

/-- Branching on a node that is not too deep takes one off the allowance: the two subtrees of its
children have one node less than its own. -/
theorem Entered.allowance_lt {second : Decision α} (h : s.Entered decision (some second) s')
    (hopen : ∀ n ∈ s.nodes.head?, n.isExplored = false ∧ n.pending = none)
    (hdepth : (SearchNode.path s.nodes).length ≤ W) :
    SearchNode.allowance W s'.nodes < SearchNode.allowance W s.nodes := by
  obtain ⟨⟨node, rest, parent, child, hnodes, hnodes', hdecision, -, hleft, hwaits, hchild, -,
    hchildless⟩, -, -⟩ := h
  obtain ⟨hexplored, hpending⟩ := hopen node (by rw [hnodes]; rfl)
  have hpath : SearchNode.path (parent :: rest) = SearchNode.path (node :: rest) := by
    rw [SearchNode.path_cons, SearchNode.path_cons, hdecision]
  have hsize := SearchNode.subtreeSize_eq hdepth
  rw [hnodes] at hsize
  rw [hnodes, hnodes', SearchNode.allowance_cons, SearchNode.allowance_cons,
    SearchNode.allowanceOf_leftItems_cons, SearchNode.allowanceOf_leftItems_cons,
    SearchNode.allowanceOf_leftItems_cons, hchildless.2, hleft, hexplored, hpending,
    SearchNode.path_cons child, hchild, hpath]
  simp only [Option.isSome_none, Option.isSome_some, Option.toList_some, List.length_append,
    List.length_singleton]
  split <;> simp <;> omega

end Search

open Exact

variable {m : Model Exact} {w : ℚ}

namespace PropagationState.Narrow

variable {s : PropagationState Exact} {d : Domain Exact}

theorem backtracked (h : s.Narrow m) (hm : m.Boxed) {undone : Option (BoundChange Exact)}
    (hback : s.domain.backtrack = .ok (undone, d)) : PropagationState.Narrow m ⟨s.pools, d⟩ := by
  have hwhole : Operation.Whole m .backtrack := ⟨nofun, nofun⟩
  refine Operation.narrow ?_ hm hwhole h
  simp only [Operation.perform, PropagationState.onDomain_eq_ok, bind_eq_ok, pure_eq_ok]
  exact ⟨d, ⟨_, hback, rfl⟩, rfl⟩

theorem changed (h : s.Narrow m) (hm : m.Boxed) {change : BoundChange Exact}
    (hwhole : change.Whole m) {reason : Reason}
      (hchange : s.domain.changeBound change reason = .ok d) :
    PropagationState.Narrow m ⟨s.pools, d⟩ := by
  have hop : Operation.Whole m (.changeBound change reason) := by
    refine ⟨fun y hy => ?_, nofun⟩
    rw [List.mem_singleton.mp hy]
    exact hwhole
  refine Operation.narrow ?_ hm hop h
  rw [Operation.perform, PropagationState.onDomain_eq_ok]
  exact ⟨d, hchange, rfl⟩

/-- Before a decision the box was one of whole numbers as well, and it is found again by
rewinding. -/
theorem before {pools : Pools Exact} {d' : Domain Exact} (h : PropagationState.Narrow m ⟨pools, d'⟩)
    (hleveled : d.Leveled) (hfeasible : d.infeasible = none) {change : BoundChange Exact}
    (hchange : d.changeBound change .branching = .ok d') :
    PropagationState.Narrow m ⟨pools, d⟩ ∧ d'.trail.rewindTo d.log.size = d.trail := by
  have hstart := Trail.fresh_ofModel m
  obtain ⟨-, entry, -, hlog⟩ := Domain.changeBound_opened hchange hfeasible
  have hback : d'.trail.rewindTo d.log.size = d.trail := by
    rcases Domain.changeBound_eq_ok hchange with ⟨hinfeasible, -⟩ |
      ⟨-, _, _, -, -, ⟨-, rfl⟩ | ⟨value, crossing, -, happly⟩⟩
    · rw [hfeasible] at hinfeasible
      cases hinfeasible
    · simpa using congrArg Array.size hlog
    · obtain ⟨previous, hprevious, hfollows⟩ := Domain.applyChange_trail happly
      have htrail := hfollows.trail
      rw [Domain.withTrail_trail] at htrail
      rw [htrail]
      exact Trail.rewindTo_append_size _ _ _ _ hleveled.decisionsLogged hprevious
  have hbuilt : Trail.Narrowed m d.trail := hback ▸ h.domain.built.narrowed_rewindTo d.log.size
  refine ⟨⟨⟨(Domain.changeBound_sameSetting hchange).model.symm.trans h.domain.model, hbuilt,
    fun _ => ?_⟩, h.literals.pools, h.literals.domain.of_stirs
      (Domain.changeBound_stirs hchange)⟩, hback⟩
  rw [← hback]
  refine h.domain.built.of_rewindTo hstart (fun _ _ _ hallowed => hallowed.ordered) ?_
  change d.log.size < d'.log.size
  rw [hlog, Array.size_push]
  exact Nat.lt_succ_self _

end PropagationState.Narrow

/-- The second box of integer columns is not empty, and narrower than the first one. -/
def Model.Narrower (m : Model Exact) (t t' : Trail Exact) : Prop :=
  0 ≤ m.width t'.values ∧ m.width t'.values + 1 ≤ m.width t.values

section Descent

variable {ρ σ η τ : Type}

/-- What a search goes through by moves, if no child is entered whose box is not narrower than that
of its parent was when this was branched on. A child is entered when its parent is branched on, or
when the search has returned to the box in which this was done. -/
inductive Descends (m : Model Exact) (start : List (Child Exact) × SearchState Exact ρ σ η τ) :
    List (Child Exact) × SearchState Exact ρ σ η τ → Prop
  | start : Descends m start start
  | within {x x' : List (Child Exact) × SearchState Exact ρ σ η τ} (h : Descends m start x)
      (hmove : Move x x') (hlength : x'.2.search.nodes.length ≤ x.2.search.nodes.length) :
      Descends m start x'
  | branched {x x' : List (Child Exact) × SearchState Exact ρ σ η τ} {first second : Decision Exact}
      (h : Descends m start x) (hmove : Move x x')
      (hentered : x.2.search.Entered first (some second) x'.2.search)
      (hnarrower : m.Narrower x.2.search.domain.trail x'.2.search.domain.trail) :
      Descends m start x'
  | returned {x x' y y' : List (Child Exact) × SearchState Exact ρ σ η τ}
      {first second : Decision Exact} (h : Descends m start x) (hmove : Move x x')
      (hentered : x.2.search.Entered second none x'.2.search) (hy : Descends m start y)
      (hbranched : Move y y') (hsplit : y.2.search.Entered first (some second) y'.2.search)
      (hpath : SearchNode.path x.2.search.nodes = SearchNode.path y.2.search.nodes)
      (htrail : x.2.search.domain.trail = y.2.search.domain.trail)
      (hnarrower : m.Narrower y.2.search.domain.trail x'.2.search.domain.trail) :
      Descends m start x'

/-- The decision cuts the box in which the node at the end of the path was branched on. -/
def CutAt (m : Model Exact) (start : List (Child Exact) × SearchState Exact ρ σ η τ)
    (path : List (Decision Exact)) (t : Trail Exact) (second : Decision Exact) : Prop :=
  m.Cuts t.values second.change ∧ ∃ y y' first, Descends m start y ∧ Move y y' ∧
    y.2.search.Entered first (some second) y'.2.search ∧
      path = SearchNode.path y.2.search.nodes ∧ t = y.2.search.domain.trail

namespace SearchNode

/-- A node has room: neither its depth nor, while the box is not empty, its depth and the width of
the box together exceed the limit. The child that is left of it cuts the box. -/
structure Roomy (m : Model Exact) (w : ℚ) (start : List (Child Exact) × SearchState Exact ρ σ η τ)
    (t : Trail Exact) (path : List (Decision Exact)) (pending : Option (Decision Exact)) :
    Prop where
  depth_le : path.length ≤ w
  width_le : t.OrderedOn m → m.width t.values + path.length ≤ w
  cuts : ∀ second ∈ pending, CutAt m start path t second

/-- Every node of the stack has room in the box to which the search returns when the nodes above are
removed, and this box was narrower than that of the parent when the node was entered. -/
def Fits (m : Model Exact) (w : ℚ) (start : List (Child Exact) × SearchState Exact ρ σ η τ) :
    Trail Exact → List (SearchNode Exact) → Prop
  | _, [] => True
  | t, n :: rest =>
    Roomy m w start t (path (n :: rest)) n.pending ∧
      (n.decision.isSome → m.Narrower (t.rewindTo n.position) (t.rewindTo (n.position + 1)) ∧
        Fits m w start (t.rewindTo n.position) rest)

variable {start : List (Child Exact) × SearchState Exact ρ σ η τ} {t t' : Trail Exact}
  {n : SearchNode Exact} {rest nodes nodes' : List (SearchNode Exact)}

theorem Fits.congr (h : Fits m w start t nodes) (hsame : List.Forall₂ Same nodes nodes') :
    Fits m w start t nodes' := by
  induction hsame generalizing t with
  | nil => trivial
  | @cons n n' rest rest' hn hrest ih =>
      refine ⟨?_, fun hdecision => ?_⟩
      · rw [hn.pending, path_congr (.cons hn hrest)]
        exact h.1
      · rw [hn.position]
        obtain ⟨hnarrower, hbelow⟩ := h.2 (hn.decision ▸ hdecision)
        exact ⟨hnarrower, ih hbelow⟩

/-- Narrowing the box of a node without a child that is left leaves room. -/
theorem Fits.narrowed (h : Fits m w start t nodes) (hm : m.Boxed) (ht : Trail.Narrowed m t)
    (ht' : Trail.Narrowed m t') (hlog : t.log.toList <+: t'.log.toList)
    (hpending : ∀ n ∈ nodes.head?, n.pending = none)
    (hposition : ∀ n ∈ nodes.head?, n.decision.isSome → n.position < t.log.size) :
    Fits m w start t' nodes := by
  have hback {q : Nat} (hq : q ≤ t.log.size) : t'.rewindTo q = t.rewindTo q :=
    ht.rewindTo_eq (Trail.fresh_ofModel m) ht' hlog hq
  cases nodes with
  | nil => trivial
  | cons n rest =>
      obtain ⟨hroomy, hbelow⟩ := h
      refine ⟨⟨hroomy.depth_le, fun hordered => ?_, ?_⟩, fun hdecision => ?_⟩
      · have hbefore := ht'.orderedOn_rewindTo hordered t.log.size
        rw [hback (Nat.le_refl _),
          Trail.rewindTo_size _ (ht.decisionsLogged (Trail.fresh_ofModel m))] at hbefore
        linarith [hroomy.width_le hbefore, ht'.width_le hm hordered ht hlog]
      · rw [hpending n rfl]
        exact nofun
      · have hlt := hposition n rfl hdecision
        rw [hback hlt.le, hback hlt]
        exact hbelow hdecision

/-- In a stack that fits every node had, when it was entered, a narrower box than its parent. -/
theorem Fits.narrower (h : Fits m w start t nodes)
    (hchain : nodes.IsChain fun n parent => n.decision.isSome ∧ parent.Waits)
    (hincreasing : (levels nodes).Pairwise (· < ·)) (hn : n ∈ nodes)
    (hdecision : n.decision.isSome) :
    m.Narrower (t.rewindTo n.position) (t.rewindTo (n.position + 1)) := by
  induction nodes generalizing t with
  | nil => cases hn
  | cons top rest ih =>
      rcases List.mem_cons.mp hn with rfl | hn
      · exact (h.2 hdecision).1
      · have htop : top.decision.isSome := by
          cases rest with
          | nil => cases hn
          | cons parent below => exact (List.isChain_cons_cons.mp hchain).1.1
        rw [levels, if_pos htop, List.pairwise_append] at hincreasing
        have hlt : n.position < top.position :=
          hincreasing.2.2 _ (mem_levels hn hdecision) _ (List.mem_singleton_self _)
        have hnarrower := ih (h.2 htop).2 hchain.tail hincreasing.1 hn
        rwa [Trail.rewindTo_rewindTo _ hlt.le, Trail.rewindTo_rewindTo _ hlt] at hnarrower

end SearchNode

/-- The search descended from where it started, and is in step. Its box is one of whole numbers,
every node on its stack has room, and an allowance is not exceeded. -/
structure Descended (m : Model Exact) (w : ℚ) (base : List Nat)
    (start : List (Child Exact) × SearchState Exact ρ σ η τ) (allowance : Nat)
    (s : SearchState Exact ρ σ η τ) : Prop where
  descends : ∃ ledger, Descends m start (ledger, s) ∧ s.search.InStep base ledger
  narrow : s.propagation.Narrow m
  fits : SearchNode.Fits m w start s.search.domain.trail s.search.nodes
  allowance : SearchNode.allowance ⌊w⌋₊ s.search.nodes ≤ allowance

variable {base : List Nat} {start : List (Child Exact) × SearchState Exact ρ σ η τ}
  {s s' : SearchState Exact ρ σ η τ}

namespace Descended

variable {allowance : Nat}

theorem exists_descends (h : Descended m w base start allowance s) :
    ∃ ledger, Descends m start (ledger, s) :=
  h.descends.imp fun _ hdescends => hdescends.1

/-- A move that adds no node to the stack. -/
theorem still (h : Descended m w base start allowance s)
    (hmove : ∀ ledger, s.search.InStep base ledger → ∃ ledger', Move (ledger, s) (ledger', s'))
    (hlength : s'.search.nodes.length ≤ s.search.nodes.length) :
    ∃ ledger, Descends m start (ledger, s') ∧ s'.search.InStep base ledger := by
  obtain ⟨ledger, hdescends, hstep⟩ := h.descends
  obtain ⟨ledger', hmove⟩ := hmove ledger hstep
  exact ⟨ledger', .within hdescends hmove hlength, hmove.inStep hstep⟩

theorem works (h : Descended m w base start allowance s) (hm : m.Boxed)
    (hworks : s.search.Works s'.search) (hnarrow : s'.propagation.Narrow m)
    (hpending : ∀ n ∈ s.search.nodes.head?, n.pending = none) :
    Descended m w base start allowance s' := by
  refine ⟨h.still (fun _ _ => ⟨_, .works hworks⟩) hworks.nodes.length_eq.ge, hnarrow, ?_, ?_⟩
  · refine (h.fits.narrowed hm h.narrow.domain.built hnarrow.domain.built hworks.domain.log hpending
      fun n hn hdecision => ?_).congr hworks.nodes
    obtain ⟨ledger, -, hstep⟩ := h.descends
    obtain ⟨decision, hdecision⟩ := Option.isSome_iff_exists.mp hdecision
    obtain ⟨entry, hentry, -⟩ := hstep.logged n (List.mem_of_mem_head? hn) decision hdecision
    exact (Array.getElem?_eq_some_iff.mp hentry).1
  · rw [SearchNode.allowance_congr hworks.nodes]
    exact h.allowance

/-- Nothing matters but the nodes, the domain and the pools. -/
theorem congr (h : Descended m w base start allowance s)
    (hnodes : s'.search.nodes = s.search.nodes) (hpropagation : s'.propagation = s.propagation) :
    Descended m w base start allowance s' := by
  have hdomain : s'.search.domain = s.search.domain := congrArg PropagationState.domain hpropagation
  have hworks : s.search.Works s'.search := by
    refine ⟨?_, ?_, ?_⟩
    · rw [hnodes]
      exact List.forall₂_same.mpr fun n _ => .refl n
    · rw [hdomain]
      exact .refl _
    · rw [hdomain]
  refine ⟨h.still (fun _ _ => ⟨_, .works hworks⟩) (by rw [hnodes]),
    hpropagation ▸ h.narrow, ?_, ?_⟩
  · rw [hnodes, hdomain]
    exact h.fits
  · rw [hnodes]
    exact h.allowance

theorem finished (h : Descended m w base start allowance s)
    (hfinished : s.search.Finished s'.search) (hnarrow : s'.propagation.Narrow m) :
    Descended m w base start allowance s' := by
  obtain ⟨⟨node, rest, hnodes, hnodes'⟩, hdomain⟩ := id hfinished
  refine ⟨h.still (fun _ _ => ⟨_, .finished hfinished⟩) (by rw [hnodes, hnodes']; rfl),
    hnarrow, ?_, ?_⟩
  · have hfits := h.fits
    rw [hnodes] at hfits
    rw [hnodes', hdomain]
    refine ⟨?_, hfits.2⟩
    have hpath : SearchNode.path (node.finish :: rest) = SearchNode.path (node :: rest) := by
      rw [SearchNode.path_cons, SearchNode.path_cons]
      rfl
    rw [hpath]
    exact hfits.1
  · have hle := h.allowance
    rw [hnodes, SearchNode.allowance_finish] at hle
    rw [hnodes']
    omega

/-- Removing a node takes the search back to the box in which its parent was branched on. -/
theorem popped (h : Descended m w base start allowance s) (hm : m.Boxed)
    (hpopped : s.search.Popped s'.search) (hpools : s'.shared.pools = s.shared.pools) :
    Descended m w base start allowance s' := by
  obtain ⟨node, hnodes, hfinished, hpending, hdomain⟩ := id hpopped
  obtain ⟨ledger, -, hstep⟩ := h.descends
  have hexplored : node.isExplored = true := ((Bool.and_eq_true _ _).mp hfinished).1
  have hreaches : Reaches base (ledger, s) (fun _ _ => True) s :=
    ⟨ledger, .refl, hstep, fun _ _ => trivial⟩
  have hfits := h.fits
  rw [hnodes] at hfits
  have hallowance : SearchNode.allowance ⌊w⌋₊ s'.search.nodes ≤ allowance := by
    rw [SearchNode.allowance_tail hexplored hpending (SearchStep.waits_of_reaches hreaches hnodes),
      ← hnodes]
    exact h.allowance
  have hdescends := h.still (fun _ _ => ⟨_, .popped hpopped⟩) (by rw [hnodes]; simp)
  by_cases hdecision : node.decision.isSome
  · rw [if_pos hdecision] at hdomain
    obtain ⟨undone, hback⟩ := hdomain
    have hnarrow : s'.propagation.Narrow m := by
      rw [SearchState.propagation, hpools]
      exact h.narrow.backtracked hm hback
    have htrail : s'.search.domain.trail = s.search.domain.trail.rewindTo node.position := by
      refine hnarrow.domain.built.unique (Trail.fresh_ofModel m)
        (h.narrow.domain.built.narrowed_rewindTo _) ?_
      rw [Trail.rewindTo_log, ← Array.toList_inj]
      simpa using (hstep.undo hnodes hdecision hback).2.1
    refine ⟨hdescends, hnarrow, ?_, hallowance⟩
    rw [htrail]
    exact (hfits.2 hdecision).2
  · rw [if_neg hdecision] at hdomain
    have hsame : s'.propagation = s.propagation := congrArg₂ PropagationState.mk hpools hdomain
    -- only the node at the bottom was not created by a decision
    have hbottom : s'.search.nodes = [] := by
      have hchain := hstep.chain
      rw [hnodes] at hchain
      cases hrest : s'.search.nodes with
      | nil => rfl
      | cons parent below =>
          rw [hrest, List.isChain_cons_cons] at hchain
          exact absurd hchain.1.1 hdecision
    exact ⟨hdescends, hsame ▸ h.narrow, by rw [hbottom]; trivial, hallowance⟩

theorem dropped (h : Descended m w base start allowance s) {decision : Decision Exact}
    (hdropped : s.search.Dropped decision s.shared.cutoff s'.search)
    (hpools : s'.shared.pools = s.shared.pools) : Descended m w base start allowance s' := by
  obtain ⟨⟨node, rest, hnodes, hpending, -, hnodes'⟩, hdomain⟩ := id hdropped
  have hsame : s'.propagation = s.propagation := congrArg₂ PropagationState.mk hpools hdomain
  have hpath : SearchNode.path ({ node with pending := none, openSubtrees := 0 } :: rest) =
      SearchNode.path (node :: rest) := by
    rw [SearchNode.path_cons, SearchNode.path_cons]
  refine ⟨h.still (fun _ hstep => hstep.drops hdropped) (by rw [hnodes, hnodes']; rfl),
    hsame ▸ h.narrow, ?_, ?_⟩
  · have hfits := h.fits
    rw [hnodes] at hfits
    rw [hnodes', hdomain]
    refine ⟨?_, hfits.2⟩
    rw [hpath]
    exact ⟨hfits.1.depth_le, hfits.1.width_le, nofun⟩
  · have hle := h.allowance
    rw [hnodes, SearchNode.allowance_cons, SearchNode.allowanceOf_leftItems_cons] at hle
    rw [hnodes', SearchNode.allowance_cons, SearchNode.allowanceOf_leftItems_cons, hpath]
    simp only [Option.isSome_none, Bool.false_eq_true, if_false]
    omega

/-- Entering a child whose decision cuts the box. -/
theorem entered (h : Descended m w base start allowance s) (hm : m.Boxed)
    {decision : Decision Exact} {left : Option (Decision Exact)}
    (hentered : s.search.Entered decision left s'.search)
    (hpools : s'.shared.pools = s.shared.pools)
    (hcuts : m.Cuts s.search.domain.trail.values decision.change)
    (hleft : ∀ second ∈ left,
      CutAt m start (SearchNode.path s.search.nodes) s.search.domain.trail second)
    (hdescends : m.Narrower s.search.domain.trail s'.search.domain.trail →
      ∃ ledger, Descends m start (ledger, s') ∧ s'.search.InStep base ledger)
    {allowance' : Nat} (hallowance : SearchNode.allowance ⌊w⌋₊ s'.search.nodes ≤ allowance') :
    Descended m w base start allowance' s' := by
  obtain ⟨⟨node, rest, parent, child, hnodes, hnodes', hdecision, hposition, hpending, -, hchild,
    hplace, hchildless⟩, hfeasible, hchange⟩ := id hentered
  have hd : s.search.domain.Narrow m := h.narrow.domain
  have hnarrow : s'.propagation.Narrow m := by
    rw [SearchState.propagation, hpools]
    exact h.narrow.changed hm (fun _ => hcuts.whole) hchange
  have hnarrower : m.Narrower s.search.domain.trail s'.search.domain.trail :=
    hd.cut_width hm hcuts hfeasible hchange
  obtain ⟨previous, hprevious, happend⟩ := Domain.changeBound_of_cuts hcuts hfeasible hchange
  have hback : s'.search.domain.trail.rewindTo child.position = s.search.domain.trail := by
    rw [happend, hplace]
    exact Trail.rewindTo_append_size _ _ _ _ (hd.built.decisionsLogged (Trail.fresh_ofModel m))
      hprevious
  have hsize : s'.search.domain.trail.rewindTo (child.position + 1) = s'.search.domain.trail := by
    refine Trail.rewindTo_of_le (hnarrow.domain.built.decisionsLogged (Trail.fresh_ofModel m)) ?_
    change s'.search.domain.trail.log.size ≤ _
    rw [happend, Trail.append_log, Array.size_push, hplace]
    rfl
  have hfits := h.fits
  rw [hnodes] at hfits hleft
  have hpath : SearchNode.path (parent :: rest) = SearchNode.path (node :: rest) := by
    rw [SearchNode.path_cons, SearchNode.path_cons, hdecision]
  have hlength : ((SearchNode.path (child :: parent :: rest)).length : ℚ) =
      (SearchNode.path (node :: rest)).length + 1 := by
    rw [SearchNode.path_cons, hchild, hpath]
    simp
  have hroom := hfits.1.width_le (hd.ordered hfeasible)
  refine ⟨hdescends hnarrower, hnarrow, ?_, hallowance⟩
  rw [hnodes']
  refine ⟨⟨?_, fun _ => ?_, ?_⟩, fun _ => ?_⟩
  · rw [hlength]
    linarith [hnarrower.1, hnarrower.2]
  · rw [hlength]
    linarith [hnarrower.2]
  · rw [hchildless.2]
    exact nofun
  · rw [hback, hsize]
    refine ⟨hnarrower, ⟨hpath ▸ hfits.1.depth_le, hpath ▸ hfits.1.width_le,
      hpath ▸ hpending ▸ hleft⟩,
      fun hsome => ?_⟩
    rw [hposition]
    exact hfits.2 (hdecision ▸ hsome)

/-- The search enters the child that was left in the box in which its parent was branched on. -/
theorem returned (h : Descended m w base start allowance s) (hm : m.Boxed)
    {second : Decision Exact} (hentered : s.search.Entered second none s'.search)
    (hpools : s'.shared.pools = s.shared.pools)
    (hpending : ∀ n ∈ s.search.nodes.head?, n.pending = some second) :
    Descended m w base start allowance s' := by
  obtain ⟨node, rest, _, _, hnodes, -⟩ := hentered.nodes
  have hfits := h.fits
  rw [hnodes] at hfits
  obtain ⟨hcuts, y, y', first, hy, hbranched, hsplit, hpath, htrail⟩ :=
    hfits.1.cuts second (hpending node (by rw [hnodes]; rfl))
  refine h.entered hm hentered hpools hcuts nofun (fun hnarrower => ?_)
    ((hentered.allowance_le hpending).trans h.allowance)
  obtain ⟨ledger, hdescends, hstep⟩ := h.descends
  obtain ⟨ledger', hmove⟩ := hstep.enters hentered hpending
  exact ⟨ledger', .returned hdescends hmove hentered hy hbranched hsplit
    (by rw [hnodes]; exact hpath)
    htrail (htrail ▸ hnarrower), hmove.inStep hstep⟩

theorem depth_le (h : Descended m w base start allowance s) :
    (SearchNode.path s.search.nodes).length ≤ ⌊w⌋₊ := by
  cases hnodes : s.search.nodes with
  | nil => exact Nat.zero_le _
  | cons node rest =>
      have hfits := h.fits
      rw [hnodes] at hfits
      exact Nat.le_floor hfits.1.depth_le

/-- Every node on the stack had, when it was entered, a narrower box than its parent. -/
theorem narrower (h : Descended m w base start allowance s) :
    ∀ n ∈ s.search.nodes, n.decision.isSome →
      m.Narrower (s.search.domain.trail.rewindTo n.position)
        (s.search.domain.trail.rewindTo (n.position + 1)) := by
  intro n hn hdecision
  obtain ⟨ledger, -, hstep⟩ := h.descends
  have hincreasing := hstep.leveled.increasing
  rw [hstep.levels, List.pairwise_append] at hincreasing
  exact h.fits.narrower hstep.chain hincreasing.2.1 hn hdecision

section Evaluated

variable {before : Search Exact ρ} (hm : m.Boxed) (hworks : s.search.Works before)
  (hnarrow : s'.propagation.Narrow m)
  (hopen : ∀ n ∈ s.search.nodes.head?, n.isExplored = false ∧ n.pending = none)
include hm hworks hnarrow hopen

/-- Finishing a node that was not explored uses it up. -/
theorem concluded (h : Descended m w base start allowance s)
    (hfinished : before.Finished s'.search) :
    ∃ fewer < allowance, Descended m w base start fewer s' := by
  have hsame : SearchState.propagation ⟨before, s'.shared⟩ = s'.propagation :=
    congrArg (PropagationState.mk _) hfinished.domain.symm
  have hbefore : Descended m w base start allowance ⟨before, s'.shared⟩ :=
    h.works hm hworks (hsame ▸ hnarrow) fun n hn => (hopen n hn).2
  have hend := hbefore.finished hfinished hnarrow
  refine ⟨_, ?_, hend.descends, hend.narrow, hend.fits, Nat.le_refl _⟩
  obtain ⟨node, rest, hnodes, hnodes'⟩ := hfinished.nodes
  have htop : node ∈ before.nodes.head? := by
    rw [hnodes]
    rfl
  obtain ⟨n, hn, hnode⟩ := hworks.top htop
  have hsize := SearchNode.subtreeSize_eq hbefore.depth_le
  have hle := hbefore.allowance
  dsimp only at hsize hle
  rw [hnodes] at hsize hle
  rw [SearchNode.allowance_finish, hnode.isExplored, (hopen n hn).1] at hle
  rw [hnodes']
  simp only [Bool.false_eq_true, if_false] at hle
  omega

/-- Branching on a node that was not explored uses it up. -/
theorem split (h : Descended m w base start allowance s) {first second : Decision Exact}
    (hentered : before.Entered first (some second) s'.search) (hsplit : s'.Split m) :
    ∃ fewer < allowance, Descended m w base start fewer s' := by
  obtain ⟨_, -, hstep⟩ := h.descends
  have hleveled : before.domain.Leveled := (hstep.works hworks).leveled
  obtain ⟨hbox, hback⟩ := hnarrow.before hleveled hentered.feasible hentered.domain
  have hbefore : Descended m w base start allowance ⟨before, s'.shared⟩ :=
    h.works hm hworks hbox fun n hn => (hopen n hn).2
  have htop : ∀ n ∈ before.nodes.head?, n.isExplored = false ∧ n.pending = none := by
    intro n' hn'
    obtain ⟨n, hn, hsame⟩ := hworks.top hn'
    exact ⟨hsame.isExplored.trans (hopen n hn).1, hsame.pending.trans (hopen n hn).2⟩
  obtain ⟨ledger, hdescends, hstep⟩ := hbefore.descends
  have hmove : Move (ledger, ⟨before, s'.shared⟩)
      (ledger ++ [⟨first, .entered⟩, ⟨second, .pending⟩], s') :=
    .branched hentered fun n hn => (htop n hn).2
  obtain ⟨child, parent, rest, _, _, hnodes, -, hfirst, hsecond, hcut, hcut'⟩ := hsplit
  obtain ⟨_, _, _, _, -, hnodes', -, -, hleft, -, hchild, hplace, -⟩ := hentered.nodes
  obtain ⟨rfl, htail⟩ := List.cons.inj (hnodes.symm.trans hnodes')
  obtain ⟨rfl, -⟩ := List.cons.inj htail
  obtain rfl := Option.some.inj (hfirst.symm.trans hchild)
  obtain rfl := Option.some.inj (hsecond.symm.trans hleft)
  rw [hplace, hback] at hcut hcut'
  refine ⟨_, (hentered.allowance_lt htop hbefore.depth_le).trans_le hbefore.allowance,
    hbefore.entered hm hentered rfl hcut ?_ (fun hnarrower => ?_) (Nat.le_refl _)⟩
  · rintro _ ⟨⟩
    exact ⟨hcut', (ledger, _), (_, s'), _, hdescends, hmove, hentered, rfl, rfl⟩
  · exact ⟨_, .branched hdescends hmove hentered hnarrower, hmove.inStep hstep⟩

end Evaluated

end Descended

end Descent

end BranchBound
