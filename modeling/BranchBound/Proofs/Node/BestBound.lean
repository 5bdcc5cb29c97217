import BranchBound.Proofs.Node.Queue

/-!
# The queue gives out the best node

What a queue of open nodes holds is a bag: the nodes that were put in and not taken out, under the
numbers of their insertions. `Bag.Step` says what each request does to a bag and what is answered,
without any order among the nodes that are held. Every sequence of requests is answered by the queue
as the bag demands, as long as no bound is not-a-number and the insertions can be numbered.
-/

namespace BranchBound

open Checked

variable {α : Type} [Scalar α]

namespace Scalar

variable {a b c : α}

theorem sortOrder_eq_lt (hb : isNaN b = false) : sortOrder a b = .lt ↔ a < b := by
  unfold sortOrder
  split
  · next hlt => exact ⟨fun _ => hlt, fun _ => rfl⟩
  · next hlt =>
      refine ⟨fun h => ?_, fun h => absurd h hlt⟩
      split at h
      · cases h
      · cases ha : isNaN a <;> simp [ha, hb] at h

variable [LinearlyOrdered α]

theorem sortOrder_eq_eq (ha : isNaN a = false) (hb : isNaN b = false) :
    sortOrder a b = .eq ↔ Same a b := by
  unfold sortOrder
  split
  · next hlt => exact ⟨nofun, fun h => absurd h.2 (not_le_of_lt hlt)⟩
  · next hab =>
      split
      · next hlt => exact ⟨nofun, fun h => absurd h.1 (not_le_of_lt hlt)⟩
      · next hba =>
          have hsame : Same a b :=
            ⟨Ordered.le_of_not_lt b a hb ha hba, Ordered.le_of_not_lt a b ha hb hab⟩
          simp [ha, hb, hsame]

end Scalar

/-- The bounds by which a node is ordered are numbers. -/
structure OpenNode.Numbered (node : OpenNode α) : Prop where
  lowerBound : Scalar.isNaN node.lowerBound = false
  estimate : Scalar.isNaN node.estimate = false

namespace NodeQueue

/-- A node is given out before another one: it has the smaller lower bound, of equal ones the
smaller estimate, and of equal ones again it was put in first. -/
def Precedes (x y : NodeId × OpenNode α) : Prop :=
  x.2.lowerBound < y.2.lowerBound ∨ Scalar.Same x.2.lowerBound y.2.lowerBound ∧
    (x.2.estimate < y.2.estimate ∨ Scalar.Same x.2.estimate y.2.estimate ∧ x.1 < y.1)

section Order

variable [Scalar.LinearlyOrdered α] {x y z : NodeId × OpenNode α}

theorem compareKeys_eq_lt {boundA estimateA boundB estimateB : α} {idA idB : NodeId}
    (hboundA : Scalar.isNaN boundA = false) (hboundB : Scalar.isNaN boundB = false)
    (hestimateA : Scalar.isNaN estimateA = false) (hestimateB : Scalar.isNaN estimateB = false) :
    compareKeys boundA estimateA idA boundB estimateB idB = .lt ↔
      boundA < boundB ∨ Scalar.Same boundA boundB ∧
        (estimateA < estimateB ∨ Scalar.Same estimateA estimateB ∧ idA < idB) := by
  simp only [compareKeys, Ordering.then_eq_lt, Ordering.then_eq_eq, Scalar.sortOrder_eq_lt hboundB,
    Scalar.sortOrder_eq_lt hestimateB, Scalar.sortOrder_eq_eq hboundA hboundB,
    Scalar.sortOrder_eq_eq hestimateA hestimateB, Nat.compare_eq_lt]
  tauto

theorem comesBefore_iff (hx : x.2.Numbered) (hy : y.2.Numbered) :
    comesBefore x y = true ↔ Precedes x y := by
  rw [comesBefore, beq_iff_eq]
  exact compareKeys_eq_lt hx.lowerBound hy.lowerBound hx.estimate hy.estimate

theorem Precedes.trans (hxy : Precedes x y) (hyz : Precedes y z) : Precedes x z := by
  rcases hxy with hbound | ⟨hbound, hxy⟩
  · rcases hyz with hbound' | ⟨hbound', -⟩
    · exact .inl (Scalar.lt_of_lt_of_le hbound (Scalar.Ordered.le_of_lt _ _ hbound'))
    · exact .inl (Scalar.lt_of_lt_of_le hbound hbound'.1)
  · rcases hyz with hbound' | ⟨hbound', hyz⟩
    · exact .inl (Scalar.lt_of_le_of_lt hbound.1 hbound')
    · refine .inr ⟨hbound.trans hbound', ?_⟩
      rcases hxy with hestimate | ⟨hestimate, hid⟩
      · rcases hyz with hestimate' | ⟨hestimate', -⟩
        · exact .inl (Scalar.lt_of_lt_of_le hestimate (Scalar.Ordered.le_of_lt _ _ hestimate'))
        · exact .inl (Scalar.lt_of_lt_of_le hestimate hestimate'.1)
      · rcases hyz with hestimate' | ⟨hestimate', hid'⟩
        · exact .inl (Scalar.lt_of_le_of_lt hestimate.1 hestimate')
        · exact .inr ⟨hestimate.trans hestimate', Nat.lt_trans hid hid'⟩

/-- Of two nodes with different numbers, one is given out before the other. -/
theorem precedes_total (hx : x.2.Numbered) (hy : y.2.Numbered) (hid : x.1 ≠ y.1)
    (h : ¬Precedes x y) : Precedes y x := by
  have hsame {a b : α} (ha : Scalar.isNaN a = false) (hb : Scalar.isNaN b = false)
      (hab : ¬a < b) (hba : ¬b < a) : Scalar.Same a b :=
    ⟨Scalar.Ordered.le_of_not_lt b a hb ha hba, Scalar.Ordered.le_of_not_lt a b ha hb hab⟩
  by_cases hbound : y.2.lowerBound < x.2.lowerBound
  · exact .inl hbound
  · have hbounds := hsame hx.lowerBound hy.lowerBound (fun hlt => h (.inl hlt)) hbound
    refine .inr ⟨hbounds.symm, ?_⟩
    by_cases hestimate : y.2.estimate < x.2.estimate
    · exact .inl hestimate
    · have hestimates := hsame hx.estimate hy.estimate (fun hlt => h (.inr ⟨hbounds, .inl hlt⟩))
        hestimate
      refine .inr ⟨hestimates.symm, ?_⟩
      refine Nat.lt_of_le_of_ne (Nat.le_of_not_lt fun hlt => h ?_) (Ne.symm hid)
      exact .inr ⟨hbounds, .inr ⟨hestimates, hlt⟩⟩

/-- A node with a smaller number than the last one is within a cutoff if its lower bound is not
above the cutoff. The infinite estimate of the separating key is not below that of any node. -/
theorem isWithin_iff {cutoff : α} (hx : x.2.Numbered) (hid : x.1 < 2 ^ 32 - 1) :
    isWithin cutoff x = true ↔ ¬cutoff < x.2.lowerBound := by
  have hkeys : isWithin cutoff x = true ↔ compareKeys x.2.lowerBound x.2.estimate x.1 cutoff
      Scalar.infinity (2 ^ 32 - 1) = .lt := beq_iff_eq
  rw [hkeys]
  cases hcutoff : Scalar.isNaN cutoff with
  | true =>
      -- every node comes before a cutoff which is not a number, and none is above it
      have hnot : ¬cutoff < x.2.lowerBound := fun hlt => by
        simp [(Scalar.number_of_lt hlt).1] at hcutoff
      have hnot' : ¬x.2.lowerBound < cutoff := fun hlt => by
        simp [(Scalar.number_of_lt hlt).2] at hcutoff
      simp [compareKeys, Scalar.sortOrder, hnot, hnot', hcutoff, hx.lowerBound]
  | false =>
      rw [compareKeys_eq_lt hx.lowerBound hcutoff hx.estimate Scalar.number_infinity]
      have hestimate : x.2.estimate < Scalar.infinity ∨
          Scalar.Same x.2.estimate Scalar.infinity ∧ x.1 < 2 ^ 32 - 1 := by
        have hle := Scalar.Ordered.le_infinity _ hx.estimate
        by_cases hlt : x.2.estimate < Scalar.infinity
        · exact .inl hlt
        · exact .inr ⟨⟨hle, Scalar.Ordered.le_of_not_lt _ _ hx.estimate Scalar.number_infinity hlt⟩,
            hid⟩
      constructor
      · rintro (hlt | ⟨hsame, -⟩)
        · exact fun hlt' => Scalar.not_le_of_lt hlt (Scalar.Ordered.le_of_lt _ _ hlt')
        · exact fun hlt' => Scalar.not_le_of_lt hlt' hsame.1
      · intro hnot
        by_cases hlt : x.2.lowerBound < cutoff
        · exact .inl hlt
        · exact .inr ⟨⟨Scalar.Ordered.le_of_not_lt _ _ hcutoff hx.lowerBound hnot,
            Scalar.Ordered.le_of_not_lt _ _ hx.lowerBound hcutoff hlt⟩, hestimate⟩

end Order

/-! ### Requests -/

/-- What can be asked of a queue. -/
inductive Request (α : Type) where
  | push (node : OpenNode α)
  | pop
  | prune (cutoff : α)
  | clear
  deriving Repr

/-- What a queue answers. -/
inductive Answer (α : Type) where
  /-- The number under which a node was put in. -/
  | pushed (id : NodeId)
  | popped (node : Option (OpenNode α))
  /-- The number of nodes that were removed. -/
  | pruned (count : Nat)
  | cleared
  deriving Repr

/-- Does what a request asks for. -/
def serve (q : NodeQueue α) : Request α → Checked (Answer α × NodeQueue α)
  | .push node => do
    let (id, q) ← q.push node
    return (.pushed id, q)
  | .pop => .ok (.popped q.pop.1, q.pop.2)
  | .prune cutoff => .ok (.pruned (q.prune cutoff).1, (q.prune cutoff).2)
  | .clear => .ok (.cleared, q.clear)

/-- Serves requests in order. -/
def serveAll (q : NodeQueue α) : List (Request α) → Checked (List (Answer α) × NodeQueue α)
  | [] => .ok ([], q)
  | request :: rest => do
    let (answer, q) ← q.serve request
    let (answers, q) ← serveAll q rest
    return (answer :: answers, q)

/-- The bounds that come with a request are numbers. A cutoff need not be one. -/
def Request.Numbered : Request α → Prop
  | .push node => node.Numbered
  | .pop | .prune _ | .clear => True

/-- The number of nodes which requests put in. -/
def pushes (requests : List (Request α)) : Nat :=
  requests.countP fun
    | .push _ => true
    | .pop | .prune _ | .clear => false

/-- The nodes that were put in and not removed, in any order, and the number of those put in. -/
structure Bag (α : Type) where
  nodes : List (NodeId × OpenNode α)
  pushed : Nat

/-- What a request does to a bag, and the answer to it. -/
inductive Bag.Step (b : Bag α) : Request α → Answer α → Bag α → Prop
  | push (node : OpenNode α) :
      Step b (.push node) (.pushed b.pushed) ⟨b.nodes ++ [(b.pushed, node)], b.pushed + 1⟩
  | popNone (h : b.nodes = []) : Step b .pop (.popped none) b
  /-- Some node is given out before all the others, which are left. -/
  | pop {x : NodeId × OpenNode α} {rest : List (NodeId × OpenNode α)}
      (h : b.nodes.Perm (x :: rest)) (hfirst : ∀ y ∈ rest, Precedes x y) :
      Step b .pop (.popped (some x.2)) ⟨rest, b.pushed⟩
  /-- Just the nodes above the cutoff are removed. -/
  | prune (cutoff : α) :
      Step b (.prune cutoff)
        (.pruned (b.nodes.filter fun x => decide (cutoff < x.2.lowerBound)).length)
        ⟨b.nodes.filter fun x => !decide (cutoff < x.2.lowerBound), b.pushed⟩
  | clear : Step b .clear .cleared ⟨[], b.pushed⟩

/-- What requests do to a bag one after the other. -/
inductive Bag.Run : Bag α → List (Request α) → List (Answer α) → Bag α → Prop
  | nil {b : Bag α} : Run b [] [] b
  | cons {b b' b'' : Bag α} {request : Request α} {answer : Answer α} {rest : List (Request α)}
      {answers : List (Answer α)} (h : b.Step request answer b') (hrest : Run b' rest answers b'') :
      Run b (request :: rest) (answer :: answers) b''

/-- A number is the least one of the lower bounds in a bag; infinite for an empty one. -/
def Bag.IsLeast (b : Bag α) (bound : α) : Prop :=
  b.nodes = [] ∧ bound = Scalar.infinity ∨
    (∃ x ∈ b.nodes, x.2.lowerBound = bound) ∧ ∀ x ∈ b.nodes, bound ≤ x.2.lowerBound

/-- A queue holds what is in a bag: the same nodes under the same numbers, of which none occurs
twice, in the order in which they are given out. -/
structure Holds (q : NodeQueue α) (b : Bag α) : Prop where
  nodes : q.nodes.Perm b.nodes
  pushed : q.pushed = b.pushed
  sorted : q.nodes.Pairwise Precedes
  nodup : (b.nodes.map Prod.fst).Nodup
  numbered : ∀ x ∈ b.nodes, x.2.Numbered
  id_lt : ∀ x ∈ b.nodes, x.1 < b.pushed

section Serving

variable [Scalar.LinearlyOrdered α] {q : NodeQueue α} {b : Bag α}

theorem insertSorted_sorted {x : NodeId × OpenNode α} {nodes : List (NodeId × OpenNode α)}
    (hx : x.2.Numbered) (hnodes : ∀ y ∈ nodes, y.2.Numbered ∧ x.1 ≠ y.1)
    (hsorted : nodes.Pairwise Precedes) : (insertSorted x nodes).Pairwise Precedes := by
  induction nodes with
  | nil => exact List.pairwise_singleton ..
  | cons z rest ih =>
      obtain ⟨hfirst, hrest⟩ := List.pairwise_cons.mp hsorted
      obtain ⟨hz, hid⟩ := hnodes z (List.mem_cons_self ..)
      unfold insertSorted
      split
      · next hbefore =>
          have hxz := (comesBefore_iff hx hz).mp hbefore
          refine List.pairwise_cons.mpr ⟨fun y hy => ?_, hsorted⟩
          rcases List.mem_cons.mp hy with rfl | hy
          · exact hxz
          · exact hxz.trans (hfirst y hy)
      · next hbefore =>
          have hzx := precedes_total hx hz hid fun h => hbefore ((comesBefore_iff hx hz).mpr h)
          refine List.pairwise_cons.mpr ⟨fun y hy => ?_, ?_⟩
          · rcases mem_insertSorted.mp hy with rfl | hy
            · exact hzx
            · exact hfirst y hy
          · exact ih (fun y hy => hnodes y (List.mem_cons_of_mem _ hy)) hrest

theorem Holds.push (h : q.Holds b) {node : OpenNode α} (hnode : node.Numbered)
    (hroom : b.pushed + 1 < 2 ^ 32) :
    ∃ q', q.serve (.push node) = .ok (.pushed b.pushed, q') ∧
      q'.Holds ⟨b.nodes ++ [(b.pushed, node)], b.pushed + 1⟩ := by
  have hcount : count 32 q.pushed 1 = .ok (q.pushed + 1) := if_pos (h.pushed ▸ hroom)
  refine ⟨⟨insertSorted (b.pushed, node) q.nodes, b.pushed + 1⟩, ?_, ?_⟩
  · rw [serve, NodeQueue.push, hcount, h.pushed]
    rfl
  · have hold : ∀ y ∈ q.nodes, y.2.Numbered ∧ b.pushed ≠ y.1 := fun y hy =>
      ⟨h.numbered y (h.nodes.subset hy), (Nat.ne_of_lt (h.id_lt y (h.nodes.subset hy))).symm⟩
    refine ⟨?_, rfl, insertSorted_sorted hnode hold h.sorted, ?_, fun x hx => ?_, fun x hx => ?_⟩
    · exact (insertSorted_perm _ _).trans
        ((h.nodes.cons _).trans (List.perm_append_singleton ..).symm)
    · rw [List.map_append, List.nodup_append]
      refine ⟨h.nodup, List.pairwise_singleton .., fun id hid id' hid' => ?_⟩
      obtain ⟨x, hx, rfl⟩ := List.mem_map.mp hid
      rw [List.mem_singleton.mp hid']
      exact Nat.ne_of_lt (h.id_lt x hx)
    · rcases List.mem_append.mp hx with hx | hx
      · exact h.numbered x hx
      · exact List.mem_singleton.mp hx ▸ hnode
    · rcases List.mem_append.mp hx with hx | hx
      · exact Nat.lt_succ_of_lt (h.id_lt x hx)
      · rw [List.mem_singleton.mp hx]
        exact Nat.lt_succ_self _

omit [Scalar.LinearlyOrdered α] in
/-- What is left of a bag is still held by a sorted queue of the same nodes. -/
theorem Holds.sublist (h : q.Holds b) {nodes rest : List (NodeId × OpenNode α)}
    (hnodes : nodes.Sublist q.nodes) (hrest : nodes.Perm rest) :
    (⟨nodes, q.pushed⟩ : NodeQueue α).Holds ⟨rest, b.pushed⟩ := by
  have hheld : ∀ x ∈ rest, x ∈ b.nodes := fun x hx =>
    h.nodes.subset (hnodes.subset (hrest.symm.subset hx))
  refine ⟨hrest, h.pushed, h.sorted.sublist hnodes, ?_, fun x hx => h.numbered x (hheld x hx),
    fun x hx => h.id_lt x (hheld x hx)⟩
  have hqueue : (q.nodes.map Prod.fst).Nodup := (h.nodes.map _).nodup_iff.mpr h.nodup
  exact (hrest.map _).nodup_iff.mp (hqueue.sublist (hnodes.map _))

omit [Scalar.LinearlyOrdered α] in
theorem Holds.pop (h : q.Holds b) :
    ∃ answer b', b.Step .pop answer b' ∧ q.serve .pop = .ok (answer, q.pop.2) ∧
    q.pop.2.Holds b' := by
  unfold serve NodeQueue.pop
  cases hnodes : q.nodes with
  | nil =>
      have hempty : b.nodes = [] := (hnodes ▸ h.nodes).symm.eq_nil
      exact ⟨.popped none, b, .popNone hempty, rfl, h⟩
  | cons x rest =>
      have hperm : b.nodes.Perm (x :: rest) := hnodes ▸ h.nodes.symm
      have hsorted := hnodes ▸ h.sorted
      refine ⟨.popped (some x.2), ⟨rest, b.pushed⟩, ?_, rfl, ?_⟩
      · exact .pop hperm (List.pairwise_cons.mp hsorted).1
      · exact h.sublist (hnodes ▸ List.sublist_cons_self ..) (.refl _)

/-- In a sorted queue the nodes within a cutoff come first. -/
theorem Holds.takeWhile_isWithin (h : q.Holds b) (hroom : b.pushed < 2 ^ 32) (cutoff : α) :
    q.nodes.takeWhile (isWithin cutoff) =
      q.nodes.filter fun x => !decide (cutoff < x.2.lowerBound) := by
  have hwithin : ∀ x ∈ q.nodes, isWithin cutoff x = !decide (cutoff < x.2.lowerBound) := by
    intro x hx
    have hheld := h.nodes.subset hx
    have hid : x.1 < 2 ^ 32 - 1 :=
      Nat.lt_of_lt_of_le (h.id_lt x hheld) (Nat.le_pred_of_lt hroom)
    rw [Bool.eq_iff_iff, isWithin_iff (h.numbered x hheld) hid]
    simp
  have hprefix : ∀ nodes : List (NodeId × OpenNode α), nodes.Pairwise Precedes →
      (∀ x ∈ nodes, isWithin cutoff x = !decide (cutoff < x.2.lowerBound)) →
      nodes.takeWhile (isWithin cutoff) =
        nodes.filter fun x => !decide (cutoff < x.2.lowerBound) := by
    intro nodes hsorted hwithin
    induction nodes with
    | nil => rfl
    | cons x rest ih =>
        obtain ⟨hfirst, hrest⟩ := List.pairwise_cons.mp hsorted
        have hx := hwithin x (List.mem_cons_self ..)
        by_cases hlt : cutoff < x.2.lowerBound
        · -- whatever comes after a node above the cutoff is above the cutoff as well
          have habove : ∀ y ∈ rest, cutoff < y.2.lowerBound := fun y hy => by
            rcases hfirst y hy with hbound | ⟨hbound, -⟩
            · exact Scalar.lt_of_lt_of_le hlt (Scalar.Ordered.le_of_lt _ _ hbound)
            · exact Scalar.lt_of_lt_of_le hlt hbound.1
          rw [List.takeWhile_cons_of_neg (by simp [hx, hlt]),
            List.filter_cons_of_neg (by simp [hlt]), eq_comm, List.filter_eq_nil_iff]
          exact fun y hy => by simp [habove y hy]
        · rw [List.takeWhile_cons_of_pos (by simp [hx, hlt]), List.filter_cons_of_pos
            (by simp [hlt]),
            ih hrest fun y hy => hwithin y (List.mem_cons_of_mem _ hy)]
  exact hprefix q.nodes h.sorted hwithin

theorem Holds.prune (h : q.Holds b) (hroom : b.pushed < 2 ^ 32) (cutoff : α) :
    ∃ answer b', b.Step (.prune cutoff) answer b' ∧
      q.serve (.prune cutoff) = .ok (answer, (q.prune cutoff).2) ∧ (q.prune cutoff).2.Holds b' := by
  refine ⟨_, _, .prune cutoff, ?_, ?_⟩
  · have hcount : (q.prune cutoff).1 =
        (b.nodes.filter fun x => decide (cutoff < x.2.lowerBound)).length := by
      rw [NodeQueue.prune, h.takeWhile_isWithin hroom, ← (h.nodes.filter _).length_eq]
      have hparts := List.length_eq_length_filter_add
        (fun x : NodeId × OpenNode α => decide (cutoff < x.2.lowerBound)) (l := q.nodes)
      dsimp only
      omega
    rw [serve, hcount]
  · refine h.sublist (List.takeWhile_sublist _) ?_
    rw [h.takeWhile_isWithin hroom]
    exact h.nodes.filter _

/-- The first node has the least lower bound of all. -/
theorem Holds.isLeast (h : q.Holds b) : b.IsLeast q.minLowerBound := by
  unfold NodeQueue.minLowerBound
  cases hnodes : q.nodes with
  | nil => exact .inl ⟨(hnodes ▸ h.nodes).symm.eq_nil, rfl⟩
  | cons x rest =>
      have hperm : (x :: rest).Perm b.nodes := hnodes ▸ h.nodes
      have hsorted := hnodes ▸ h.sorted
      refine .inr ⟨⟨x, hperm.subset (List.mem_cons_self ..), rfl⟩, fun y hy => ?_⟩
      rcases List.mem_cons.mp (hperm.symm.subset hy) with rfl | hy
      · exact Scalar.Ordered.le_refl _
          (h.numbered _ (hperm.subset (List.mem_cons_self ..))).lowerBound
      · rcases (List.pairwise_cons.mp hsorted).1 y hy with hbound | ⟨hbound, -⟩
        · exact Scalar.Ordered.le_of_lt _ _ hbound
        · exact hbound.1

/-- A request is served as the bag of held nodes demands. -/
theorem Holds.serve (h : q.Holds b) {request : Request α} (hrequest : request.Numbered)
    (hroom : b.pushed + pushes [request] < 2 ^ 32) :
    ∃ answer q' b', q.serve request = .ok (answer, q') ∧ b.Step request answer b' ∧
      q'.Holds b' ∧ b'.pushed = b.pushed + pushes [request] := by
  cases request with
  | push node =>
      obtain ⟨q', hserve, hholds⟩ := h.push hrequest hroom
      exact ⟨_, q', _, hserve, .push node, hholds, rfl⟩
  | pop =>
      obtain ⟨answer, b', hstep, hserve, hholds⟩ := h.pop
      refine ⟨answer, _, b', hserve, hstep, hholds, ?_⟩
      cases hstep <;> rfl
  | prune cutoff =>
      obtain ⟨answer, b', hstep, hserve, hholds⟩ := h.prune hroom cutoff
      refine ⟨answer, _, b', hserve, hstep, hholds, ?_⟩
      cases hstep
      rfl
  | clear => exact ⟨_, _, _, rfl, .clear, h.sublist (List.nil_sublist _) (.refl _), rfl⟩

theorem Holds.serveAll (h : q.Holds b) {requests : List (Request α)}
    (hrequests : ∀ request ∈ requests, request.Numbered)
    (hroom : b.pushed + pushes requests < 2 ^ 32) :
    ∃ answers q' b', q.serveAll requests = .ok (answers, q') ∧ b.Run requests answers b' ∧
      q'.Holds b' := by
  induction requests generalizing q b with
  | nil => exact ⟨[], q, b, rfl, .nil, h⟩
  | cons request rest ih =>
      have hsplit : pushes (request :: rest) = pushes [request] + pushes rest := by
        rw [pushes, ← List.singleton_append, List.countP_append]
        rfl
      rw [hsplit] at hroom
      obtain ⟨answer, q', b', hserve, hstep, hholds, hpushed⟩ :=
        h.serve (hrequests request (List.mem_cons_self ..)) (by omega)
      obtain ⟨answers, q'', b'', hrest, hrun, hholds'⟩ :=
        ih hholds (fun r hr => hrequests r (List.mem_cons_of_mem _ hr)) (by omega)
      refine ⟨answer :: answers, q'', b'', ?_, .cons hstep hrun, hholds'⟩
      rw [NodeQueue.serveAll, hserve, ok_bind]
      simp only [hrest, ok_bind]
      rfl

end Serving

/-- **The queue gives out the best node.** Any requests to an empty queue are served, as long as the
bounds of the nodes that are put in are numbers and there are fewer than `2 ^ 32` of them. The
answers are those of the bag of held nodes: what is given out comes before everything else that is
held, and a cutoff removes just the nodes above it and answers how many they were. Afterwards the
queue holds just the nodes that were put in and not removed, each of them once, and knows their
number and the least of their lower bounds. -/
theorem requests_served_best_bound_first [Scalar.LinearlyOrdered α] {requests : List (Request α)}
    (hrequests : ∀ request ∈ requests, request.Numbered) (hpushes : pushes requests < 2 ^ 32) :
    ∃ answers q b, (empty : NodeQueue α).serveAll requests = .ok (answers, q) ∧
      (⟨[], 0⟩ : Bag α).Run requests answers b ∧ q.Holds b ∧ b.IsLeast q.minLowerBound ∧
      q.size = b.nodes.length ∧ (q.isEmpty = true ↔ b.nodes = []) := by
  have hempty : (empty : NodeQueue α).Holds ⟨[], 0⟩ :=
    ⟨.refl _, rfl, .nil, List.nodup_nil, nofun, nofun⟩
  obtain ⟨answers, q, b, hserve, hrun, hholds⟩ := hempty.serveAll hrequests (by simpa using hpushes)
  refine ⟨answers, q, b, hserve, hrun, hholds, hholds.isLeast, hholds.nodes.length_eq, ?_⟩
  rw [NodeQueue.isEmpty, List.isEmpty_iff]
  exact ⟨fun h => (h ▸ hholds.nodes).symm.eq_nil, fun h => (h ▸ hholds.nodes).eq_nil⟩

/-- A node with given bounds. -/
def boundedNode (lowerBound estimate : Exact) : OpenNode Exact :=
  { OpenNode.root lowerBound none with estimate := estimate }

/-- Nodes with equal bounds, one with an infinite estimate at the cutoff, and one above it. -/
def tiedRequests : List (Request Exact) :=
  [.push (boundedNode 2 3), .push (boundedNode 2 1), .push (boundedNode 2 3),
    .push (boundedNode 4 4), .push (boundedNode 2 Scalar.infinity), .pop, .prune 2, .pop]

/-- Of nodes with the same lower bound that with the best estimate is given out, then the oldest one
of equal ones. The cutoff removes one node and keeps those at the cutoff, so that the nodes with the
numbers two and four are left. -/
theorem tied_requests_served :
    ∃ answers q b, (empty : NodeQueue Exact).serveAll tiedRequests = .ok (answers, q) ∧
      (⟨[], 0⟩ : Bag Exact).Run tiedRequests answers b ∧ q.Holds b ∧ b.IsLeast q.minLowerBound ∧
      q.nodes.map Prod.fst = [2, 4] := by
  have hrun : passes ((empty : NodeQueue Exact).serveAll tiedRequests) (fun served =>
      served.2.nodes.map Prod.fst == [2, 4]) = true := by
    decide +kernel
  have hnumbered : ∀ request ∈ tiedRequests, request.Numbered := by
    simp only [tiedRequests, List.forall_mem_cons, List.not_mem_nil, false_imp_iff, implies_true,
      and_true, Request.Numbered]
    exact ⟨⟨rfl, rfl⟩, ⟨rfl, rfl⟩, ⟨rfl, rfl⟩, ⟨rfl, rfl⟩, ⟨rfl, rfl⟩⟩
  obtain ⟨answers, q, b, hserve, hbag, hholds, hleast, -⟩ :=
    requests_served_best_bound_first hnumbered (by decide)
  obtain ⟨served, hserved, hleft⟩ := passes_eq_true.mp hrun
  obtain rfl := Except.ok.inj (hserve.symm.trans hserved)
  exact ⟨answers, q, b, hserve, hbag, hholds, hleast, beq_iff_eq.mp hleft⟩

end NodeQueue

end BranchBound
