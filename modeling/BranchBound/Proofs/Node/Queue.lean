import BranchBound.Node.Queue
import BranchBound.Proofs.Checked
import BranchBound.Proofs.Number.Order
import Mathlib.Tactic.Tauto

/-!
# The queue of open nodes is sorted

Whatever is put in and taken out, the nodes of a queue are in the order of their lower bounds, with
not-a-number last. So the first node has the smallest one.
-/

namespace BranchBound

open Checked

variable {α : Type} [Scalar α]

namespace NodeQueue

/-- The nodes are in the order of their lower bounds, and none of these is below a given number. -/
structure Above (bound : α) (q : NodeQueue α) : Prop where
  sorted : q.nodes.Pairwise fun x y => x.2.lowerBound ≤ y.2.lowerBound
  bounded : ∀ x ∈ q.nodes, bound ≤ x.2.lowerBound

/-- The nodes are in the order of their lower bounds, those with not-a-number last. -/
def Ordered (nodes : List (NodeId × OpenNode α)) : Prop :=
  nodes.Pairwise fun x y => Scalar.isNaN y.2.lowerBound = false → x.2.lowerBound ≤ y.2.lowerBound

variable {bound : α} {q q' : NodeQueue α}

theorem Above.sublist (h : q.Above bound) (hsub : q'.nodes.Sublist q.nodes) : q'.Above bound :=
  ⟨h.sorted.sublist hsub, fun x hx => h.bounded x (hsub.subset hx)⟩

omit [Scalar α] in
theorem pop_sublist (q : NodeQueue α) : q.pop.2.nodes.Sublist q.nodes := by
  unfold pop
  split
  · exact List.Sublist.refl _
  · next h =>
      rw [h]
      exact List.sublist_cons_self ..

omit [Scalar α] in
theorem mem_of_pop {node : OpenNode α} (h : q.pop.1 = some node) : ∃ x ∈ q.nodes, x.2 = node := by
  unfold pop at h
  split at h
  · cases h
  · next hnodes =>
      cases h
      exact ⟨_, hnodes ▸ List.mem_cons_self .., rfl⟩

omit [Scalar α] in
/-- A queue that is not empty gives out a node. -/
theorem exists_pop (h : q.isEmpty = false) : ∃ node, q.pop.1 = some node := by
  unfold pop
  split
  · next hnodes => simp [isEmpty, hnodes] at h
  · exact ⟨_, rfl⟩

theorem mem_insertSorted {x y : NodeId × OpenNode α} {nodes : List (NodeId × OpenNode α)} :
    y ∈ insertSorted x nodes ↔ y = x ∨ y ∈ nodes := by
  induction nodes with
  | nil => simp [insertSorted]
  | cons z rest ih =>
      unfold insertSorted
      split
      · simp
      · simp only [List.mem_cons, ih]
        tauto

theorem insertSorted_perm (x : NodeId × OpenNode α) (nodes : List (NodeId × OpenNode α)) :
    (insertSorted x nodes).Perm (x :: nodes) := by
  induction nodes with
  | nil => exact .refl _
  | cons y rest ih =>
      unfold insertSorted
      split
      · exact .refl _
      · exact (ih.cons y).trans (.swap x y rest)

/-- The nodes that are put in join those that were there. -/
theorem pushAll_perm {nodes : List (OpenNode α)}
    (hpush : nodes.foldlM (fun queue node => return (← queue.push node).2) q = .ok q') :
    (q'.nodes.map Prod.snd).Perm (q.nodes.map Prod.snd ++ nodes) := by
  induction nodes generalizing q with
  | nil =>
      cases hpush
      rw [List.append_nil]
  | cons node rest ih =>
      simp only [List.foldlM_cons, bind_eq_ok, pure_eq_ok, NodeQueue.push] at hpush
      obtain ⟨_, ⟨_, ⟨_, -, rfl⟩, rfl⟩, hpush⟩ := hpush
      have hrest := ih (by simpa only [bind_eq_ok, pure_eq_ok, NodeQueue.push] using hpush)
      refine hrest.trans ((((insertSorted_perm _ _).map Prod.snd).append_right rest).trans ?_)
      exact List.perm_middle.symm

variable [Scalar.Ordered α]

/-- A node comes before those with a larger lower bound only. -/
theorem le_of_comesBefore {x y : NodeId × OpenNode α}
    (hy : Scalar.isNaN y.2.lowerBound = false) (h : comesBefore x y = true) :
    x.2.lowerBound ≤ y.2.lowerBound := by
  unfold comesBefore compareKeys Scalar.sortOrder at h
  split at h
  · next hlt => exact Scalar.Ordered.le_of_lt _ _ hlt
  · next hnlt =>
      split at h
      · simp at h
      · next hngt =>
          cases hx : Scalar.isNaN x.2.lowerBound with
          | true => simp [hx, hy] at h
          | false => exact Scalar.Ordered.le_of_not_lt _ _ hy hx hngt

theorem le_of_not_comesBefore {x y : NodeId × OpenNode α}
    (hx : Scalar.isNaN x.2.lowerBound = false) (h : ¬comesBefore x y = true) :
    y.2.lowerBound ≤ x.2.lowerBound := by
  cases hy : Scalar.isNaN y.2.lowerBound with
  | false =>
      refine Scalar.Ordered.le_of_not_lt _ _ hx hy fun hlt => h ?_
      simp [comesBefore, compareKeys, Scalar.sortOrder, hlt]
  | true =>
      refine absurd ?_ h
      have hngt : ¬y.2.lowerBound < x.2.lowerBound := fun hlt => by
        simp [(Scalar.number_of_lt hlt).1] at hy
      by_cases hlt : x.2.lowerBound < y.2.lowerBound
      · simp [comesBefore, compareKeys, Scalar.sortOrder, hlt]
      · simp [comesBefore, compareKeys, Scalar.sortOrder, hlt, hngt, hx, hy]

/-- Inserting a node keeps the order of the lower bounds, where not-a-number is last. -/
theorem insertSorted_ordered {x : NodeId × OpenNode α} {nodes : List (NodeId × OpenNode α)}
    (hordered : Ordered nodes) : Ordered (insertSorted x nodes) := by
  induction nodes with
  | nil => exact List.pairwise_singleton ..
  | cons z rest ih =>
      obtain ⟨hfirst, hrest⟩ := List.pairwise_cons.mp hordered
      unfold insertSorted
      split
      · next hbefore =>
          refine List.pairwise_cons.mpr ⟨fun y hy hnumber => ?_, hordered⟩
          rcases List.mem_cons.mp hy with rfl | hy
          · exact le_of_comesBefore hnumber hbefore
          · have hzy := hfirst y hy hnumber
            exact Scalar.Ordered.le_trans _ _ _
              (le_of_comesBefore (Scalar.number_left hzy) hbefore) hzy
      · next hbefore =>
          refine List.pairwise_cons.mpr ⟨fun y hy hnumber => ?_, ih hrest⟩
          rcases mem_insertSorted.mp hy with rfl | hy
          · exact le_of_not_comesBefore hnumber hbefore
          · exact hfirst y hy hnumber

theorem Ordered.push (h : Ordered q.nodes) {node : OpenNode α}
    {pushed : NodeId × NodeQueue α} (hpush : q.push node = .ok pushed) :
    Ordered pushed.2.nodes := by
  simp only [NodeQueue.push, bind_eq_ok, pure_eq_ok] at hpush
  obtain ⟨_, -, rfl⟩ := hpush
  exact insertSorted_ordered h

theorem Ordered.pushAll (h : Ordered q.nodes) {nodes : List (OpenNode α)}
    (hpush : nodes.foldlM (fun queue node => return (← queue.push node).2) q = .ok q') :
    Ordered q'.nodes := by
  refine foldlM_keeps (P := fun q : NodeQueue α => Ordered q.nodes)
    (fun q node q' _ hq hstep => ?_) hpush h
  simp only [bind_eq_ok, pure_eq_ok] at hstep
  obtain ⟨pushed, hpush, rfl⟩ := hstep
  exact hq.push hpush

/-- No node of an ordered queue has a smaller lower bound than the first one. -/
theorem Ordered.minLowerBound_le (h : Ordered q.nodes) {x : NodeId × OpenNode α}
    (hx : x ∈ q.nodes) (hnumber : Scalar.isNaN x.2.lowerBound = false) :
    q.minLowerBound ≤ x.2.lowerBound := by
  unfold minLowerBound
  split
  · next hnodes =>
      rw [hnodes] at hx
      cases hx
  · next id node rest hnodes =>
      rw [hnodes] at h hx
      rcases List.mem_cons.mp hx with rfl | hx
      · exact Scalar.Ordered.le_refl _ hnumber
      · exact (List.pairwise_cons.mp h).1 x hx hnumber

theorem Above.push (h : q.Above bound) {node : OpenNode α} (hnode : bound ≤ node.lowerBound)
    {pushed : NodeId × NodeQueue α} (hpush : q.push node = .ok pushed) : pushed.2.Above bound := by
  simp only [NodeQueue.push, bind_eq_ok, pure_eq_ok] at hpush
  obtain ⟨_, -, rfl⟩ := hpush
  have hbounded : ∀ y ∈ insertSorted (q.pushed, node) q.nodes, bound ≤ y.2.lowerBound := by
    intro y hy
    rcases mem_insertSorted.mp hy with rfl | hy
    · exact hnode
    · exact h.bounded y hy
  have hnodes : Ordered q.nodes := by
    refine List.Pairwise.imp ?_ h.sorted
    exact fun hle _ => hle
  have hordered := insertSorted_ordered (x := (q.pushed, node)) hnodes
  exact ⟨hordered.imp_of_mem fun _ hy hle => hle (Scalar.number_right (hbounded _ hy)), hbounded⟩

theorem Above.pushAll (h : q.Above bound) {nodes : List (OpenNode α)}
    (hnodes : ∀ n ∈ nodes, bound ≤ n.lowerBound)
    (hpush : nodes.foldlM (fun queue node => return (← queue.push node).2) q = .ok q') :
    q'.Above bound := by
  refine foldlM_keeps (P := fun q : NodeQueue α => q.Above bound)
    (fun q node q' hnode hq hstep => ?_) hpush h
  simp only [bind_eq_ok, pure_eq_ok] at hstep
  obtain ⟨pushed, hpush, rfl⟩ := hstep
  exact hq.push (hnodes node hnode) hpush

/-- The first node has the smallest lower bound. -/
theorem Above.le_minLowerBound (h : q.Above bound) (hbound : Scalar.isNaN bound = false) :
    bound ≤ q.minLowerBound := by
  unfold minLowerBound
  split
  · exact Scalar.Ordered.le_infinity _ hbound
  · next hnodes => exact h.bounded _ (hnodes ▸ List.mem_cons_self ..)

theorem Above.minLowerBound (h : q.Above bound) : q.Above q.minLowerBound := by
  refine ⟨h.sorted, fun x hx => ?_⟩
  have hsorted := h.sorted
  have hbounded := h.bounded
  unfold NodeQueue.minLowerBound
  split
  · next hnodes =>
      rw [hnodes] at hx
      cases hx
  · next id node rest hnodes =>
      rw [hnodes] at hx hsorted hbounded
      rcases List.mem_cons.mp hx with rfl | hx
      · exact Scalar.Ordered.le_refl _ (Scalar.number_right (hbounded _ (List.mem_cons_self ..)))
      · exact (List.pairwise_cons.mp hsorted).1 x hx

end NodeQueue

end BranchBound
