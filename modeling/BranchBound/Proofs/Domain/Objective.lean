import BranchBound.Domain.ObjectivePropagation
import BranchBound.Proofs.Tracking

/-!
# The objective follows the bounds

The minimal objective value is a partial sum over the columns outside of the partitions, and every
partition adds a constant of its own. `ObjectivePropagation.Coherent` says that the sum and the
constants fit the bounds, and it is kept when a bound moves and established when everything is
computed anew.
-/

namespace BranchBound

open Checked

variable {α : Type}

/-- Replacing a partition by one with another contribution replaces that constant. -/
theorem coe_contributions_set {partitions : Array (ObjectivePartition α)} {i : Nat}
    {p : ObjectivePartition α} (hp : partitions[i]? = some p) (p' : ObjectivePartition α) :
    ∃ others : Multiset α,
      ((partitions.toList.map ObjectivePartition.contribution : List α) : Multiset α) =
        p.contribution ::ₘ others ∧
      (((partitions.setIfInBounds i p').toList.map ObjectivePartition.contribution : List α) :
        Multiset α) = p'.contribution ::ₘ others := by
  have hlist : ∀ (xs : List (ObjectivePartition α)) (i : Nat), xs[i]? = some p →
      ∃ others : Multiset α,
        ((xs.map ObjectivePartition.contribution : List α) : Multiset α) =
          p.contribution ::ₘ others ∧
        (((xs.set i p').map ObjectivePartition.contribution : List α) : Multiset α) =
          p'.contribution ::ₘ others := by
    intro xs
    induction xs with
    | nil => exact fun i h => by simp at h
    | cons q rest ih =>
        intro i h
        cases i with
        | zero =>
            obtain rfl : q = p := by simpa using h
            exact ⟨(rest.map ObjectivePartition.contribution : List α), rfl, rfl⟩
        | succ i =>
            obtain ⟨others, hbefore, hafter⟩ := ih i (by simpa using h)
            refine ⟨q.contribution ::ₘ others, ?_, ?_⟩
            · rw [List.map_cons, ← Multiset.cons_coe, hbefore, Multiset.cons_swap]
            · rw [List.set_cons_succ, List.map_cons, ← Multiset.cons_coe, hafter,
                Multiset.cons_swap]
  rw [Array.toList_setIfInBounds]
  exact hlist partitions.toList i (by simpa using hp)

variable [Scalar α]

namespace ObjectivePartition

theorem mem_insertAvailable {x y : α × ColumnId} {list : List (α × ColumnId)}
    (h : y ∈ insertAvailable x list) : y = x ∨ y ∈ list := by
  induction list with
  | nil => exact .inl (List.mem_singleton.mp h)
  | cons z rest ih =>
      simp only [insertAvailable] at h
      split at h
      · rcases List.mem_cons.mp h with h | h
        · exact .inl h
        · exact .inr h
      · exact .inr h
      · rcases List.mem_cons.mp h with rfl | h
        · exact .inr (List.mem_cons_self ..)
        · rcases ih h with h | h
          · exact .inl h
          · exact .inr (List.mem_cons_of_mem _ h)

/-- The columns and costs of a partition are those of a model. -/
structure Over (T : Tracking α) (columnCount : Nat) (p : ObjectivePartition α) : Prop where
  fixed : ∀ c ∈ p.fixedToOne, c < columnCount
  available : ∀ x ∈ p.available, T.coefficient x.1

variable {T : Tracking α} {columnCount : Nat}

theorem over_empty : (empty : ObjectivePartition α).Over T columnCount :=
  ⟨fun _ hc => absurd hc List.not_mem_nil, fun _ hx => absurd hx List.not_mem_nil⟩

theorem Over.insertAvailable {p : ObjectivePartition α} (h : p.Over T columnCount) {cost : α}
    (hcost : T.coefficient cost) (c : ColumnId) :
    { p with available := ObjectivePartition.insertAvailable (cost, c) p.available }.Over T
      columnCount := by
  refine ⟨h.fixed, fun x hx => ?_⟩
  rcases mem_insertAvailable hx with rfl | hx
  · exact hcost
  · exact h.available x hx

theorem Over.addFixed {p : ObjectivePartition α} (h : p.Over T columnCount) {c : ColumnId}
    (hc : c < columnCount) :
    { p with fixedToOne := p.fixedToOne ++ [c] }.Over T columnCount := by
  refine ⟨fun c' hc' => ?_, h.available⟩
  rcases List.mem_append.mp hc' with hc' | hc'
  · exact h.fixed c' hc'
  · rw [List.mem_singleton.mp hc']
    exact hc

/-- What a partition adds is a constant. -/
theorem minimalContribution_returns {p : ObjectivePartition α} {costs : Array α}
    (h : p.Over T columnCount) (hsize : costs.size = columnCount)
    (hcosts : ∀ (c : ColumnId) cost, costs[c]? = some cost → T.coefficient cost) :
    Returns (p.minimalContribution costs) T.constant := by
  unfold minimalContribution
  split
  · have hfound : Returns (p.fixedToOne.mapM (fetch costs)) fun found =>
        ∀ cost ∈ found, T.coefficient cost :=
      mapM_returns fun c hc => (fetch_returns (hsize ▸ h.fixed c hc)).mono
        fun cost _ hcost => hcosts c cost hcost
    exact hfound.bind fun found _ hfound => .pure (T.sum_constant hfound)
  · split
    · next cost c hhead =>
        have hmem : (cost, c) ∈ p.available := List.mem_of_mem_head? hhead
        exact .ok (T.min_constant (h.available _ hmem))
    · exact .ok T.zero_constant

end ObjectivePartition

namespace ObjectivePropagation

/-- The columns outside of the partitions with their costs, as entries of the objective. -/
def linearEntries (o : ObjectivePropagation α) : List (ColumnId × α) :=
  o.costs.toList.zipIdx.filterMap fun (cost, c) =>
    if cost == 0 || (o.partitionOf[c]?.join).isSome then none else some (c, cost)

/-- Whether a column with a cost counts as an entry of the objective. -/
def isLinear (o : ObjectivePropagation α) (c : ColumnId) (cost : α) : Bool :=
  !(cost == 0 || (o.partitionOf[c]?.join).isSome)

theorem linearEntries_eq (o : ObjectivePropagation α) :
    o.linearEntries =
      (o.costs.toList.zipIdx.filter fun x => o.isLinear x.2 x.1).map fun x => (x.2, x.1) := by
  unfold linearEntries
  induction o.costs.toList.zipIdx with
  | nil => rfl
  | cons x rest ih =>
      obtain ⟨cost, c⟩ := x
      cases hlinear : (cost == 0 || (o.partitionOf[c]?.join).isSome) with
      | true => simp only [List.filterMap_cons, List.filter_cons, isLinear, hlinear, if_true,
          Bool.not_true, Bool.false_eq_true, if_false, ih]
      | false => simp only [List.filterMap_cons, List.filter_cons, isLinear, hlinear, if_true,
          Bool.not_false, Bool.false_eq_true, if_false, List.map_cons, ih]

theorem mem_linearEntries {o : ObjectivePropagation α} {c : ColumnId} {cost : α} :
    (c, cost) ∈ o.linearEntries ↔ o.costs[c]? = some cost ∧ o.isLinear c cost = true := by
  rw [linearEntries_eq, List.mem_map]
  constructor
  · rintro ⟨⟨cost', c'⟩, hmem, heq⟩
    cases heq
    rw [List.mem_filter] at hmem
    exact ⟨by simpa using List.mem_zipIdx_iff_getElem?.mp hmem.1, hmem.2⟩
  · rintro ⟨hcost, hlinear⟩
    exact ⟨(cost, c), List.mem_filter.mpr
      ⟨List.mem_zipIdx_iff_getElem?.mpr (by simpa using hcost), hlinear⟩, rfl⟩

/-- Among numbered entries there is one with the number of a column. -/
theorem filter_zipIdx {β : Type} {xs : List β} (start : Nat) {j : Nat} {x : β}
    (hx : xs[j]? = some x) :
    (xs.zipIdx start).filter (fun y => y.2 = start + j) = [(x, start + j)] := by
  induction xs generalizing start j with
  | nil => simp at hx
  | cons first rest ih =>
      rw [List.zipIdx_cons]
      cases j with
      | zero =>
          obtain rfl : first = x := by simpa using hx
          have hrest : (rest.zipIdx (start + 1)).filter (fun y => y.2 = start + 0) = [] := by
            rw [List.filter_eq_nil_iff]
            intro y hy
            have hle := List.le_snd_of_mem_zipIdx hy
            simp only [decide_eq_true_eq]
            omega
          rw [List.filter_cons_of_pos (by simp), hrest]
          rfl
      | succ j =>
          have hindex : start + (j + 1) = start + 1 + j := by omega
          rw [hindex, List.filter_cons_of_neg]
          · exact ih _ (by simpa using hx)
          · simp only [decide_eq_true_eq]
            omega

/-- A column has at most one entry. -/
theorem filter_linearEntries {o : ObjectivePropagation α} {c : ColumnId} {cost : α}
    (hcost : o.costs[c]? = some cost) :
    o.linearEntries.filter (fun e => e.1 = c) = if o.isLinear c cost then [(c, cost)] else [] := by
  have hone : o.costs.toList.zipIdx.filter (fun x => x.2 = c) = [(cost, c)] := by
    have hlist : o.costs.toList[c]? = some cost := by simpa using hcost
    simpa using filter_zipIdx 0 hlist
  have hswap : o.linearEntries.filter (fun e => e.1 = c) =
      ((o.costs.toList.zipIdx.filter fun x => x.2 = c).filter fun x => o.isLinear x.2 x.1).map
        fun x => (x.2, x.1) := by
    rw [linearEntries_eq, List.filter_map, List.filter_filter, List.filter_filter]
    congr 2
    funext x
    exact Bool.and_comm ..
  rw [hswap, hone]
  cases hlinear : o.isLinear c cost with
  | true => simp [hlinear]
  | false => simp [hlinear]

variable (T : Tracking α) (columnCount : Nat) (β : BoundValues α)

/-- The costs and partitions are those of a model. -/
structure Over (o : ObjectivePropagation α) : Prop where
  costs_size : o.costs.size = columnCount
  partitionOf_size : o.partitionOf.size = columnCount
  costs : ∀ (c : ColumnId) cost, o.costs[c]? = some cost → T.coefficient cost
  index_lt : ∀ (c : ColumnId) i, o.partitionOf[c]? = some (some i) → i < o.partitions.size
  partitions : ∀ (i : Nat) p, o.partitions[i]? = some p → p.Over T columnCount

/-- The minimal objective value fits the values of the bounds. -/
structure Coherent (o : ObjectivePropagation α) : Prop extends Over T columnCount o where
  contribution : ∀ (i : Nat) p, o.partitions[i]? = some p → T.constant p.contribution
  tracks : T.tracks o.min (termsAt β minSide o.linearEntries)
    (o.partitions.toList.map ObjectivePartition.contribution : List α)

variable {T columnCount β}

/-- The terms of the objective do not follow a bound of a column which is not in it, or at which
its term is not taken. -/
theorem termsAt_linearEntries_set {o : ObjectivePropagation α} {c : ColumnId} {cost : α}
    (side : Side) (new : α) (hcost : o.costs[c]? = some cost)
    (h : o.isLinear c cost = true → minSide cost ≠ side) :
    termsAt (β.set side c new) minSide o.linearEntries = termsAt β minSide o.linearEntries := by
  refine Multiset.map_congr rfl fun e he => ?_
  obtain ⟨c', cost'⟩ := e
  obtain ⟨hcost', hlinear⟩ := mem_linearEntries.mp (Multiset.mem_coe.mp he)
  rw [BoundValues.set_of_ne]
  rintro ⟨hside, rfl⟩
  obtain rfl : cost = cost' := Option.some.inj (hcost.symm.trans hcost')
  exact h hlinear hside

/-- Replacing a partition by another one over the same model. -/
theorem Over.setPartition {o : ObjectivePropagation α} (h : o.Over T columnCount) (i : Nat)
    {p : ObjectivePartition α} (hp : p.Over T columnCount) (min : PartialSum α) (needs : Bool) :
    { o with
      min := min
      partitions := o.partitions.setIfInBounds i p
      needsPropagation := needs }.Over T columnCount where
  costs_size := h.costs_size
  partitionOf_size := h.partitionOf_size
  costs := h.costs
  index_lt := fun c j hj => by
    rw [Array.size_setIfInBounds]
    exact h.index_lt c j hj
  partitions := fun j q hq => by
    rcases of_getElem?_setIfInBounds hq with ⟨-, rfl⟩ | ⟨-, hq⟩
    · exact hp
    · exact h.partitions j q hq

theorem movePartition?_over {p moved : ObjectivePartition α} {c : ColumnId} {side : Side}
    {cost old new : α} (h : p.Over T columnCount) (hc : c < columnCount)
    (hcost : T.coefficient cost) (hmove : movePartition? p c side cost old new = some moved) :
    moved.Over T columnCount := by
  unfold movePartition? at hmove
  cases side with
  | lower =>
      dsimp only at hmove
      split at hmove
      · cases hmove
        exact h.addFixed hc
      · split at hmove
        · cases hmove
          exact ⟨fun c' hc' => h.fixed c' (List.mem_of_mem_filter hc'), h.available⟩
        · cases hmove
  | upper =>
      dsimp only at hmove
      split at hmove
      · cases hmove
        exact ⟨h.fixed, fun x hx => h.available x (List.mem_of_mem_filter hx)⟩
      · split at hmove
        · cases hmove
          exact h.insertAvailable hcost c
        · cases hmove

/-- What does not change about the objective when a bound moves. -/
structure SameConstraint (o o' : ObjectivePropagation α) : Prop where
  cutoff : o'.cutoff = o.cutoff
  costs : o'.costs = o.costs
  partitionOf : o'.partitionOf = o.partitionOf

/-- The objective follows a bound that moves. -/
theorem boundMoved_returns {o : ObjectivePropagation α} (h : o.Coherent T columnCount β)
    {c : ColumnId} (hc : c < columnCount) {side : Side} {new : α} (feastol : α)
    (hold : T.value (β side c)) (hnew : T.value new) :
    Returns (o.boundMoved c side (β side c) new feastol) fun result =>
      result.2.Coherent T columnCount (β.set side c new) ∧ SameConstraint o result.2 ∧
        (result.1 = true → result.2.isViolated feastol = true) := by
  unfold boundMoved
  refine (fetch_returns (h.costs_size ▸ hc)).bind fun cost _ hcost => ?_
  have hsame : SameConstraint o o := ⟨rfl, rfl, rfl⟩
  have hstays : (o.isLinear c cost = true → minSide cost ≠ side) →
      o.Coherent T columnCount (β.set side c new) := fun hother =>
    { h with tracks := (termsAt_linearEntries_set side new hcost hother).symm ▸ h.tracks }
  split
  · next hzero =>
      refine .pure ⟨hstays fun hlinear => ?_, hsame, fun hfalse => by cases hfalse⟩
      simp [isLinear, hzero] at hlinear
  · next hnonzero =>
      refine (fetch_returns (h.partitionOf_size ▸ hc)).bind fun index _ hindex => ?_
      cases index with
      | some i =>
          have hpartitioned : o.isLinear c cost = true → minSide cost ≠ side := fun hlinear => by
            simp [isLinear, hindex] at hlinear
          have hlt := h.index_lt c i hindex
          refine (fetch_returns hlt).bind fun p _ hp => ?_
          dsimp only
          cases hmove : movePartition? p c side cost (β side c) new with
          | none => exact .pure ⟨hstays hpartitioned, hsame, fun hfalse => by cases hfalse⟩
          | some moved =>
              have hmoved :=
                movePartition?_over (h.partitions i p hp) hc (h.costs c cost hcost) hmove
              refine (ObjectivePartition.minimalContribution_returns hmoved h.costs_size
                h.costs).bind fun contribution _ hcontribution => ?_
              refine (store_returns _ hlt).bind fun partitions _ hpartitions => ?_
              subst hpartitions
              refine .pure
                ⟨⟨h.toOver.setPartition i (p := { moved with contribution := contribution })
                ⟨hmoved.fixed, hmoved.available⟩ _ true, ?_, ?_⟩, ⟨rfl, rfl, rfl⟩, id⟩
              · intro j q hq
                rcases of_getElem?_setIfInBounds hq with ⟨-, rfl⟩ | ⟨-, hq⟩
                · exact hcontribution
                · exact h.contribution j q hq
              · obtain ⟨others, hbefore, hafter⟩ :=
                  coe_contributions_set hp { moved with contribution := contribution }
                have htracks := h.tracks
                rw [hbefore, ← termsAt_linearEntries_set side new hcost
                  hpartitioned] at htracks
                dsimp only
                rw [hafter]
                exact T.moveConstant (h.contribution i p hp) hcontribution htracks
      | none =>
          have hlinear : o.isLinear c cost = true := by
            simp only [isLinear, hindex, Option.join_some, Option.isSome_none, Bool.or_false]
            simpa using hnonzero
          dsimp only
          split
          · next hside =>
              exact .pure ⟨hstays fun _ => minSide_ne_iff.mp hside, hsame, fun hfalse => by
                cases hfalse⟩
          · next hside =>
              have hat : minSide cost = side := by
                rw [minSide_ne_iff, not_not] at hside
                exact hside
              have hone : coefficientsAt minSide c side o.linearEntries = {cost} := by
                rw [coefficientsAt_eq, filter_linearEntries hcost, if_pos hlinear]
                simp [hat]
              have hterms : ∀ β : BoundValues α, termsAt β minSide o.linearEntries =
                  (cost, β side c) ::ₘ termsElsewhere β minSide c side o.linearEntries := by
                intro β
                rw [termsAt_eq β minSide c side, hone, Multiset.map_singleton, add_comm,
                  Multiset.singleton_add]
              have htracks := h.tracks
              rw [hterms] at htracks
              refine (T.moveTerm (h.costs c cost hcost) hold hnew htracks).bind
                fun min _ hmin => .pure ⟨⟨⟨h.costs_size, h.partitionOf_size, h.costs, h.index_lt,
                  h.partitions⟩, h.contribution, ?_⟩, ⟨rfl, rfl, rfl⟩, id⟩
              change T.tracks min (termsAt (β.set side c new) minSide o.linearEntries) _
              rw [hterms, termsElsewhere_set, BoundValues.set_self]
              exact hmin

/-- A bound that moves to an equal value leaves the objective coherent. -/
theorem Coherent.set_of_same {o : ObjectivePropagation α} (h : o.Coherent T columnCount β)
    (hβ : T.Admissible β) {c : ColumnId} {side : Side} {new : α} (hnew : T.value new)
    (hsame : (β side c != new) = false) : o.Coherent T columnCount (β.set side c new) :=
  { h with tracks := Tracking.tracks_set_of_same hβ hnew hsame h.tracks }

section Recompute

theorem placeInPartition_over {p : ObjectivePartition α} (h : p.Over T columnCount) {c : ColumnId}
    (hc : c < columnCount) {cost : α} (hcost : T.coefficient cost) (lower upper : α) :
    (placeInPartition p c cost lower upper).Over T columnCount ∧
      (placeInPartition p c cost lower upper).contribution = p.contribution := by
  unfold placeInPartition
  split
  · exact ⟨h.addFixed hc, rfl⟩
  · split
    · exact ⟨h.insertAvailable hcost c, rfl⟩
    · exact ⟨h, rfl⟩

/-- While everything is computed anew, the columns up to a number are accounted for, and the
partitions contribute nothing yet. -/
structure Accounted (T : Tracking α) (columnCount : Nat) (β : BoundValues α)
    (start : ObjectivePropagation α) (k : Nat) (o : ObjectivePropagation α) : Prop
    extends Over T columnCount o where
  same : SameConstraint start o
  size : o.partitions.size = start.partitions.size
  contribution : ∀ (i : Nat) p, o.partitions[i]? = some p → p.contribution = 0
  tracks : T.tracks o.min (termsAt β minSide (o.linearEntries.filter fun e => e.1 < k)) 0

/-- Adding the next column accounts for it. -/
theorem Accounted.addColumn {start o o' : ObjectivePropagation α} {c : ColumnId}
    (h : Accounted T columnCount β start c o) (hβ : T.Admissible β)
    (hadd : o.addColumn c (β .lower c) (β .upper c) = .ok o') :
    Accounted T columnCount β start (c + 1) o' := by
  simp only [ObjectivePropagation.addColumn, bind_eq_ok, fetch_eq_ok] at hadd
  obtain ⟨cost, hcost, hadd⟩ := hadd
  have hc : c < columnCount := h.costs_size ▸ (Array.getElem?_eq_some_iff.mp hcost).1
  have hskip : o.isLinear c cost = false →
      T.tracks o.min (termsAt β minSide (o.linearEntries.filter fun e => e.1 < c + 1)) 0 := by
    intro hlinear
    rw [termsAt_filter_succ, filter_linearEntries hcost, hlinear, if_neg Bool.false_ne_true,
      termsAt_nil, zero_add]
    exact h.tracks
  split at hadd
  · next hzero =>
      obtain rfl := pure_eq_ok.mp hadd
      exact { h with tracks := hskip (by simp [isLinear, hzero]) }
  · next hnonzero =>
      simp only [bind_eq_ok, fetch_eq_ok] at hadd
      obtain ⟨index, hindex, hadd⟩ := hadd
      cases index with
      | some i =>
          simp only [bind_eq_ok, pure_eq_ok, update_eq_ok] at hadd
          obtain ⟨partitions, ⟨p, p', hp, hplace, rfl⟩, rfl⟩ := hadd
          cases hplace
          obtain ⟨hover, hcontribution⟩ := placeInPartition_over (h.partitions i p hp) hc
            (h.costs c cost hcost) (β .lower c) (β .upper c)
          refine ⟨h.toOver.setPartition i hover _ _, ⟨h.same.cutoff, h.same.costs,
            h.same.partitionOf⟩, ?_, ?_, hskip (by simp [isLinear, hindex])⟩
          · rw [Array.size_setIfInBounds]
            exact h.size
          · intro j q hq
            rcases of_getElem?_setIfInBounds hq with ⟨-, rfl⟩ | ⟨-, hq⟩
            · exact hcontribution.trans (h.contribution i p hp)
            · exact h.contribution j q hq
      | none =>
          obtain rfl := pure_eq_ok.mp hadd
          have hlinear : o.isLinear c cost = true := by
            simp only [isLinear, hindex, Option.join_some, Option.isSome_none, Bool.or_false]
            simpa using hnonzero
          refine ⟨⟨h.costs_size, h.partitionOf_size, h.costs, h.index_lt, h.partitions⟩,
            ⟨h.same.cutoff, h.same.costs, h.same.partitionOf⟩, h.size, h.contribution, ?_⟩
          change T.tracks (o.min.addTerm cost (if 0 < cost then β .lower c else β .upper c))
            (termsAt β minSide (o.linearEntries.filter fun e => e.1 < c + 1)) 0
          have hbound : (if 0 < cost then β .lower c else β .upper c) = β (minSide cost) c := by
            unfold minSide
            split <;> rfl
          rw [termsAt_filter_succ, filter_linearEntries hcost, if_pos hlinear, termsAt_cons,
            termsAt_nil, Multiset.cons_add, zero_add, hbound]
          exact T.addTerm (h.costs c cost hcost) (hβ _ c) h.tracks

/-- While the contributions are computed, those of the first partitions are accounted for. -/
structure Contributed (T : Tracking α) (columnCount : Nat) (β : BoundValues α)
    (start : ObjectivePropagation α) (k : Nat) (o : ObjectivePropagation α) : Prop
    extends Over T columnCount o where
  same : SameConstraint start o
  size : o.partitions.size = start.partitions.size
  contribution : ∀ (i : Nat) p, i < k → o.partitions[i]? = some p → T.constant p.contribution
  tracks : T.tracks o.min (termsAt β minSide o.linearEntries)
    ((o.partitions.toList.take k).map ObjectivePartition.contribution : List α)

theorem Contributed.addContribution {start o o' : ObjectivePropagation α} {i : Nat}
    (h : Contributed T columnCount β start i o) (hadd : o.addContribution i = .ok o') :
    Contributed T columnCount β start (i + 1) o' := by
  simp only [ObjectivePropagation.addContribution, bind_eq_ok, fetch_eq_ok, store_eq_ok,
    pure_eq_ok] at hadd
  obtain ⟨p, hp, contribution, hcontribution, partitions, ⟨hlt, rfl⟩, rfl⟩ := hadd
  have hover := h.partitions i p hp
  have hconstant : T.constant contribution := by
    obtain ⟨k, hk, hconstant⟩ :=
      ObjectivePartition.minimalContribution_returns hover h.costs_size h.costs
    rw [hcontribution] at hk
    cases hk
    exact hconstant
  refine ⟨h.toOver.setPartition i (p := { p with contribution := contribution })
    ⟨hover.fixed, hover.available⟩ _ _, ⟨h.same.cutoff, h.same.costs, h.same.partitionOf⟩, ?_,
    ?_, ?_⟩
  · rw [Array.size_setIfInBounds]
    exact h.size
  · intro j q hj hq
    rcases of_getElem?_setIfInBounds hq with ⟨-, rfl⟩ | ⟨hne, hq⟩
    · exact hconstant
    · exact h.contribution j q (by omega) hq
  · have htake : ((o.partitions.setIfInBounds i { p with contribution := contribution }).toList.take
        (i + 1)).map ObjectivePartition.contribution =
          (o.partitions.toList.take i).map ObjectivePartition.contribution ++ [contribution] := by
      have hlength : i < o.partitions.toList.length := by simpa using hlt
      rw [Array.toList_setIfInBounds, List.take_add_one, List.take_set_of_le (Nat.le_refl i),
        List.getElem?_set_self hlength]
      simp
    rw [htake, ← Multiset.coe_add, Multiset.coe_singleton, add_comm, Multiset.singleton_add]
    exact T.addConstant hconstant h.tracks

theorem filter_linearEntries_all {o : ObjectivePropagation α} (h : o.costs.size = columnCount) :
    o.linearEntries.filter (fun e => e.1 < columnCount) = o.linearEntries := by
  rw [List.filter_eq_self]
  intro e he
  obtain ⟨c, cost⟩ := e
  have hcost := (mem_linearEntries.mp he).1
  simpa [h] using (Array.getElem?_eq_some_iff.mp hcost).1

/-- Computing everything anew from the bounds makes the objective coherent. -/
theorem recompute_coherent {o o' : ObjectivePropagation α} {lower upper : Array (Bound α)}
    (h : o.Over T columnCount) (hβ : T.Admissible β)
    (hlower : ∀ c b, lower[c]? = some b → b.value = β .lower c)
    (hupper : ∀ c b, upper[c]? = some b → b.value = β .upper c)
    (hrecompute : o.recompute lower upper = .ok o') :
    o'.Coherent T columnCount β ∧ SameConstraint o o' := by
  simp only [recompute, bind_eq_ok, pure_eq_ok] at hrecompute
  obtain ⟨o₁, hcolumns, o₂, hcontributions, rfl⟩ := hrecompute
  have hstart : Accounted T columnCount β o 0
      { o with min := .zero, partitions := o.partitions.map fun _ => .empty } := by
    refine ⟨⟨h.costs_size, h.partitionOf_size, h.costs, fun c i hi => ?_, fun i p hp => ?_⟩,
      ⟨rfl, rfl, rfl⟩, Array.size_map .., fun i p hp => ?_, ?_⟩
    · rw [Array.size_map]
      exact h.index_lt c i hi
    · rw [Array.getElem?_map] at hp
      obtain ⟨q, -, rfl⟩ := Option.map_eq_some_iff.mp hp
      exact ObjectivePartition.over_empty
    · rw [Array.getElem?_map] at hp
      obtain ⟨q, -, rfl⟩ := Option.map_eq_some_iff.mp hp
      rfl
    · simpa using T.zero
  have hall : Accounted T columnCount β o columnCount o₁ := by
    have hloop := foldlM_range_keeps (P := Accounted T columnCount β o)
      (fun c s s' _ hs hstep => by
        simp only [bind_eq_ok, fetch_eq_ok] at hstep
        obtain ⟨l, hl, u, hu, hadd⟩ := hstep
        rw [hlower c l hl, hupper c u hu] at hadd
        exact hs.addColumn hβ hadd) hcolumns hstart
    rwa [h.costs_size] at hloop
  have hsum : Contributed T columnCount β o 0 o₁ := by
    refine ⟨hall.toOver, hall.same, hall.size, fun i p hi => absurd hi (Nat.not_lt_zero i), ?_⟩
    have htracks := hall.tracks
    rw [filter_linearEntries_all hall.costs_size] at htracks
    exact htracks
  have hdone : Contributed T columnCount β o o₁.partitions.size o₂ :=
    foldlM_range_keeps (P := Contributed T columnCount β o)
      (fun i s s' _ hs hstep => hs.addContribution hstep) hcontributions hsum
  have hsize : o₁.partitions.size = o₂.partitions.size := hall.size.trans hdone.size.symm
  refine ⟨⟨⟨hdone.costs_size, hdone.partitionOf_size, hdone.costs, hdone.index_lt,
    hdone.partitions⟩, fun i p hp => ?_, ?_⟩, hdone.same.cutoff, hdone.same.costs,
    hdone.same.partitionOf⟩
  · exact hdone.contribution i p (hsize ▸ (Array.getElem?_eq_some_iff.mp hp).1) hp
  · have htracks := hdone.tracks
    rw [hsize, ← Array.length_toList, List.take_length] at htracks
    exact htracks

/-- Computing everything anew leaves the constraint as it is. -/
theorem recompute_same {o o' : ObjectivePropagation α} {lower upper : Array (Bound α)}
    (h : o.recompute lower upper = .ok o') : SameConstraint o o' := by
  simp only [recompute, bind_eq_ok, pure_eq_ok] at h
  obtain ⟨o₁, hcolumns, o₂, hcontributions, rfl⟩ := h
  have hfirst : SameConstraint o o₁ := by
    refine foldlM_keeps (P := SameConstraint o) (fun s c s' _ hs hstep => ?_) hcolumns
      ⟨rfl, rfl, rfl⟩
    simp only [bind_eq_ok] at hstep
    obtain ⟨l, -, u, -, hadd⟩ := hstep
    simp only [addColumn, bind_eq_ok] at hadd
    obtain ⟨cost, -, hadd⟩ := hadd
    split at hadd
    · rw [← pure_eq_ok.mp hadd]
      exact hs
    · simp only [bind_eq_ok] at hadd
      obtain ⟨index, -, hadd⟩ := hadd
      cases index with
      | none =>
          rw [← pure_eq_ok.mp hadd]
          exact ⟨hs.cutoff, hs.costs, hs.partitionOf⟩
      | some i =>
          simp only [bind_eq_ok, pure_eq_ok] at hadd
          obtain ⟨_, -, rfl⟩ := hadd
          exact ⟨hs.cutoff, hs.costs, hs.partitionOf⟩
  have hsecond : SameConstraint o o₂ := by
    refine foldlM_keeps (P := SameConstraint o) (fun s i s' _ hs hstep => ?_) hcontributions hfirst
    simp only [addContribution, bind_eq_ok, pure_eq_ok] at hstep
    obtain ⟨_, -, _, -, _, -, rfl⟩ := hstep
    exact ⟨hs.cutoff, hs.costs, hs.partitionOf⟩
  exact ⟨hsecond.cutoff, hsecond.costs, hsecond.partitionOf⟩

end Recompute

end ObjectivePropagation

end BranchBound
