import BranchBound.Proofs.Assignment
import BranchBound.Proofs.Domain.Preparation

/-!
# Partitions of the objective

A partition keeps its columns that are fixed to one and, by increasing cost, those that may still
be one. `ObjectivePropagation.Placed` says that it does so for the given values of the bounds. It
holds once the objective is set up while no column of a partition is fixed to one, and it is kept
when a bound moves. Then no partition contributes more than its columns cost at a point of the box.
-/

namespace BranchBound

open Checked Exact

/-- A column is at least one in every box within the model bounds. -/
def Model.Forced (m : Model Exact) (c : ColumnId) : Prop :=
  ∃ column, m.columns[c]? = some column ∧ 1 ≤ column.lower

namespace ObjectivePartition

variable {x y : Exact × ColumnId} {list : List (Exact × ColumnId)}

theorem sortOrder_eq {a b : Exact} (ha : a ≠ nan) (hb : b ≠ nan) :
    Scalar.sortOrder a b = if a < b then .lt else if b < a then .gt else .eq := by
  have hisNaN : ∀ v : Exact, v ≠ nan → Scalar.isNaN v = false := fun v hv => decide_eq_false hv
  rw [Scalar.sortOrder, hisNaN a ha, hisNaN b hb]

/-- Entries that are compared are ordered by their costs. -/
theorem compareAvailable_cases (hx : x.1 ≠ nan) (hy : y.1 ≠ nan) :
    (compareAvailable x y = .lt → x.1 ≤ y.1) ∧ (compareAvailable x y = .gt → y.1 ≤ x.1) ∧
      (compareAvailable x y = .eq → x.2 = y.2) := by
  rw [compareAvailable, sortOrder_eq hx hy]
  by_cases hlt : x.1 < y.1
  · rw [if_pos hlt]
    exact ⟨fun _ => Exact.le_of_lt hlt, (fun h => nomatch h), (fun h => nomatch h)⟩
  · rw [if_neg hlt]
    by_cases hgt : y.1 < x.1
    · rw [if_pos hgt]
      exact ⟨(fun h => nomatch h), fun _ => Exact.le_of_lt hgt, (fun h => nomatch h)⟩
    · rw [if_neg hgt]
      refine ⟨fun _ => le_of_not_lt hy hx hgt, fun _ => le_of_not_lt hx hy hlt, fun h => ?_⟩
      exact Nat.compare_eq_eq.mp h

theorem insertAvailable_sorted (hx : x.1 ≠ nan) (hlist : ∀ y ∈ list, y.1 ≠ nan)
    (h : list.Pairwise fun y z => y.1 ≤ z.1) :
    (insertAvailable x list).Pairwise fun y z => y.1 ≤ z.1 := by
  induction list with
  | nil => exact List.pairwise_singleton ..
  | cons y rest ih =>
      obtain ⟨hy, hrest⟩ := List.pairwise_cons.mp h
      obtain ⟨hlt, hgt, -⟩ := compareAvailable_cases hx (hlist y (List.mem_cons_self ..))
      simp only [insertAvailable]
      split
      · next horder =>
          refine List.pairwise_cons.mpr ⟨fun z hz => ?_, h⟩
          rcases List.mem_cons.mp hz with rfl | hz
          · exact hlt horder
          · exact Exact.le_trans (hlt horder) (hy z hz)
      · exact h
      · next horder =>
          refine List.pairwise_cons.mpr ⟨fun z hz => ?_,
            ih (fun z hz => hlist z (List.mem_cons_of_mem _ hz)) hrest⟩
          rcases mem_insertAvailable hz with rfl | hz
          · exact hgt horder
          · exact hy z hz

/-- What is inserted is there, unless there is an entry with its column; nothing is lost. -/
theorem mem_insertAvailable_of (hx : x.1 ≠ nan) (hlist : ∀ y ∈ list, y.1 ≠ nan)
    (hsame : ∀ y ∈ list, y.2 = x.2 → y = x) (hy : y = x ∨ y ∈ list) :
    y ∈ insertAvailable x list := by
  induction list with
  | nil =>
      rcases hy with rfl | hy
      · exact List.mem_singleton_self _
      · cases hy
  | cons z rest ih =>
      obtain ⟨-, -, heq⟩ := compareAvailable_cases hx (hlist z (List.mem_cons_self ..))
      simp only [insertAvailable]
      split
      · rcases hy with rfl | hy
        · exact List.mem_cons_self ..
        · exact List.mem_cons_of_mem _ hy
      · next horder =>
          rcases hy with rfl | hy
          · rw [hsame z (List.mem_cons_self ..) (heq horder).symm]
            exact List.mem_cons_self ..
          · exact hy
      · rcases hy with rfl | hy
        · exact List.mem_cons_of_mem _ (ih (fun w hw => hlist w (List.mem_cons_of_mem _ hw))
            (fun w hw => hsame w (List.mem_cons_of_mem _ hw)) (.inl rfl))
        · rcases List.mem_cons.mp hy with rfl | hy
          · exact List.mem_cons_self ..
          · exact List.mem_cons_of_mem _ (ih (fun w hw => hlist w (List.mem_cons_of_mem _ hw))
              (fun w hw => hsame w (List.mem_cons_of_mem _ hw)) (.inr hy))

/-- Removing an entry keeps those of the other columns. -/
theorem mem_removeAvailable_of (hx : x.1 ≠ nan) (hlist : ∀ y ∈ list, y.1 ≠ nan) (hy : y ∈ list)
    (hne : y.2 ≠ x.2) : y ∈ removeAvailable x list := by
  refine List.mem_filter.mpr ⟨hy, ?_⟩
  rw [bne_iff_ne]
  intro hequal
  exact hne ((compareAvailable_cases hx (hlist y hy)).2.2 hequal).symm

/-- The columns of a partition with their costs, which are negative numbers; no column has two. -/
structure Members (member : ColumnId → Exact → Prop) : Prop where
  negative : ∀ c cost, member c cost → ∃ q : ℚ, q < 0 ∧ cost = number q
  unique : ∀ c cost cost', member c cost → member c cost' → cost = cost'

/-- The columns of a partition are where they belong for the given values of the bounds. Those that
are forced to one need not be among the available ones, as long as they are fixed. -/
structure Placed (member : ColumnId → Exact → Prop) (forced : ColumnId → Prop)
    (β : BoundValues Exact) (p : ObjectivePartition Exact) : Prop where
  fixed : ∀ c ∈ p.fixedToOne, (∃ cost, member c cost) ∧ 1 ≤ β .lower c
  held : ∀ c cost, member c cost → forced c → 1 ≤ β .lower c → c ∈ p.fixedToOne
  available : ∀ y ∈ p.available, member y.2 y.1
  complete : ∀ c cost, member c cost → ¬forced c → 1 ≤ β .upper c → (cost, c) ∈ p.available
  sorted : p.available.Pairwise fun y z => y.1 ≤ z.1

variable {member : ColumnId → Exact → Prop} {forced : ColumnId → Prop} {β : BoundValues Exact}
  {p : ObjectivePartition Exact}

theorem Placed.available_not_nan (hmembers : Members member) (h : p.Placed member forced β) :
    ∀ y ∈ p.available, y.1 ≠ nan := by
  intro y hy
  obtain ⟨q, -, hq⟩ := hmembers.negative _ _ (h.available y hy)
  rw [hq]
  simp

/-- Inserting a column of the partition. -/
theorem Placed.insertAvailable (hmembers : Members member) (h : p.Placed member forced β)
    {c : ColumnId} {cost : Exact} (hc : member c cost) {new : Exact} :
    { p with available := ObjectivePartition.insertAvailable (cost, c) p.available }.Placed member
      forced (β.set .upper c new) := by
  obtain ⟨q, -, rfl⟩ := hmembers.negative c cost hc
  have hsame : ∀ y ∈ p.available, y.2 = c → y = (number q, c) := fun y hy hyc => by
    obtain ⟨cost', c'⟩ := y
    obtain rfl : c' = c := hyc
    rw [hmembers.unique c' cost' _ (h.available _ hy) hc]
  have hmem : ∀ y, y = (number q, c) ∨ y ∈ p.available →
      y ∈ ObjectivePartition.insertAvailable (number q, c) p.available := fun y hy =>
    mem_insertAvailable_of (by simp) (h.available_not_nan hmembers) hsame hy
  have hlower : ∀ c', β.set .upper c new .lower c' = β .lower c' := fun c' =>
    BoundValues.set_of_ne _ _ fun hset => by cases hset.1
  refine ⟨fun c' hc' => ?_, fun c' cost' hc' hforced hone => ?_, fun y hy => ?_,
    fun c' cost' hc' hopen hone => hmem _ ?_,
    insertAvailable_sorted (by simp) (h.available_not_nan hmembers) h.sorted⟩
  · rw [hlower]
    exact h.fixed c' hc'
  · exact h.held c' cost' hc' hforced (hlower c' ▸ hone)
  · rcases mem_insertAvailable hy with rfl | hy
    · exact hc
    · exact h.available y hy
  · by_cases hcolumn : c' = c
    · subst hcolumn
      exact .inl (by rw [hmembers.unique c' cost' _ hc' hc])
    · rw [BoundValues.set_of_ne _ _ fun hset => hcolumn hset.2] at hone
      exact .inr (h.complete c' cost' hc' hopen hone)

/-- A bound of a column outside of the partition does not matter to it. -/
theorem Placed.set_other (h : p.Placed member forced β) {c : ColumnId} (hc : ∀ cost, ¬member c cost)
    (side : Side) (new : Exact) : p.Placed member forced (β.set side c new) := by
  have hkept : ∀ c' cost, member c' cost → ∀ side', β.set side c new side' c' = β side' c' := by
    intro c' cost hmember side'
    apply BoundValues.set_of_ne
    rintro ⟨-, rfl⟩
    exact hc cost hmember
  refine ⟨fun c' hc' => ?_, fun c' cost hmember hforced hone => ?_, h.available,
    fun c' cost hmember hopen hone => ?_, h.sorted⟩
  · obtain ⟨⟨cost, hmember⟩, hone⟩ := h.fixed c' hc'
    rw [hkept c' cost hmember]
    exact ⟨⟨cost, hmember⟩, hone⟩
  · rw [hkept c' cost hmember] at hone
    exact h.held c' cost hmember hforced hone
  · rw [hkept c' cost hmember] at hone
    exact h.complete c' cost hmember hopen hone

/-- Nothing but the columns fixed to one depends on lower bounds. -/
theorem Placed.set_lower (h : p.Placed member forced β) {c : ColumnId} {new : Exact}
    {fixedToOne : List ColumnId}
    (hfixed : ∀ c' ∈ fixedToOne, (∃ cost, member c' cost) ∧ 1 ≤ β.set .lower c new .lower c')
    (hheld : ∀ c' cost, member c' cost → forced c' → 1 ≤ β.set .lower c new .lower c' →
      c' ∈ fixedToOne) :
    { p with fixedToOne := fixedToOne }.Placed member forced (β.set .lower c new) := by
  refine ⟨hfixed, hheld, h.available, fun c' cost hmember hopen hone => ?_, h.sorted⟩
  rw [BoundValues.set_of_ne _ _ fun hset => by cases hset.1] at hone
  exact h.complete c' cost hmember hopen hone

/-- Nothing but the available columns depends on upper bounds. -/
theorem Placed.set_upper (h : p.Placed member forced β) {c : ColumnId} {new : Exact}
    {available : List (Exact × ColumnId)} (havailable : ∀ y ∈ available, member y.2 y.1)
    (hcomplete : ∀ c' cost, member c' cost → ¬forced c' → 1 ≤ β.set .upper c new .upper c' →
      (cost, c') ∈ available)
    (hsorted : available.Pairwise fun y z => y.1 ≤ z.1) :
    { p with available := available }.Placed member forced (β.set .upper c new) := by
  have hlower : ∀ c', β.set .upper c new .lower c' = β .lower c' := fun c' =>
    BoundValues.set_of_ne _ _ fun hset => by cases hset.1
  refine ⟨fun c' hc' => ?_, fun c' cost hmember hforced hone => ?_, havailable, hcomplete, hsorted⟩
  · rw [hlower]
    exact h.fixed c' hc'
  · exact h.held c' cost hmember hforced (hlower c' ▸ hone)

end ObjectivePartition

namespace ObjectivePropagation

variable {member : ColumnId → Exact → Prop} {forced : ColumnId → Prop} {β : BoundValues Exact}
  {p : ObjectivePartition Exact} {c : ColumnId} {cost new : Exact}

theorem one_le_iff {v : Exact} (hv : v ≠ nan) : 1 ≤ v ↔ ¬v < 1 := by
  refine ⟨fun hle hlt => (lt_iff.mp hlt).2 hle, fun hnot => ?_⟩
  exact le_of_not_lt hv (by simp) hnot

/-- A partition follows a lower bound of one of its columns. -/
theorem placed_moveLower (h : p.Placed member forced β) (hc : member c cost)
    (hold : β .lower c ≠ nan) (hnew : new ≠ nan) :
    ((movePartition? p c .lower cost (β .lower c) new).getD p).Placed member forced
      (β.set .lower c new) := by
  have hothers : ∀ c' ∈ p.fixedToOne, c' ≠ c →
      (∃ cost, member c' cost) ∧ 1 ≤ β.set .lower c new .lower c' := fun c' hc' hne => by
    rw [BoundValues.set_of_ne _ _ fun hset => hne hset.2]
    exact h.fixed c' hc'
  have hself : 1 ≤ new → (∃ cost, member c cost) ∧ 1 ≤ β.set .lower c new .lower c := fun hone => by
    rw [BoundValues.set_self]
    exact ⟨⟨cost, hc⟩, hone⟩
  have hheld : ∀ c' cost', member c' cost' → forced c' → c' ≠ c →
      1 ≤ β.set .lower c new .lower c' →
      c' ∈ p.fixedToOne := fun c' cost' hc' hforced hne hone => by
    rw [BoundValues.set_of_ne _ _ fun hset => hne hset.2] at hone
    exact h.held c' cost' hc' hforced hone
  simp only [movePartition?, Bool.and_eq_true, decide_eq_true_eq]
  split
  · next hraised =>
      refine h.set_lower (fun c' hc' => ?_) fun c' cost' hc' hforced hone => ?_
      · rcases List.mem_append.mp hc' with hc' | hc'
        · by_cases hne : c' = c
          · rw [hne]
            exact hself hraised.1
          · exact hothers c' hc' hne
        · rw [List.mem_singleton.mp hc']
          exact hself hraised.1
      · by_cases hne : c' = c
        · rw [hne]
          exact List.mem_append_right _ (List.mem_singleton_self c)
        · exact List.mem_append_left _ (hheld c' cost' hc' hforced hne hone)
  · split
    · next hlowered =>
        refine h.set_lower (fun c' hc' => ?_) fun c' cost' hc' hforced hone => ?_
        · obtain ⟨hmem, hne⟩ := List.mem_filter.mp hc'
          exact hothers c' hmem (by simpa using hne)
        · by_cases hne : c' = c
          · rw [hne, BoundValues.set_self] at hone
            exact absurd hlowered.1 ((one_le_iff hnew).mp hone)
          · exact List.mem_filter.mpr ⟨hheld c' cost' hc' hforced hne hone, by simpa using hne⟩
    · next hraised hkept =>
        refine h.set_lower (fun c' hc' => ?_) fun c' cost' hc' hforced hone => ?_
        · by_cases hne : c' = c
          · subst hne
            refine hself ((one_le_iff hnew).mpr fun hlt => hkept ⟨hlt, (h.fixed c' hc').2⟩)
          · exact hothers c' hc' hne
        · by_cases hne : c' = c
          · subst hne
            rw [BoundValues.set_self] at hone
            exact h.held c' cost' hc' hforced ((one_le_iff hold).mpr fun hlt => hraised ⟨hone, hlt⟩)
          · exact hheld c' cost' hc' hforced hne hone

/-- A partition follows an upper bound of one of its columns. -/
theorem placed_moveUpper (hmembers : ObjectivePartition.Members member)
    (h : p.Placed member forced β) (hc : member c cost) (hold : β .upper c ≠ nan)
    (hnew : new ≠ nan) :
    ((movePartition? p c .upper cost (β .upper c) new).getD p).Placed member forced
      (β.set .upper c new) := by
  have hothers : ∀ c' cost', member c' cost' → ¬forced c' → c' ≠ c →
      1 ≤ β.set .upper c new .upper c' → (cost', c') ∈ p.available :=
    fun c' cost' hc' hopen hne hone => by
      rw [BoundValues.set_of_ne _ _ fun hset => hne hset.2] at hone
      exact h.complete c' cost' hc' hopen hone
  have hcost : cost ≠ nan := by
    obtain ⟨q, -, rfl⟩ := hmembers.negative c cost hc
    simp
  simp only [movePartition?, Bool.and_eq_true, decide_eq_true_eq]
  split
  · next hlowered =>
      refine h.set_upper (fun y hy => h.available y (List.mem_of_mem_filter hy))
        (fun c' cost' hc' hopen hone => ?_) (h.sorted.filter _)
      by_cases hne : c' = c
      · subst hne
        rw [BoundValues.set_self] at hone
        exact absurd hlowered.1 ((one_le_iff hnew).mp hone)
      · exact ObjectivePartition.mem_removeAvailable_of hcost (h.available_not_nan hmembers)
          (hothers c' cost' hc' hopen hne hone) hne
  · split
    · exact h.insertAvailable hmembers hc
    · next hkept =>
        refine h.set_upper h.available (fun c' cost' hc' hopen hone => ?_) h.sorted
        by_cases hne : c' = c
        · subst hne
          rw [BoundValues.set_self] at hone
          refine h.complete c' cost' hc' hopen ((one_le_iff hold).mpr fun hlt => hkept ⟨hone, hlt⟩)
        · exact hothers c' cost' hc' hopen hne hone

/-- The columns of a partition with their costs. -/
def Member (o : ObjectivePropagation Exact) (i : Nat) (c : ColumnId) (cost : Exact) : Prop :=
  o.partitionOf[c]? = some (some i) ∧ o.costs[c]? = some cost

/-- The columns of every partition are binary with a negative cost, they are where they belong for
the given values of the bounds, and the contribution of the partition is up to date. Pinned columns
count as available only while they are not fixed to one. -/
structure Placed (pinned : ColumnId → Prop) (m : Model Exact) (o : ObjectivePropagation Exact)
    (β : BoundValues Exact) : Prop where
  costs : o.costs = m.columns.map Column.cost
  columns : ∀ (c : ColumnId) i, o.partitionOf[c]? = some (some i) →
    m.Binary c ∧ ∃ q : ℚ, q < 0 ∧ o.costs[c]? = some (number q)
  partitions : ∀ (i : Nat) p, o.partitions[i]? = some p →
    p.Placed (o.Member i) pinned β ∧ p.minimalContribution o.costs = .ok p.contribution

variable {pinned : ColumnId → Prop} {m : Model Exact} {o o' : ObjectivePropagation Exact} {i : Nat}

theorem members_of (h : ∀ (c : ColumnId) i, o.partitionOf[c]? = some (some i) →
    m.Binary c ∧ ∃ q : ℚ, q < 0 ∧ o.costs[c]? = some (number q)) (i : Nat) :
    ObjectivePartition.Members (o.Member i) := by
  refine ⟨fun c cost hc => ?_, fun c cost cost' hc hc' => ?_⟩
  · obtain ⟨-, q, hq, hcost⟩ := h c i hc.1
    exact ⟨q, hq, Option.some.inj (hc.2.symm.trans hcost)⟩
  · exact Option.some.inj (hc.2.symm.trans hc'.2)

/-- The partitions follow a bound that moves. -/
theorem Placed.boundMoved (h : o.Placed pinned m β) {side : Side} {feastol : Exact}
    {violated : Bool}
    (hold : β side c ≠ nan) (hnew : new ≠ nan)
    (hmoved : o.boundMoved c side (β side c) new feastol = .ok (violated, o')) :
    o'.Placed pinned m (β.set side c new) := by
  have hmembers := members_of h.columns
  have hother : (∀ i, o.partitionOf[c]? ≠ some (some i)) →
    o.Placed pinned m (β.set side c new) := by
    refine fun hnone => ⟨h.costs, h.columns, fun i p hp => ?_⟩
    obtain ⟨hplaced, hcontribution⟩ := h.partitions i p hp
    exact ⟨hplaced.set_other (fun cost hc => hnone i hc.1) side new, hcontribution⟩
  simp only [ObjectivePropagation.boundMoved, bind_eq_ok, fetch_eq_ok] at hmoved
  obtain ⟨cost, hcost, hmoved⟩ := hmoved
  split at hmoved
  · next hzero =>
      simp only [pure_eq_ok, Prod.mk.injEq] at hmoved
      obtain ⟨-, rfl⟩ := hmoved
      refine hother fun i hi => ?_
      obtain ⟨-, q, hq, hcost'⟩ := h.columns c i hi
      obtain rfl : cost = number q := Option.some.inj (hcost.symm.trans hcost')
      rw [ofNat_eq, number_beq] at hzero
      exact hq.ne (of_decide_eq_true hzero)
  · simp only [bind_eq_ok, fetch_eq_ok] at hmoved
    obtain ⟨index, hindex, hmoved⟩ := hmoved
    cases index with
    | none =>
        have hnone : ∀ i, o.partitionOf[c]? ≠ some (some i) := fun i hi => by
          rw [hindex] at hi
          cases hi
        have hplaced := hother hnone
        dsimp only at hmoved
        split at hmoved
        · simp only [pure_eq_ok, Prod.mk.injEq] at hmoved
          rw [← hmoved.2]
          exact hplaced
        · simp only [bind_eq_ok, pure_eq_ok, Prod.mk.injEq] at hmoved
          obtain ⟨min, -, -, rfl⟩ := hmoved
          exact ⟨hplaced.costs, hplaced.columns, hplaced.partitions⟩
    | some i =>
        simp only [bind_eq_ok, fetch_eq_ok] at hmoved
        obtain ⟨p, hp, hmoved⟩ := hmoved
        obtain ⟨hplaced, hcontribution⟩ := h.partitions i p hp
        have hc : o.Member i c cost := ⟨hindex, hcost⟩
        have hmovedPlaced : ((movePartition? p c side cost (β side c) new).getD p).Placed
            (o.Member i) pinned (β.set side c new) := by
          cases side with
          | lower => exact placed_moveLower hplaced hc hold hnew
          | upper => exact placed_moveUpper (hmembers i) hplaced hc hold hnew
        have hothers : ∀ j q, o.partitions[j]? = some q → i ≠ j →
            q.Placed (o.Member j) pinned (β.set side c new) := fun j q hq hij => by
          refine (h.partitions j q hq).1.set_other (fun cost' hc' => hij ?_) side new
          exact Option.some.inj (Option.some.inj (hindex.symm.trans hc'.1))
        split at hmoved
        · next hnone =>
            simp only [pure_eq_ok, Prod.mk.injEq] at hmoved
            obtain ⟨-, rfl⟩ := hmoved
            rw [hnone, Option.getD_none] at hmovedPlaced
            refine ⟨h.costs, h.columns, fun j q hq => ?_⟩
            by_cases hij : i = j
            · subst hij
              obtain rfl : p = q := Option.some.inj (hp.symm.trans hq)
              exact ⟨hmovedPlaced, hcontribution⟩
            · exact ⟨hothers j q hq hij, (h.partitions j q hq).2⟩
        · next moved hsome =>
            simp only [bind_eq_ok, pure_eq_ok, store_eq_ok, Prod.mk.injEq] at hmoved
            obtain ⟨contribution, hnewContribution, _, ⟨-, rfl⟩, -, rfl⟩ := hmoved
            rw [hsome, Option.getD_some] at hmovedPlaced
            refine ⟨h.costs, h.columns, fun j q hq => ?_⟩
            rcases of_getElem?_setIfInBounds hq with ⟨rfl, rfl⟩ | ⟨hij, hq⟩
            · exact ⟨⟨hmovedPlaced.fixed, hmovedPlaced.held, hmovedPlaced.available,
                hmovedPlaced.complete, hmovedPlaced.sorted⟩, hnewContribution⟩
            · exact ⟨hothers j q hq hij, (h.partitions j q hq).2⟩

section Setup

/-- The values of the bounds of the first columns, with the others at zero. -/
def upTo (β : BoundValues Exact) (k : Nat) : BoundValues Exact :=
  fun side c => if c < k then β side c else 0

theorem upTo_succ (β : BoundValues Exact) (k : Nat) :
    upTo β (k + 1) = ((upTo β k).set .lower k (β .lower k)).set .upper k (β .upper k) := by
  funext side c
  simp only [upTo, BoundValues.set]
  rcases Nat.lt_trichotomy c k with hlt | rfl | hgt
  · simp [hlt, Nat.lt_succ_of_lt hlt, Nat.ne_of_lt hlt]
  · cases side <;> simp
  · have hnot : ¬c < k + 1 := Nat.not_lt_of_le hgt
    simp [hnot, Nat.not_lt_of_lt hgt, Nat.ne_of_gt hgt]

/-- A column is put where it belongs. -/
theorem placeInPartition_placed (hmembers : ObjectivePartition.Members member)
    (h : p.Placed member forced β) (hc : member c cost) (hzero : ∀ side, β side c = 0)
    {lower upper : Exact} (hlower : lower ≠ nan) (hforced : 1 ≤ lower → forced c)
    (hupper : upper ≠ nan) :
    (placeInPartition p c cost lower upper).Placed member forced
      ((β.set .lower c lower).set .upper c upper) := by
  have hzero_one : ¬(1 : Exact) ≤ 0 := by simp
  have hzero_lt : (0 : Exact) < 1 := by simp
  have hfirst := placed_moveLower h hc (by simp [hzero]) hlower
  rw [hzero] at hfirst
  simp only [movePartition?, Bool.and_eq_true, decide_eq_true_eq] at hfirst
  rw [placeInPartition]
  by_cases hlow : 1 ≤ lower
  · rw [if_pos ⟨hlow, hzero_lt⟩] at hfirst
    rw [if_pos hlow]
    refine hfirst.set_upper hfirst.available (fun c' cost' hc' hopen hone => ?_) hfirst.sorted
    have hne : c' ≠ c := fun hsame => hopen (hsame ▸ hforced hlow)
    rw [BoundValues.set_of_ne _ _ fun hset => hne hset.2] at hone
    exact hfirst.complete c' cost' hc' hopen hone
  · rw [if_neg fun h => hlow h.1, if_neg fun h => hzero_one h.2] at hfirst
    have hkept : β.set .lower c lower .upper c = 0 := by
      rw [BoundValues.set_of_ne _ _ fun hset => by cases hset.1]
      exact hzero .upper
    have hmoved := placed_moveUpper hmembers hfirst hc (by rw [hkept]; simp) hupper
    rw [hkept] at hmoved
    simp only [movePartition?, Bool.and_eq_true, decide_eq_true_eq] at hmoved
    rw [if_neg fun h => hzero_one h.2] at hmoved
    rw [if_neg hlow]
    by_cases hone : 1 ≤ upper
    · rw [if_pos ⟨hone, hzero_lt⟩] at hmoved
      rw [if_pos hone]
      exact hmoved
    · rw [if_neg fun h => hone h.1] at hmoved
      rw [if_neg hone]
      exact hmoved

/-- While everything is computed anew, the first columns are where they belong. -/
structure Placing (forced : ColumnId → Prop) (start : ObjectivePropagation Exact)
    (β : BoundValues Exact) (k : Nat) (o : ObjectivePropagation Exact) : Prop where
  same : SameConstraint start o
  partitions : ∀ (i : Nat) p, o.partitions[i]? = some p →
    p.Placed (start.Member i) forced (upTo β k)

/-- At first no column is anywhere. -/
theorem Placing.emptied (start : ObjectivePropagation Exact) (β : BoundValues Exact) :
    Placing forced start β 0
      { start with min := .zero, partitions := start.partitions.map fun _ => .empty } := by
  refine ⟨⟨rfl, rfl, rfl⟩, fun i p hp => ?_⟩
  rw [Array.getElem?_map] at hp
  obtain ⟨q, -, rfl⟩ := Option.map_eq_some_iff.mp hp
  have hzero : ∀ side c, ¬1 ≤ upTo β 0 side c := fun side c => by
    rw [upTo, if_neg (Nat.not_lt_zero c)]
    simp
  exact ⟨fun c hc => absurd hc List.not_mem_nil, fun c cost _ _ hone => absurd hone (hzero _ _),
    fun y hy => absurd hy List.not_mem_nil, fun c cost _ _ hone => absurd hone (hzero _ _),
    List.Pairwise.nil⟩

theorem Placing.addColumn {start : ObjectivePropagation Exact} (h : Placing forced start β c o)
    (hmembers : ∀ i, ObjectivePartition.Members (start.Member i))
    (hforced : ∀ i, start.partitionOf[c]? = some (some i) → 1 ≤ β .lower c → forced c)
    (hnan : ∀ side, β side c ≠ nan) (hadd : o.addColumn c (β .lower c) (β .upper c) = .ok o') :
    Placing forced start β (c + 1) o' := by
  have hother : ∀ (j : Nat) (q : ObjectivePartition Exact),
      q.Placed (start.Member j) forced (upTo β c) → start.partitionOf[c]? ≠ some (some j) →
        q.Placed (start.Member j) forced (upTo β (c + 1)) := by
    intro j q hq hj
    rw [upTo_succ]
    exact (hq.set_other (fun _ hc => hj hc.1) _ _).set_other (fun _ hc => hj hc.1) _ _
  simp only [ObjectivePropagation.addColumn, bind_eq_ok, fetch_eq_ok] at hadd
  obtain ⟨cost, hcost, hadd⟩ := hadd
  rw [h.same.costs] at hcost
  split at hadd
  · next hzero =>
      obtain rfl := pure_eq_ok.mp hadd
      refine ⟨h.same, fun j q hq => hother j q (h.partitions j q hq) fun hj => ?_⟩
      obtain ⟨r, hr, rfl⟩ := (hmembers j).negative c cost ⟨hj, hcost⟩
      rw [ofNat_eq, number_beq] at hzero
      exact hr.ne (of_decide_eq_true hzero)
  · simp only [bind_eq_ok, fetch_eq_ok] at hadd
    obtain ⟨index, hindex, hadd⟩ := hadd
    rw [h.same.partitionOf] at hindex
    cases index with
    | none =>
        obtain rfl := pure_eq_ok.mp hadd
        refine ⟨⟨h.same.cutoff, h.same.costs, h.same.partitionOf⟩, fun j q hq => ?_⟩
        refine hother j q (h.partitions j q hq) fun hj => ?_
        rw [hindex] at hj
        cases hj
    | some i =>
        simp only [bind_eq_ok, pure_eq_ok, update_eq_ok] at hadd
        obtain ⟨_, ⟨p, p', hp, hplace, rfl⟩, rfl⟩ := hadd
        cases hplace
        refine ⟨⟨h.same.cutoff, h.same.costs, h.same.partitionOf⟩, fun j q hq => ?_⟩
        rcases of_getElem?_setIfInBounds hq with ⟨rfl, rfl⟩ | ⟨hij, hq⟩
        · rw [upTo_succ]
          exact placeInPartition_placed (hmembers i) (h.partitions i p hp) ⟨hindex, hcost⟩
            (fun side => by simp [upTo]) (hnan .lower) (hforced i hindex) (hnan .upper)
        · refine hother j q (h.partitions j q hq) fun hj => hij ?_
          exact Option.some.inj (Option.some.inj (hindex.symm.trans hj))

/-- In the end every column is where it belongs. -/
theorem Placing.placed {start : ObjectivePropagation Exact}
    (h : Placing forced start β start.costs.size o) {i : Nat} {p : ObjectivePartition Exact}
    (hp : o.partitions[i]? = some p) : p.Placed (start.Member i) forced β := by
  have hupTo := h.partitions i p hp
  have hsame : ∀ c cost, start.Member i c cost → ∀ side, upTo β start.costs.size side c =
      β side c := fun c cost hc side => by
    rw [upTo, if_pos (Array.getElem?_eq_some_iff.mp hc.2).1]
  refine ⟨fun c hc => ?_, fun c cost hc hforced hone => ?_, hupTo.available,
    fun c cost hc hopen hone => ?_, hupTo.sorted⟩
  · obtain ⟨⟨cost, hmember⟩, hone⟩ := hupTo.fixed c hc
    rw [hsame c cost hmember] at hone
    exact ⟨⟨cost, hmember⟩, hone⟩
  · rw [← hsame c cost hc] at hone
    exact hupTo.held c cost hc hforced hone
  · rw [← hsame c cost hc] at hone
    exact hupTo.complete c cost hc hopen hone

/-- While the contributions are computed, those of the first partitions are up to date. -/
structure Contributing (forced : ColumnId → Prop) (start : ObjectivePropagation Exact)
    (β : BoundValues Exact) (k : Nat) (o : ObjectivePropagation Exact) : Prop where
  same : SameConstraint start o
  partitions : ∀ (i : Nat) p, o.partitions[i]? = some p → p.Placed (start.Member i) forced β
  contributions : ∀ (i : Nat) p, i < k → o.partitions[i]? = some p →
    p.minimalContribution start.costs = .ok p.contribution

theorem Contributing.addContribution {start : ObjectivePropagation Exact}
    (h : Contributing forced start β i o) (hadd : o.addContribution i = .ok o') :
    Contributing forced start β (i + 1) o' := by
  simp only [ObjectivePropagation.addContribution, bind_eq_ok, fetch_eq_ok, store_eq_ok,
    pure_eq_ok] at hadd
  obtain ⟨p, hp, contribution, hcontribution, _, ⟨-, rfl⟩, rfl⟩ := hadd
  rw [h.same.costs] at hcontribution
  refine ⟨⟨h.same.cutoff, h.same.costs, h.same.partitionOf⟩, fun j q hq => ?_, fun j q hj hq => ?_⟩
  · rcases of_getElem?_setIfInBounds hq with ⟨rfl, rfl⟩ | ⟨-, hq⟩
    · have hplaced := h.partitions i p hp
      exact ⟨hplaced.fixed, hplaced.held, hplaced.available, hplaced.complete, hplaced.sorted⟩
    · exact h.partitions j q hq
  · rcases of_getElem?_setIfInBounds hq with ⟨rfl, rfl⟩ | ⟨hij, hq⟩
    · exact hcontribution
    · exact h.contributions j q (by omega) hq

/-- Computing everything anew while the columns of the partitions that are fixed to one are pinned
puts every column where it belongs. -/
theorem recompute_placed {start : ObjectivePropagation Exact} {lower upper : Array (Bound Exact)}
    (hcosts : start.costs = m.columns.map Column.cost)
    (hcolumns : ∀ (c : ColumnId) i, start.partitionOf[c]? = some (some i) →
      m.Binary c ∧ ∃ q : ℚ, q < 0 ∧ start.costs[c]? = some (number q))
    (hlower : ∀ c b, lower[c]? = some b → b.value = β .lower c)
    (hupper : ∀ c b, upper[c]? = some b → b.value = β .upper c) (hnan : ∀ side c, β side c ≠ nan)
    (hpinned : ∀ (c : ColumnId) i, start.partitionOf[c]? = some (some i) → 1 ≤ β .lower c →
      pinned c)
    (hrecompute : start.recompute lower upper = .ok o') : o'.Placed pinned m β := by
  have hmembers := members_of hcolumns
  simp only [recompute, bind_eq_ok, pure_eq_ok] at hrecompute
  obtain ⟨o₁, hloop, o₂, hcontributions, rfl⟩ := hrecompute
  have hall : Placing pinned start β start.costs.size o₁ :=
    foldlM_range_keeps (P := Placing pinned start β) (fun c s s' _ hs hstep => by
      simp only [bind_eq_ok, fetch_eq_ok] at hstep
      obtain ⟨l, hl, u, hu, hadd⟩ := hstep
      rw [hlower c l hl, hupper c u hu] at hadd
      exact hs.addColumn hmembers (hpinned c) (fun side => hnan side c) hadd) hloop
        (.emptied start β)
  have hdone : Contributing pinned start β o₁.partitions.size o₂ :=
    foldlM_range_keeps (P := Contributing pinned start β)
      (fun i s s' _ hs hstep => hs.addContribution hstep) hcontributions
      ⟨hall.same, fun _ _ hp => hall.placed hp, fun i p hi => absurd hi (Nat.not_lt_zero i)⟩
  have hsize : o₂.partitions.size = o₁.partitions.size := by
    refine foldlM_keeps (P := fun s : ObjectivePropagation Exact =>
      s.partitions.size = o₁.partitions.size) (fun s i s' _ hs hstep => ?_) hcontributions rfl
    simp only [ObjectivePropagation.addContribution, bind_eq_ok, store_eq_ok, pure_eq_ok] at hstep
    obtain ⟨_, -, _, -, _, ⟨-, rfl⟩, rfl⟩ := hstep
    exact (Array.size_setIfInBounds ..).trans hs
  refine ⟨hdone.same.costs.trans hcosts, fun c i hi => ?_, fun i p hp => ⟨?_, ?_⟩⟩
  · have hi' : start.partitionOf[c]? = some (some i) := by
      rw [← hdone.same.partitionOf]
      exact hi
    obtain ⟨hbinary, q, hq, hcost⟩ := hcolumns c i hi'
    refine ⟨hbinary, q, hq, ?_⟩
    rw [← hcost]
    exact congrArg (fun costs => costs[c]?) hdone.same.costs
  · have hmember : ({ o₂ with needsPropagation := true } : ObjectivePropagation Exact).Member i =
        start.Member i := by
      funext c cost
      rw [Member, Member, ← hdone.same.partitionOf, ← hdone.same.costs]
    rw [hmember]
    exact hdone.partitions i p hp
  · have hlt : i < o₁.partitions.size := hsize ▸ (Array.getElem?_eq_some_iff.mp hp).1
    rw [← hdone.contributions i p hlt hp]
    exact congrArg p.minimalContribution hdone.same.costs

end Setup

end ObjectivePropagation

end BranchBound
