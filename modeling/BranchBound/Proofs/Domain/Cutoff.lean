import BranchBound.Domain.Propagation
import BranchBound.Proofs.Domain.Implied
import BranchBound.Proofs.Domain.Partition
import Mathlib.Algebra.BigOperators.Intervals
import Mathlib.Algebra.Order.BigOperators.Group.Finset
import Mathlib.Algebra.Order.BigOperators.Group.List
import Mathlib.Data.List.TakeWhile

/-!
# The cutoff at points of the box

The objective value of a point is that of the columns outside of the partitions plus that of every
partition. A partition of which at most one column is one costs at least what it contributes to the
minimal objective value. So the minimal objective value is not above the objective value of a point
of the box, and what the cutoff implies for the columns of a partition holds at every point that
keeps to it.
-/

namespace BranchBound

open Checked Exact

variable {x : Point}

/-- Columns of which at most one is one cost at least what every single one does. -/
theorem le_dot_of_atMostOne {entries : List (ColumnId × Exact)} {m : ℚ}
    (hnodup : (entries.map Prod.fst).Nodup)
    (hbinary : ∀ e ∈ entries, x e.1 = 0 ∨ x e.1 = 1)
    (hone : ∀ e ∈ entries, ∀ e' ∈ entries, x e.1 = 1 → x e'.1 = 1 → e.1 = e'.1)
    (hm : m ≤ 0) (hle : ∀ e ∈ entries, x e.1 = 1 → m ≤ e.2.toRat) : m ≤ dot entries x := by
  induction entries with
  | nil => exact hm
  | cons e rest ih =>
      obtain ⟨hnew, hnodup⟩ := List.nodup_cons.mp hnodup
      have hmem : ∀ e' ∈ rest, e' ∈ e :: rest := fun _ => List.mem_cons_of_mem _
      rw [← Multiset.cons_coe, dot_cons]
      rcases hbinary e (List.mem_cons_self ..) with hzero | hat
      · rw [hzero, Int.cast_zero, mul_zero, zero_add]
        exact ih hnodup (fun e' he' => hbinary e' (hmem e' he'))
          (fun e' he' e'' he'' => hone e' (hmem e' he') e'' (hmem e'' he''))
          fun e' he' => hle e' (hmem e' he')
      · have hrest : dot rest x = 0 := by
          refine Multiset.sum_eq_zero fun q hq => ?_
          obtain ⟨e', he', rfl⟩ := Multiset.mem_map.mp hq
          have he' := Multiset.mem_coe.mp he'
          have hoff : x e'.1 = 0 := by
            refine (hbinary e' (hmem e' he')).resolve_right fun hat' => hnew ?_
            rw [hone e (List.mem_cons_self ..) e' (hmem e' he') hat hat']
            exact List.mem_map_of_mem he'
          rw [hoff, Int.cast_zero, mul_zero]
        rw [hrest, hat, Int.cast_one, mul_one, add_zero]
        exact hle e (List.mem_cons_self ..) hat

/-- Entries without a part or with one of the first parts are those without a part, which count if
they are not zero, and those of each part. -/
theorem dot_eq_parts (part : ColumnId → Option Nat) {n : Nat} {entries : List (ColumnId × Exact)}
    (hpart : ∀ e ∈ entries, ∀ i, part e.1 = some i → i < n) :
    dot entries x =
      dot (entries.filter fun e => !(e.2 == 0 || (part e.1).isSome) : List (ColumnId × Exact)) x +
        ∑ i ∈ Finset.range n,
          dot (entries.filter fun e => part e.1 = some i : List (ColumnId × Exact)) x := by
  induction entries with
  | nil => simp
  | cons e rest ih =>
      have hrest := ih fun e' he' => hpart e' (List.mem_cons_of_mem _ he')
      rw [← Multiset.cons_coe, dot_cons, hrest]
      cases hp : part e.1 with
      | some i =>
          have hi := hpart e (List.mem_cons_self ..) i hp
          have hsum : ∀ j, dot ((e :: rest).filter fun e => part e.1 = some j :
              List (ColumnId × Exact)) x = (if i = j then e.2.toRat * (x e.1 : ℚ) else 0) +
                dot (rest.filter fun e => part e.1 = some j : List (ColumnId × Exact)) x := by
            intro j
            by_cases hij : i = j
            · subst hij
              rw [List.filter_cons_of_pos (by simp [hp]), ← Multiset.cons_coe, dot_cons, if_pos rfl]
            · rw [List.filter_cons_of_neg (by simp [hp, hij]), if_neg hij, zero_add]
          simp only [hsum, Finset.sum_add_distrib, Finset.sum_ite_eq, Finset.mem_range, hi, if_true]
          rw [List.filter_cons_of_neg (by simp [hp])]
          ring
      | none =>
          have hsum : ∀ j, ((e :: rest).filter fun e => part e.1 = some j) =
              rest.filter fun e => part e.1 = some j := fun j =>
            List.filter_cons_of_neg (by simp [hp])
          simp only [hsum]
          cases hzero : e.2 == (0 : Exact) with
          | true =>
              have hcost : e.2.toRat = 0 := by rw [(equal_iff.mp hzero).1]; simp
              rw [List.filter_cons_of_neg (by simp [hzero, -ofNat_eq]), hcost, zero_mul, zero_add]
          | false =>
              rw [List.filter_cons_of_pos (by simp [hzero, hp, -ofNat_eq]),
                ← Multiset.cons_coe, dot_cons]
              ring

namespace ObjectivePropagation

variable {pinned : ColumnId → Prop} {m : Model Exact} {o : ObjectivePropagation Exact}
  {β : BoundValues Exact}

/-- All columns with their costs. -/
def entries (o : ObjectivePropagation Exact) : List (ColumnId × Exact) :=
  o.costs.toList.zipIdx.map fun (cost, c) => (c, cost)

/-- The columns of a partition with their costs. -/
def partitionEntries (o : ObjectivePropagation Exact) (i : Nat) : List (ColumnId × Exact) :=
  o.entries.filter fun e => o.partitionOf[e.1]?.join = some i

theorem mem_entries {c : ColumnId} {cost : Exact} :
    (c, cost) ∈ o.entries ↔ o.costs[c]? = some cost := by
  rw [entries, List.mem_map]
  constructor
  · rintro ⟨⟨cost', c'⟩, hmem, heq⟩
    cases heq
    simpa using List.mem_zipIdx_iff_getElem?.mp hmem
  · intro hcost
    exact ⟨(cost, c), List.mem_zipIdx_iff_getElem?.mpr (by simpa using hcost), rfl⟩

theorem mem_partitionEntries {i : Nat} {c : ColumnId} {cost : Exact} :
    (c, cost) ∈ o.partitionEntries i ↔ o.Member i c cost := by
  rw [partitionEntries, List.mem_filter, mem_entries, decide_eq_true_eq, Option.join_eq_some_iff,
    Member, and_comm]

theorem nodup_entries : (o.entries.map Prod.fst).Nodup := by
  have hmap : o.entries.map Prod.fst = List.range o.costs.toList.length := by
    rw [entries, List.map_map]
    change o.costs.toList.zipIdx.map Prod.snd = _
    rw [List.zipIdx_map_snd, List.range_eq_range']
  rw [hmap]
  exact List.nodup_range

theorem nodup_partitionEntries (i : Nat) : ((o.partitionEntries i).map Prod.fst).Nodup :=
  nodup_entries.sublist (List.filter_sublist.map _)

theorem linearEntries_eq_filter : o.linearEntries =
    o.entries.filter fun e => !(e.2 == 0 || (o.partitionOf[e.1]?.join).isSome) := by
  rw [linearEntries_eq, entries, List.filter_map]
  rfl

theorem nodup_linearEntries : (o.linearEntries.map Prod.fst).Nodup := by
  rw [linearEntries_eq_filter]
  exact nodup_entries.sublist (List.filter_sublist.map _)

/-- The objective is that of the columns outside of the partitions plus that of each partition. -/
theorem dot_entries (h : ∀ (c : ColumnId) i, o.partitionOf[c]? = some (some i) →
    i < o.partitions.size) :
    dot o.entries x = dot o.linearEntries x +
      ∑ i ∈ Finset.range o.partitions.size, dot (o.partitionEntries i) x := by
  rw [linearEntries_eq_filter]
  exact dot_eq_parts (fun c => (o.partitionOf[c]?).join) fun e _ i hi =>
    h e.1 i (Option.join_eq_some_iff.mp hi)

/-- At most one column of every partition is one. -/
def Chooses (o : ObjectivePropagation Exact) (x : Point) : Prop :=
  ∀ (i : Nat) (c c' : ColumnId), o.partitionOf[c]? = some (some i) →
    o.partitionOf[c']? = some (some i) → x c = 1 → x c' = 1 → c = c'

/-- A point keeps to the bounds of the columns with a cost, except for those of one column perhaps,
gives the columns of the partitions zero or one each, and makes at most one column of a partition
one. Pinned columns are fixed to one. -/
structure Keeps (pinned : ColumnId → Prop) (o : ObjectivePropagation Exact) (β : BoundValues Exact)
    (free : Option ColumnId) (x : Point) : Prop where
  chooses : o.Chooses x
  binary : ∀ (c : ColumnId) i, o.partitionOf[c]? = some (some i) → x c = 0 ∨ x c = 1
  pinned : ∀ (c : ColumnId) i, o.partitionOf[c]? = some (some i) → pinned c → 1 ≤ β .lower c
  holds : ∀ (c : ColumnId) cost, o.costs[c]? = some cost → cost ≠ number 0 → some c ≠ free →
    ∀ side, (⟨c, side, β side c⟩ : BoundChange Exact).HoldsAt x

variable {free : Option ColumnId}

/-- A lower bound on the costs of the columns of a partition that may be one. -/
theorem Keeps.le_dot (hx : o.Keeps pinned β free x) {i : Nat} {m : ℚ} (hm : m ≤ 0)
    (hle : ∀ c cost, o.Member i c cost → x c = 1 → m ≤ cost.toRat) :
    m ≤ dot (o.partitionEntries i) x := by
  refine le_dot_of_atMostOne (nodup_partitionEntries i) (fun e he => ?_) (fun e he e' he' => ?_) hm
    fun e he => hle e.1 e.2 (mem_partitionEntries.mp he)
  · exact hx.binary e.1 i (mem_partitionEntries.mp he).1
  · exact hx.chooses i e.1 e'.1 (mem_partitionEntries.mp he).1 (mem_partitionEntries.mp he').1

variable {i : Nat} {p : ObjectivePartition Exact}

theorem Placed.costed (h : o.Placed pinned m β) {c : ColumnId} {cost : Exact}
    (hc : o.Member i c cost) :
    cost ≠ number 0 := by
  obtain ⟨q, hq, rfl⟩ := (members_of h.columns i).negative c cost hc
  simpa using hq.ne

/-- A column that is one at a point may still be one if no column of its partition is fixed to
one. -/
theorem Keeps.mem_available (hx : o.Keeps pinned β free x) (h : o.Placed pinned m β)
    (hp : o.partitions[i]? = some p) (hnone : p.fixedToOne = []) {c : ColumnId} {cost : Exact}
    (hc : o.Member i c cost) (hfree : some c ≠ free) (hone : x c = 1) :
    (cost, c) ∈ p.available := by
  obtain ⟨hplaced, -⟩ := h.partitions i p hp
  refine hplaced.complete c cost hc (fun hpinned => ?_) ?_
  · have hfixed := hplaced.held c cost hc hpinned (hx.pinned c i hc.1 hpinned)
    rw [hnone] at hfixed
    cases hfixed
  · have hle : number (x c : ℚ) ≤ β .upper c := hx.holds c cost hc.2 (h.costed hc) hfree .upper
    rw [hone] at hle
    simpa using hle

theorem head_le {list : List (Exact × ColumnId)} {first y : Exact × ColumnId}
    (hsorted : list.Pairwise fun y z => y.1 ≤ z.1) (hhead : list.head? = some first)
    (hy : y ∈ list) (hnan : y.1 ≠ nan) : first.1 ≤ y.1 := by
  cases list with
  | nil => cases hy
  | cons z rest =>
      obtain rfl : z = first := by simpa using hhead
      rcases List.mem_cons.mp hy with rfl | hy
      · exact Exact.le_refl hnan
      · exact (List.pairwise_cons.mp hsorted).1 y hy

/-- A partition contributes the costs of its columns that are fixed to one, which is at most what
the first of them costs, or else the smallest cost of the available ones. -/
theorem Placed.contribution_cases (h : o.Placed pinned m β) (hp : o.partitions[i]? = some p) :
    ∃ q, p.contribution = number q ∧
      ((∃ c cost, c ∈ p.fixedToOne ∧ o.Member i c (number cost) ∧ q ≤ cost) ∨
        p.fixedToOne = [] ∧ ((p.available = [] ∧ q = 0) ∨
          ∃ cost c, p.available.head? = some (number cost, c) ∧ q = Min.min cost 0)) := by
  have hmembers := members_of h.columns i
  obtain ⟨hplaced, hcontribution⟩ := h.partitions i p hp
  have hcost : ∀ c ∈ p.fixedToOne, ∀ cost, o.costs[c]? = some cost → o.Member i c cost :=
    fun c hc cost hcost => by
      obtain ⟨⟨cost', hmember⟩, -⟩ := hplaced.fixed c hc
      exact ⟨hmember.1, hcost⟩
  unfold ObjectivePartition.minimalContribution at hcontribution
  split at hcontribution
  · next hfixed =>
      simp only [bind_eq_ok, pure_eq_ok] at hcontribution
      obtain ⟨costs, hcosts, hsum⟩ := hcontribution
      have hnegative : ∀ cost ∈ costs, ∃ q : ℚ, q < 0 ∧ cost = number q := fun cost hmem => by
        obtain ⟨c, hc, hfetch⟩ := mem_mapM hcosts hmem
        exact hmembers.negative c cost (hcost c hc cost (fetch_eq_ok.mp hfetch))
      refine ⟨_, hsum.symm.trans (sum_eq fun cost hmem => (hnegative cost hmem).imp fun _ h => h.2),
        .inl ?_⟩
      cases costs with
      | nil =>
          have hempty : p.fixedToOne = [] := List.forall₂_nil_right_iff.mp (mapM_eq_ok.mp hcosts)
          simp [hempty] at hfixed
      | cons cost costs =>
          obtain ⟨c, hc, hfetch⟩ := mem_mapM hcosts (List.mem_cons_self ..)
          have hmember := hcost c hc cost (fetch_eq_ok.mp hfetch)
          have hrest : (costs.map toRat).sum ≤ 0 := by
            have hle := List.sum_le_card_nsmul (costs.map toRat) 0 fun q hq => ?_
            · simpa using hle
            obtain ⟨cost', hmem, rfl⟩ := List.mem_map.mp hq
            obtain ⟨r, hr, rfl⟩ := hnegative cost' (List.mem_cons_of_mem _ hmem)
            exact hr.le
          obtain ⟨q, -, rfl⟩ := hmembers.negative c cost hmember
          refine ⟨c, q, hc, hmember, ?_⟩
          rw [List.map_cons, List.sum_cons, toRat_number]
          linarith
  · next hempty =>
      have hempty : p.fixedToOne = [] := by simpa using hempty
      split at hcontribution
      · next first c hhead =>
          obtain ⟨q, -, rfl⟩ := hmembers.negative c first
            (hplaced.available _ (List.mem_of_mem_head? hhead))
          rw [min_zero_eq] at hcontribution
          exact ⟨_, (Except.ok.inj hcontribution).symm, .inr ⟨hempty, .inr ⟨q, c, hhead, rfl⟩⟩⟩
      · next hnone =>
          rw [ofNat_eq, Nat.cast_zero] at hcontribution
          exact ⟨0, (Except.ok.inj hcontribution).symm,
            .inr ⟨hempty, .inl ⟨List.head?_eq_none_iff.mp hnone, rfl⟩⟩⟩

/-- A partition costs at least what it contributes, if the bounds of all its columns are kept. -/
theorem Placed.contribution_le (h : o.Placed pinned m β) (hx : o.Keeps pinned β free x)
    (hfree : ∀ c cost, o.Member i c cost → some c ≠ free) (hp : o.partitions[i]? = some p) :
    p.contribution.toRat ≤ dot (o.partitionEntries i) x := by
  have hmembers := members_of h.columns i
  obtain ⟨hplaced, -⟩ := h.partitions i p hp
  obtain ⟨q, hq, hcases⟩ := h.contribution_cases hp
  rw [hq, toRat_number]
  rcases hcases with ⟨c, cost, hc, hmember, hle⟩ | ⟨hempty, ⟨hnone, rfl⟩ | ⟨cost, c, hhead, rfl⟩⟩
  · obtain ⟨-, hone⟩ := hplaced.fixed c hc
    have hkept : β .lower c ≤ number (x c : ℚ) :=
      hx.holds c _ hmember.2 (h.costed hmember) (hfree c _ hmember) .lower
    have hlower := Exact.le_trans hone hkept
    rw [ofNat_eq, number_le, Nat.cast_one, ← Int.cast_one, Int.cast_le] at hlower
    have hone : x c = 1 := (hx.binary c i hmember.1).resolve_left (by omega)
    obtain ⟨r, hr, hcost⟩ := hmembers.negative c _ hmember
    obtain rfl := Exact.number.inj hcost
    refine hx.le_dot (hle.trans hr.le) fun c' cost' hmember' hone' => ?_
    obtain rfl := hx.chooses i c c' hmember.1 hmember'.1 hone hone'
    rw [hmembers.unique c cost' _ hmember' hmember, toRat_number]
    exact hle
  · refine hx.le_dot le_rfl fun c' cost' hmember' hone' => ?_
    have hmem := hx.mem_available h hp hempty hmember' (hfree _ _ hmember') hone'
    rw [hnone] at hmem
    cases hmem
  · refine hx.le_dot (min_le_right ..) fun c' cost' hmember' hone' => ?_
    have hmem := hx.mem_available h hp hempty hmember' (hfree _ _ hmember') hone'
    obtain ⟨r, -, rfl⟩ := hmembers.negative c' cost' hmember'
    have hle := head_le hplaced.sorted hhead hmem (by simp)
    rw [number_le] at hle
    exact (min_le_left ..).trans hle

end ObjectivePropagation

end BranchBound

/-!
## What the cutoff implies

A point of the box that chooses at most one column of every partition and keeps to the cutoff is
not excluded by the objective: the minimal objective value does not exceed the cutoff, a column of a
partition that is one does not either, and neither does a partition at zero if all of its columns
are zero.
-/

namespace BranchBound

open Checked Exact

variable {x : Point}

theorem sum_map_eq_sum_range {β : Type} (g : β → ℚ) (xs : List β) :
    (xs.map g).sum = ∑ i ∈ Finset.range xs.length, xs[i]?.elim 0 g := by
  induction xs with
  | nil => rfl
  | cons y rest ih =>
      rw [List.map_cons, List.sum_cons, ih, List.length_cons, Finset.sum_range_succ', add_comm]
      simp

namespace ObjectivePropagation

variable {pinned : ColumnId → Prop} {m : Model Exact} {o : ObjectivePropagation Exact}
  {β : BoundValues Exact} {columnCount i : Nat} {f : ℚ}

/-- What the partitions add to the minimal objective value. -/
def contributions (o : ObjectivePropagation Exact) : Multiset Exact :=
  (o.partitions.toList.map ObjectivePartition.contribution : List Exact)

/-- What one partition adds to the minimal objective value. -/
def contributionAt (o : ObjectivePropagation Exact) (i : Nat) : ℚ :=
  o.partitions[i]?.elim 0 fun p => p.contribution.toRat

theorem constantSum_contributions :
    constantSum o.contributions = ∑ i ∈ Finset.range o.partitions.size, o.contributionAt i := by
  have hsum := sum_map_eq_sum_range (fun p : ObjectivePartition Exact => p.contribution.toRat)
    o.partitions.toList
  rw [constantSum, contributions, Multiset.map_coe, List.map_map, Multiset.sum_coe]
  simpa [contributionAt, Function.comp_def] using hsum

variable {free : Option ColumnId}

theorem Placed.contributionAt_le (h : o.Placed pinned m β) (hx : o.Keeps pinned β free x)
    (hfree : ∀ c cost, o.Member i c cost → some c ≠ free) (hi : i < o.partitions.size) :
    o.contributionAt i ≤ dot (o.partitionEntries i) x := by
  have hp := Array.getElem?_eq_getElem hi
  rw [contributionAt, hp, Option.elim_some]
  exact h.contribution_le hx hfree hp

/-- The columns outside of the partitions with what the partitions contribute cost no more than all
columns, and by as much less as one partition costs more than it contributes. -/
theorem Placed.linear_add_slack_le (h : o.Placed pinned m β) (hx : o.Keeps pinned β free x)
    (hfree : ∀ j, j ≠ i → ∀ c cost, o.Member j c cost → some c ≠ free)
    (hindex : ∀ (c : ColumnId) i, o.partitionOf[c]? = some (some i) → i < o.partitions.size)
    (hi : i < o.partitions.size) :
    dot o.linearEntries x + constantSum o.contributions +
      (dot (o.partitionEntries i) x - o.contributionAt i) ≤ dot o.entries x := by
  have hrest : 0 ≤ ∑ j ∈ (Finset.range o.partitions.size).erase i,
      (dot (o.partitionEntries j) x - o.contributionAt j) := by
    refine Finset.sum_nonneg fun j hj => sub_nonneg.mpr ?_
    obtain ⟨hne, hlt⟩ := Finset.mem_erase.mp hj
    exact h.contributionAt_le hx (hfree j hne) (Finset.mem_range.mp hlt)
  have hsplit := Finset.add_sum_erase (Finset.range o.partitions.size)
    (fun j => dot (o.partitionEntries j : Multiset (ColumnId × Exact)) x - o.contributionAt j)
    (Finset.mem_range.mpr hi)
  have hdifference := Finset.sum_sub_distrib (s := Finset.range o.partitions.size)
    (fun j => dot (o.partitionEntries j : Multiset (ColumnId × Exact)) x) o.contributionAt
  rw [dot_entries hindex, constantSum_contributions]
  linarith

theorem Placed.linear_le (h : o.Placed pinned m β) (hx : o.Keeps pinned β free x)
    (hfree : ∀ j c cost, o.Member j c cost → some c ≠ free)
    (hindex : ∀ (c : ColumnId) i, o.partitionOf[c]? = some (some i) → i < o.partitions.size) :
    dot o.linearEntries x + constantSum o.contributions ≤ dot o.entries x := by
  have hsum : ∑ j ∈ Finset.range o.partitions.size, o.contributionAt j ≤
      ∑ j ∈ Finset.range o.partitions.size, dot (o.partitionEntries j) x :=
    Finset.sum_le_sum fun j hj => h.contributionAt_le hx (hfree j) (Finset.mem_range.mp hj)
  rw [dot_entries hindex, constantSum_contributions]
  linarith

theorem Coherent.linear (h : o.Coherent (.exact .any) columnCount β) :
    Entries columnCount o.linearEntries := by
  intro e he
  obtain ⟨hcost, -⟩ := mem_linearEntries.mp (Multiset.mem_coe.mp he)
  exact ⟨h.costs_size ▸ (Array.getElem?_eq_some_iff.mp hcost).1, h.costs _ _ hcost⟩

/-- A column outside of the partitions with a cost. -/
theorem isLinear_iff {c : ColumnId} {cost : Exact} :
    o.isLinear c cost = true ↔ cost ≠ number 0 ∧ ∀ i, o.partitionOf[c]? ≠ some (some i) := by
  have hsome : (o.partitionOf[c]?.join).isSome = true ↔ ∃ i, o.partitionOf[c]? = some (some i) := by
    rw [Option.isSome_iff_exists]
    simp only [Option.join_eq_some_iff]
  have hzero : (cost == (0 : Exact)) = true ↔ cost = number 0 := by
    rw [equal_iff, ofNat_eq, Nat.cast_zero]
    exact ⟨fun h => h.1, fun h => ⟨h, by simp [h]⟩⟩
  rw [isLinear, Bool.not_eq_true', Bool.or_eq_false_iff, ← Bool.not_eq_true, ← Bool.not_eq_true,
    hsome, hzero, not_exists]

/-- The terms of the columns outside of the partitions are not above those of a point that keeps to
their bounds. -/
theorem Keeps.linearTerms_le (hx : o.Keeps pinned β free x)
    (hcoherent : o.Coherent (.exact .any) columnCount β) :
    ∀ item ∈ BoundedEntries.along β minSide o.linearEntries, some item.1.1 ≠ free →
      Scalar.isInfinite item.2 = false →
        item.1.2.toRat * item.2.toRat ≤ item.1.2.toRat * (x item.1.1 : ℚ) := by
  intro item hitem hfree hfinite
  obtain ⟨⟨c, cost⟩, hmem, rfl⟩ := Multiset.mem_map.mp hitem
  obtain ⟨hcost, hlinear⟩ := mem_linearEntries.mp (Multiset.mem_coe.mp hmem)
  exact Assignment.minTerm_le (a := x.assignment) (hcoherent.costs c cost hcost)
    (hx.holds c cost hcost (isLinear_iff.mp hlinear).1 hfree _) hfinite

section Cutoff

variable (hcoherent : o.Coherent (.exact .any) columnCount β) (hplaced : o.Placed pinned m β)
  (hkeeps : o.Keeps pinned β free x) (hcutoff : number (dot o.entries x) ≤ o.cutoff)

include hcoherent hplaced hkeeps hcutoff

/-- The columns outside of the partitions have to keep to what the partitions leave. -/
theorem linear_le_cutoff (hfree : ∀ j c cost, o.Member j c cost → some c ≠ free) :
    number (dot o.linearEntries x + constantSum o.contributions) ≤ o.cutoff :=
  Exact.le_trans (number_le.mpr (hplaced.linear_le hkeeps hfree hcoherent.index_lt)) hcutoff

/-- The minimal objective value does not exceed the cutoff if all bounds are kept. -/
theorem isViolated_eq_false (hf : 0 ≤ f) (hnone : free = none) :
    o.isViolated (number f) = false := by
  subst hnone
  have htracks : o.min.Exactly (BoundedEntries.along β minSide o.linearEntries).terms
      o.contributions := by
    rw [BoundedEntries.terms_along]
    exact hcoherent.tracks
  refine Assignment.exceeds_eq_false (a := x.assignment) hf htracks (fun item hitem hfinite =>
    hkeeps.linearTerms_le hcoherent item hitem (Option.some_ne_none _) hfinite) ?_
  rw [BoundedEntries.map_along]
  exact linear_le_cutoff hcoherent hplaced hkeeps hcutoff fun _ _ _ _ => Option.some_ne_none _

/-- What the cutoff implies for a column outside of the partitions holds. -/
theorem linearChange_holds {d : Domain Exact} {c : ColumnId} {cost : Exact}
    {change : BoundChange Exact} (hinteger : d.model.AllInteger) (hfeastol : d.feastol = number f)
    (hf : 0 < f) (hvalues : d.values = β) (hnan : ∀ side c, β side c ≠ nan)
    (hentry : (c, cost) ∈ o.linearEntries) (hfree : free = some c)
    (h : d.impliedChange o.cutoff o.min (c, cost) = .ok (some change)) : change.HoldsAt x := by
  subst hfree hvalues
  have hlinear := mem_linearEntries.mp hentry
  have hitem : ((c, cost), d.values (minSide cost) c) ∈
      BoundedEntries.along d.values minSide o.linearEntries :=
    Multiset.mem_map_of_mem (fun e : ColumnId × Exact => (e, d.values (minSide e.2) e.1)) hentry
  refine Domain.impliedChange_holdsAt (K := o.contributions) hinteger hfeastol hf ?_
    (fun others hothers item hmem hfinite => ?_) hitem (hcoherent.linear _ hentry).2 (hnan _ _)
    (fun _ => rfl) ?_ h
  · rw [BoundedEntries.terms_along]
    exact hcoherent.tracks
  · -- no other entry is one of the same column
    have hnodup : (BoundedEntries.along d.values minSide o.linearEntries).map (fun i => i.1.1) =
        (o.linearEntries.map Prod.fst : List ColumnId) := by
      rw [← Multiset.map_coe, ← BoundedEntries.map_along d.values minSide o.linearEntries,
        Multiset.map_map, BoundedEntries.map_along]
      rfl
    have hdistinct : (o.linearEntries.map Prod.fst).Nodup := nodup_linearEntries
    rw [hothers, Multiset.map_cons] at hnodup
    have hnotin : c ∉ others.map fun i => i.1.1 :=
      (Multiset.nodup_cons.mp (hnodup ▸ Multiset.coe_nodup.mpr hdistinct)).1
    refine hkeeps.linearTerms_le hcoherent item (hothers ▸ Multiset.mem_cons_of_mem hmem) ?_ hfinite
    intro hsame
    exact hnotin (Multiset.mem_map.mpr ⟨item, hmem, Option.some.inj hsame⟩)
  · rw [BoundedEntries.map_along]
    refine linear_le_cutoff hcoherent hplaced hkeeps hcutoff fun j c' cost' hmember hsame => ?_
    obtain rfl := Option.some.inj hsame
    exact (isLinear_iff.mp hlinear.2).2 j hmember.1

variable {p : ObjectivePartition Exact} {c : ColumnId}

/-- With its residual a partition keeps to the cutoff at any cost up to that of its columns, if the
bounds of all columns outside of it are kept. -/
theorem residual_add_le (hf : 0 < f) (hfinite : o.min.infinite = 0)
    (hp : o.partitions[i]? = some p) (hfree : free = some c)
    (hmember : o.partitionOf[c]? = some (some i)) :
    ∃ r, o.min.finite.sub p.contribution = .exactly r ∧
      ∀ v ≤ dot (o.partitionEntries i) x, number (r + v) ≤ o.cutoff + number f := by
  subst hfree
  have hi := (Array.getElem?_eq_some_iff.mp hp).1
  obtain ⟨q, hq, -⟩ := hplaced.contribution_cases hp
  have hat : o.contributionAt i = q := by rw [contributionAt, hp, Option.elim_some, hq,
    toRat_number]
  have htracks : o.min.Exactly (termsAt β minSide o.linearEntries) o.contributions :=
    hcoherent.tracks
  have hnone : infiniteTerms (BoundedEntries.along β minSide o.linearEntries).terms = 0 := by
    rw [BoundedEntries.terms_along, ← htracks.infinite]
    exact hfinite
  have hterms : finiteSum (termsAt β minSide o.linearEntries) ≤ dot o.linearEntries x := by
    have hle := BoundedEntries.finiteSum_le (a := x.assignment) fun item hitem =>
      hkeeps.linearTerms_le hcoherent item hitem (fun hsame => ?_)
        (BoundedEntries.finite_of_infiniteTerms_eq_zero hnone item hitem)
    · rwa [BoundedEntries.terms_along, BoundedEntries.map_along] at hle
    obtain ⟨e, he, rfl⟩ := Multiset.mem_map.mp hitem
    obtain rfl : e.1 = c := Option.some.inj hsame
    exact (isLinear_iff.mp (mem_linearEntries.mp (Multiset.mem_coe.mp he)).2).2 i hmember
  have hslack := hplaced.linear_add_slack_le hkeeps (fun j hj c' cost hc' hsame => hj ?_)
    hcoherent.index_lt hi
  · rw [hat] at hslack
    refine ⟨_, by rw [htracks.finite, hq, CompensatedSum.sub_exactly], fun v hv => ?_⟩
    cases hlimit : o.cutoff with
    | number k =>
        rw [hlimit, number_le] at hcutoff
        rw [number_add, number_le]
        linarith
    | plus => rfl
    | minus | nan =>
        rw [hlimit] at hcutoff
        cases hcutoff
  · obtain rfl := Option.some.inj hsame
    exact Option.some.inj (Option.some.inj (hc'.1.symm.trans hmember))

omit hcoherent hplaced hkeeps hcutoff in
/-- The cutoff keeps columns of a partition at zero, and the only one left at one. -/
theorem mem_partitionChanges {feastol : Exact} {change : BoundChange Exact}
    (h : change ∈ Domain.partitionChanges o feastol p) : p.fixedToOne = [] ∧
      ((∃ c ∈ Domain.excludedFromPartition (o.min.finite.sub p.contribution) (o.cutoff + feastol)
          p.available, change = .atMost c 0) ∨
        ∃ cost c, p.available = [(cost, c)] ∧
          o.cutoff + feastol < (o.min.finite.sub p.contribution).value ∧
          change = .atLeast c 1) := by
  have hexcluded : ∀ {cs : List ColumnId},
      change ∈ cs.map (fun c => BoundChange.atMost c (0 : Exact)) →
        ∃ c ∈ cs, change = .atMost c 0 := by
    intro cs hmem
    obtain ⟨c, hc, rfl⟩ := List.mem_map.mp hmem
    exact ⟨c, hc, rfl⟩
  simp only [Domain.partitionChanges] at h
  split at h
  · cases h
  · next hempty =>
      refine ⟨by simpa using hempty, ?_⟩
      split at h
      · next cost c havailable =>
          split at h
          · next hexceeds =>
              rcases List.mem_append.mp h with h | h
              · exact .inl (hexcluded h)
              · exact .inr ⟨cost, c, havailable, hexceeds, List.mem_singleton.mp h⟩
          · exact .inl (hexcluded h)
      · exact .inl (hexcluded h)

/-- What the cutoff implies for the columns of a partition holds. -/
theorem partitionChanges_holds (hf : 0 < f) (hfinite : o.min.infinite = 0) (hp : p ∈ o.partitions)
    {change : BoundChange Exact} (h : change ∈ Domain.partitionChanges o (number f) p)
    (hfree : free = some change.column) : change.HoldsAt x := by
  obtain ⟨i, hi, rfl⟩ := Array.getElem_of_mem hp
  have hget := Array.getElem?_eq_getElem hi
  generalize o.partitions[i] = p at hget h
  obtain ⟨hpartition, -⟩ := hplaced.partitions i p hget
  have hmembers := members_of hplaced.columns i
  obtain ⟨hempty, hchange⟩ := mem_partitionChanges h
  rcases hchange with ⟨c, hc, rfl⟩ | ⟨cost, c, havailable, hexceeds, rfl⟩
  · obtain ⟨⟨cost, c⟩, hmem, rfl⟩ := List.mem_map.mp hc
    have hexceeds := List.mem_takeWhile_imp hmem
    have hmember := hpartition.available _
      (List.mem_reverse.mp ((List.takeWhile_prefix _).subset hmem))
    obtain ⟨r, hr, hwithin⟩ :=
      residual_add_le hcoherent hplaced hkeeps hcutoff hf hfinite hget hfree
      hmember.1
    obtain ⟨q, hq, rfl⟩ := hmembers.negative _ _ hmember
    rcases hkeeps.binary c i hmember.1 with hzero | hone
    · change number (x c : ℚ) ≤ 0
      simp [hzero]
    · have hcost : q ≤ dot (o.partitionEntries i) x :=
        hkeeps.le_dot hq.le fun c' cost' hmember' hone' => by
          obtain rfl := hkeeps.chooses i c c' hmember.1 hmember'.1 hone hone'
          rw [hmembers.unique c cost' _ hmember' hmember, toRat_number]
      have hle := hwithin q hcost
      rw [hr] at hexceeds
      simp [hle] at hexceeds
  · have hmember :=
      hpartition.available (cost, c) (by rw [havailable]; exact List.mem_singleton_self _)
    obtain ⟨r, hr, hwithin⟩ :=
      residual_add_le hcoherent hplaced hkeeps hcutoff hf hfinite hget hfree
      hmember.1
    rcases hkeeps.binary c i hmember.1 with hzero | hone
    · -- all columns of the partition are zero then
      have hcost : 0 ≤ dot (o.partitionEntries i) x :=
        hkeeps.le_dot le_rfl fun c' cost' hmember' hone' => by
          have hne : some c' ≠ free := fun hsame => by
            obtain rfl : c' = c := Option.some.inj (hsame.trans hfree)
            rw [hzero] at hone'
            cases hone'
          have hmem := hkeeps.mem_available hplaced hget hempty hmember' hne hone'
          rw [havailable, List.mem_singleton, Prod.mk.injEq] at hmem
          exact absurd (hmem.2 ▸ hfree.symm) hne
      have hle := hwithin 0 hcost
      rw [add_zero] at hle
      rw [hr, CompensatedSum.value_exactly] at hexceeds
      exact absurd hle (Exact.lt_iff.mp hexceeds).2
    · change 1 ≤ number (x c : ℚ)
      simp [hone]

end Cutoff

end ObjectivePropagation

end BranchBound
