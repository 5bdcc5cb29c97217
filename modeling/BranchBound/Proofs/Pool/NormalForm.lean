import BranchBound.Proofs.Pool.Ledger
import BranchBound.Proofs.Separation

/-!
# The normal form of pooled cuts

A cut comes into a pool as a list of entries in any order, with zero coefficients among them, and is
kept without these and sorted by column. That leaves its activity as it is at every point with
finite values, since exact sums do not depend on the order of their terms. Columns are not merged:
where the entries of a cut repeat one, the pooled cut does so as well. A copy of a pooled cut is not
inserted, and since pooled cuts never change, no two of them are equal, whatever was removed in the
meantime.
-/

namespace BranchBound

open Checked Exact

deriving instance DecidableEq for Inequality

namespace Exact

theorem add_right_comm (x y z : Exact) : x + y + z = x + z + y := by
  change add (add x y) z = add (add x z) y
  cases x <;> cases y <;> cases z <;> first | rfl | exact congrArg number (by ring)

theorem add_number_zero (x : Exact) : x + number 0 = x := by
  change add x (number 0) = x
  cases x <;> simp [add]

/-- A sum does not depend on the order of its terms. -/
theorem sum_perm {xs ys : List Exact} (h : xs.Perm ys) : Scalar.sum xs = Scalar.sum ys :=
  h.foldl_eq' (fun x _ y _ s => add_right_comm s x y) _

/-- Terms that are zero do not count, wherever they stand. -/
theorem sum_map_filter {β : Type} (keep : β → Bool) (term : β → Exact) (xs : List β)
    (hdropped : ∀ x ∈ xs, keep x = false → term x = number 0) :
    Scalar.sum ((xs.filter keep).map term) = Scalar.sum (xs.map term) := by
  unfold Scalar.sum
  generalize (Scalar.negativeZero : Exact) = start
  induction xs generalizing start with
  | nil => rfl
  | cons x rest ih =>
      have hrest := fun y hy => hdropped y (List.mem_cons_of_mem x hy)
      cases hkeep : keep x with
      | true => simpa [List.filter_cons, hkeep] using ih hrest (start + term x)
      | false =>
          have hzero := hdropped x (List.mem_cons_self ..) hkeep
          simpa [List.filter_cons, hkeep, hzero, add_number_zero] using ih hrest start

end Exact

section Activity

variable {point : Array Exact} {entries : List (ColumnId × Exact)}

/-- The product of an entry with the value of its column. -/
def Exact.termAt (point : Array Exact) (e : ColumnId × Exact) : Exact :=
  e.2 * (point[e.1]?.getD nan)

/-- Where the columns have values, the activity is the sum of the terms. -/
theorem Model.activity_eq_sum (hcolumns : ∀ e ∈ entries, e.1 < point.size) :
    Model.activity entries point = .ok (Scalar.sum (entries.map (Exact.termAt point))) := by
  have hterms : (entries.mapM fun e => do return e.2 * (← fetch point e.1) : Checked (List Exact)) =
      .ok (entries.map (Exact.termAt point)) := by
    refine mapM_eq_ok.mpr (List.forall₂_map_right_iff.mpr (List.forall₂_same.mpr fun e he => ?_))
    have hvalue := Array.getElem?_eq_getElem (hcolumns e he)
    refine bind_eq_ok.mpr ⟨_, fetch_eq_ok.mpr hvalue, ?_⟩
    rw [Exact.termAt, hvalue]
    rfl
  exact bind_eq_ok.mpr ⟨_, hterms, rfl⟩

/-- An inequality and its normal form have the same activity at every point with finite values. -/
theorem Inequality.activity_normalized {i : Inequality Exact}
    (hcolumns : ∀ e ∈ i.entries, e.1 < point.size) (hfinite : ∀ v ∈ point, ∃ q, v = number q) :
    i.normalized.activity point = i.activity point := by
  have hperm : i.normalized.entries.Perm (i.entries.filter fun e => e.2 != 0) :=
    List.mergeSort_perm ..
  have hzero : ∀ e ∈ i.entries, (e.2 != 0) = false → Exact.termAt point e = number 0 := by
    intro e he hdropped
    have hcoefficient : e.2 = number 0 := by
      by_contra hne
      exact Bool.false_ne_true
        (hdropped.symm.trans (Exact.bne_zero.mpr fun h => hne (by simpa using h)))
    obtain ⟨q, hq⟩ := hfinite _ (Array.getElem_mem (hcolumns e he))
    rw [Exact.termAt, Array.getElem?_eq_getElem (hcolumns e he), Option.getD_some, hcoefficient, hq,
      number_mul, zero_mul]
  rw [activity, activity, Model.activity_eq_sum hcolumns, Model.activity_eq_sum fun e he =>
    hcolumns e (List.mem_filter.mp (hperm.mem_iff.mp he)).1]
  rw [Exact.sum_perm (hperm.map _), Exact.sum_map_filter _ _ _ hzero]

end Activity

namespace Inequality

variable {α : Type} [Scalar α]

theorem normalized_sorted (i : Inequality α) :
    i.normalized.entries.Pairwise fun x y => x.1 ≤ y.1 := by
  have htrans : ∀ x y z : ColumnId × α, decide (x.1 ≤ y.1) = true → decide (y.1 ≤ z.1) = true →
      decide (x.1 ≤ z.1) = true := fun x y z hxy hyz =>
    decide_eq_true (Nat.le_trans (of_decide_eq_true hxy) (of_decide_eq_true hyz))
  have htotal : ∀ x y : ColumnId × α, (decide (x.1 ≤ y.1) || decide (y.1 ≤ x.1)) = true :=
    fun x y => by simpa using Nat.le_total x.1 y.1
  have h := List.pairwise_mergeSort htrans htotal (i.entries.filter fun e => e.2 != 0)
  exact h.imp fun hle => of_decide_eq_true hle

theorem mem_normalized {i : Inequality α} {e : ColumnId × α} :
    e ∈ i.normalized.entries ↔ e ∈ i.entries ∧ (e.2 != 0) = true := by
  rw [normalized, List.mem_mergeSort, List.mem_filter]

/-- Every column has at most one entry with a coefficient. -/
def Separate (i : Inequality α) : Prop :=
  ((i.entries.filter fun e => e.2 != 0).map Prod.fst).Nodup

/-- If the entries have columns of their own, the columns increase strictly. -/
theorem normalized_increasing {i : Inequality α} (h : i.Separate) :
    i.normalized.entries.Pairwise fun x y => x.1 < y.1 := by
  have hnodup : (i.normalized.entries.map Prod.fst).Nodup :=
    ((List.mergeSort_perm ..).map Prod.fst).nodup_iff.mpr h
  exact i.normalized_sorted.and (List.pairwise_map.mp hnodup) |>.imp fun h =>
    Nat.lt_of_le_of_ne h.1 h.2

/-- Whether two inequalities are equal, column by column and number by number. -/
def equals (i j : Inequality α) : Bool :=
  i.entries.length == j.entries.length &&
    (i.entries.zip j.entries).all (fun (x, y) => x.1 == y.1 && x.2 == y.2) && i.rhs == j.rhs

/-- Exact numbers have one zero only, so that equal inequalities consist of identical numbers. -/
theorem sameAs_of_equals {i j : Inequality Exact} (h : i.equals j = true) : i.sameAs j = true := by
  have hidentical : ∀ {x y : Exact}, (x == y) = true → Scalar.identical x y = true := by
    intro x y hxy
    obtain ⟨rfl, hnan⟩ := equal_iff.mp hxy
    change (totalOrder x x == .eq) = true
    cases x <;> simp_all [totalOrder, less]
  simp only [equals, Bool.and_eq_true, List.all_eq_true] at h
  obtain ⟨⟨hlength, hentries⟩, hrhs⟩ := h
  simp only [sameAs, sameEntry, Bool.and_eq_true, List.all_eq_true]
  exact ⟨⟨⟨hlength, fun e he => ⟨hentries e he, hidentical (hentries e he).2⟩⟩, hrhs⟩,
    hidentical hrhs⟩

end Inequality

namespace CutPool

/-- What is asked of a pool of cuts. -/
inductive Request (α : Type)
  | insert (cut : Inequality α)
  | insertWithAgeLimit (cut : Inequality α) (ageLimit : Nat)
  | remove (id : CutId)
  | age (used : List CutId)

/-- A pool of cuts with the cuts that it took, as they were handed in. The identifier of a cut is
its position among them. -/
structure Intake (α : Type) where
  pool : CutPool α
  taken : List (Inequality α)

namespace Intake

variable {α : Type} [Scalar α] {s : Intake α}

def empty (ageLimit : Nat) : Intake α := ⟨.empty ageLimit, []⟩

/-- The pool after a cut was handed in, with the identifier that was given out for it. -/
def handIn (s : Intake α) (cut : Inequality α) (outcome : Option CutId × CutPool α) : Intake α :=
  ⟨outcome.2, if outcome.1.isSome then s.taken ++ [cut] else s.taken⟩

def perform (s : Intake α) : Request α → Intake α
  | .insert cut => s.handIn cut (s.pool.insert cut)
  | .insertWithAgeLimit cut ageLimit => s.handIn cut (s.pool.insertWithAgeLimit cut ageLimit)
  | .remove id => { s with pool := s.pool.remove id }
  | .age used => { s with pool := (s.pool.age used).2 }

/-- Every live cut is the normal form of the one that was handed in under its identifier, and no cut
is a copy of an older one. -/
structure InOrder (s : Intake α) : Prop where
  size : s.pool.cuts.entries.size = s.taken.length
  origin : ∀ id cut, s.pool.get? id = some cut →
    ∃ given, s.taken[id]? = some given ∧ cut = given.normalized
  fresh : ∀ id id' cut cut', id < id' → s.pool.get? id = some cut → s.pool.get? id' = some cut' →
    cut.sameAs cut' = false

theorem empty_inOrder (ageLimit : Nat) : (empty ageLimit : Intake α).InOrder where
  size := rfl
  origin := fun id cut h => by
    simp [empty, CutPool.empty, get?, pooled?, Table.get?, Table.empty] at h
  fresh := fun id id' cut cut' _ h => by
    simp [empty, CutPool.empty, get?, pooled?, Table.get?, Table.empty] at h

/-- Nothing is lost by taking cuts out of the pool. -/
theorem InOrder.keeps (h : s.InOrder) {p : CutPool α}
    (hkeeps : PoolRecord.Keeps s.pool.record p.record) :
    ({ s with pool := p } : Intake α).InOrder where
  size := hkeeps.size.trans h.size
  origin := fun id cut hcut => h.origin id cut (hkeeps.entry? id cut hcut)
  fresh := fun id id' cut cut' hlt hcut hcut' =>
    h.fresh id id' cut cut' hlt (hkeeps.entry? id cut hcut) (hkeeps.entry? id' cut' hcut')

theorem InOrder.handIn (h : s.InOrder) (cut : Inequality α) (ageLimit : Nat) :
    (s.handIn cut (s.pool.insertWithAgeLimit cut ageLimit)).InOrder := by
  rcases insertWithAgeLimit_cases s.pool cut ageLimit with
    ⟨-, hsame⟩ | ⟨-, hsame⟩ | ⟨hid, hnew, hsize, hget⟩
  · rw [hsame]
    exact h
  · rw [hsame]
    exact h
  · have hlt {id : CutId} {other : Inequality α} (hother : s.pool.get? id = some other) :
        id < s.pool.cuts.entries.size := by
      obtain ⟨given, hgiven, -⟩ := h.origin id other hother
      exact h.size ▸ (List.getElem?_eq_some_iff.mp hgiven).1
    have htaken : (s.handIn cut (s.pool.insertWithAgeLimit cut ageLimit)).taken = s.taken ++
      [cut] := by
      rw [Intake.handIn, hid]
      rfl
    refine ⟨?_, fun id other hother => ?_, fun id id' other other' hlt' hother hother' => ?_⟩
    · rw [htaken, List.length_append, List.length_singleton, ← h.size]
      exact hsize
    · rw [htaken]
      rw [Intake.handIn, hget] at hother
      split at hother
      · next heq =>
          refine ⟨cut, ?_, (Option.some.inj hother).symm⟩
          rw [heq, h.size, List.getElem?_concat_length]
      · obtain ⟨given, hgiven, hnormal⟩ := h.origin id other hother
        exact ⟨given, by rw [List.getElem?_append_left (List.getElem?_eq_some_iff.mp hgiven).1,
          hgiven], hnormal⟩
    · rw [Intake.handIn, hget] at hother hother'
      split at hother'
      · next heq' =>
          obtain rfl := Option.some.inj hother'
          rw [if_neg (heq' ▸ hlt'.ne)] at hother
          exact hnew id other hother
      · rw [if_neg ((hlt'.trans (hlt hother')).ne)] at hother
        exact h.fresh id id' other other' hlt' hother hother'

theorem InOrder.perform (h : s.InOrder) (request : Request α) : (s.perform request).InOrder := by
  cases request with
  | insert cut => exact h.handIn cut s.pool.ageLimit
  | insertWithAgeLimit cut ageLimit => exact h.handIn cut ageLimit
  | remove id => exact h.keeps (remove_keeps s.pool id)
  | age used => exact h.keeps (age_keeps s.pool used)

theorem InOrder.performAll (h : s.InOrder) (requests : List (Request α)) :
    (requests.foldl Intake.perform s).InOrder := by
  induction requests generalizing s with
  | nil => exact h
  | cons request rest ih => exact ih (h.perform request)

end Intake

/-- **Pooled cuts are in normal form and pairwise different.** Take any sequence of insertions, with
or without an age limit, removals and rounds of ageing. Every cut in the pool stems from the one
that was inserted under its identifier: it has its right-hand side, its columns in increasing
order and no zero coefficient, its columns increase strictly if the other one has no two
coefficients other than zero in the same column, and at every point with finite values both have the
same activity. No two cuts in the pool are equal in columns, coefficients and right-hand side. -/
theorem pooled_cuts_in_normal_form (ageLimit : Nat) (requests : List (Request Exact))
    (s : Intake Exact) (hs : s = requests.foldl Intake.perform (.empty ageLimit)) :
    (∀ id cut, s.pool.get? id = some cut → ∃ given, s.taken[id]? = some given ∧
      cut.rhs = given.rhs ∧
      cut.entries.Pairwise (fun x y => x.1 ≤ y.1) ∧
      (∀ e ∈ cut.entries, (e.2 == 0) = false) ∧
      (given.Separate → cut.entries.Pairwise fun x y => x.1 < y.1) ∧
      ∀ point : Array Exact, (∀ v ∈ point, ∃ q, v = number q) →
        (∀ e ∈ given.entries, e.1 < point.size) →
        Returns (given.activity point) fun v => cut.activity point = .ok v) ∧
    ∀ id id' cut cut', s.pool.get? id = some cut → s.pool.get? id' = some cut' → id ≠ id' →
      cut.equals cut' = false := by
  have horder := (Intake.empty_inOrder ageLimit).performAll requests
  rw [← hs] at horder
  constructor
  · intro id cut hcut
    obtain ⟨given, hgiven, rfl⟩ := horder.origin id cut hcut
    refine ⟨given, hgiven, rfl, given.normalized_sorted, fun e he => ?_,
      Inequality.normalized_increasing, fun point hfinite hcolumns => ?_⟩
    · exact Bool.not_eq_true' _ |>.mp (Inequality.mem_normalized.mp he).2
    · exact ⟨_, Model.activity_eq_sum hcolumns, by
        rw [Inequality.activity_normalized hcolumns hfinite]
        exact Model.activity_eq_sum hcolumns⟩
  · intro id id' cut cut' hcut hcut' hne
    refine Bool.eq_false_iff.mpr fun hequal => ?_
    have hsame := Inequality.sameAs_of_equals hequal
    obtain rfl := Inequality.eq_of_sameAs hsame
    have hfresh : cut.sameAs cut = false := by
      rcases Nat.lt_or_gt_of_ne hne with hlt | hgt
      · exact horder.fresh id id' cut cut hlt hcut hcut'
      · exact horder.fresh id' id cut cut hgt hcut' hcut
    exact Bool.false_ne_true (hfresh.symm.trans hsame)

/-- Two cuts, one of which comes twice and leaves once, and a copy that is refused. -/
def reorderedCuts : List (Request Exact) :=
  [.insert ⟨[(2, 3), (0, 0), (1, -1)], 5⟩, .insert ⟨[(1, -1), (2, 3)], 5⟩, .remove 0,
    .insertWithAgeLimit ⟨[(1, -1), (2, 3)], 5⟩ 2, .insert ⟨[(2, 3), (1, -1)], 4⟩, .age []]

theorem reordered_cuts_in_normal_form :
    ∃ s : Intake Exact, s = reorderedCuts.foldl Intake.perform (.empty 10) ∧
      s.pool.get? 0 = none ∧ s.pool.get? 1 = some ⟨[(1, -1), (2, 3)], 5⟩ ∧
      (∃ given : Inequality Exact, s.taken[2]? = some given ∧ given.entries = [(2, 3), (1, -1)] ∧
        Returns (given.activity #[7, 1, 2]) fun v =>
          (⟨[(1, -1), (2, 3)], 4⟩ : Inequality Exact).activity #[7, 1, 2] = .ok v) ∧
      (⟨[(1, -1), (2, 3)], 5⟩ : Inequality Exact).equals ⟨[(1, -1), (2, 3)], 4⟩ = false := by
  let s := reorderedCuts.foldl Intake.perform (.empty 10)
  have hfirst : s.pool.get? 1 = some ⟨[(1, -1), (2, 3)], 5⟩ := by cbv
  have hsecond : s.pool.get? 2 = some ⟨[(1, -1), (2, 3)], 4⟩ := by cbv
  have htaken : s.taken[2]? = some ⟨[(2, 3), (1, -1)], 4⟩ := by cbv
  obtain ⟨hnormal, hdifferent⟩ := pooled_cuts_in_normal_form 10 reorderedCuts s rfl
  obtain ⟨given, hgiven, -, -, -, -, hactivity⟩ := hnormal 2 _ hsecond
  obtain rfl := Option.some.inj (htaken.symm.trans hgiven)
  refine ⟨s, rfl, by cbv, hfirst, ⟨_, htaken, rfl, hactivity _ ?_ ?_⟩,
    hdifferent 1 2 _ _ hfirst hsecond (by decide)⟩
  · simp
  · simp

/-- Entries of one column are not merged: a pooled cut may name a column twice. -/
theorem repeated_column_pooled :
    ∃ s : Intake Exact, s = Intake.perform (.empty 10) (.insert ⟨[(0, 1), (0, 1)], 1⟩) ∧
      s.pool.get? 0 = some ⟨[(0, 1), (0, 1)], 1⟩ ∧
      ¬[((0 : ColumnId), (1 : Exact)), (0, 1)].Pairwise fun x y => x.1 < y.1 :=
  ⟨_, rfl, by cbv, by decide⟩

end CutPool

end BranchBound
