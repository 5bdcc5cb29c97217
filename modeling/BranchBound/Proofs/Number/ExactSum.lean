import BranchBound.Proofs.Number.Exact
import BranchBound.Proofs.Tracking
import Mathlib.Algebra.BigOperators.Group.Multiset.Basic
import Mathlib.Algebra.BigOperators.Ring.Multiset

/-!
# Exact sums

Over exact numbers a compensated sum has nothing to compensate: its second part stays zero and its
first part is the sum. A partial sum that follows the bounds is then the exact sum of its finite
terms, which makes a `Tracking` out of every range of numbers that bounds may have.
-/

namespace BranchBound

open Checked Exact

namespace CompensatedSum

/-- The sum that is a given rational. -/
def exactly (q : ℚ) : CompensatedSum Exact := ⟨number q, number 0⟩

variable (q r : ℚ)

@[simp] theorem isFinite_exactly : (exactly q).isFinite = true := rfl

@[simp] theorem ofScalar_number : ofScalar (number q) = exactly q := by
  simp [ofScalar, exactly]

@[simp] theorem zero_eq : (zero : CompensatedSum Exact) = exactly 0 := by
  simp [zero]

@[simp] theorem value_exactly : (exactly q).value = number q := by
  simp [value, exactly]

@[simp] theorem neg_exactly : (exactly q).neg = exactly (-q) := by
  simp [neg, exactly]

@[simp] theorem twoSum_number : twoSum (number q) (number r) = (number (q + r), number 0) := by
  simp [twoSum]

@[simp] theorem twoProduct_number :
    twoProduct (number q) (number r) = (number (q * r), number 0) := by
  have hround : Scalar.fusedMultiplyAdd (number q) (number r) (number (-(q * r))) =
      number (q * r + -(q * r)) := rfl
  simp [twoProduct, hround]

@[simp] theorem add_exactly : (exactly q).add (number r) = exactly (q + r) := by
  simp [add, isFinite, exactly]

@[simp] theorem sub_exactly : (exactly q).sub (number r) = exactly (q - r) := by
  simp [sub, sub_eq_add_neg]

@[simp] theorem addSum_exactly : (exactly q).addSum (exactly r) = exactly (q + r) := by
  simp [addSum, isFinite, exactly, renormalized]

@[simp] theorem subSum_exactly : (exactly q).subSum (exactly r) = exactly (q - r) := by
  simp [subSum, sub_eq_add_neg]

@[simp] theorem mul_exactly : (exactly q).mul (number r) = exactly (q * r) := by
  simp [mul, isFinite, exactly, renormalized]

@[simp] theorem product_number : product (number q) (number r) = exactly (q * r) := by
  simp [product]

variable {r} in
theorem div_exactly (hr : r ≠ 0) : (exactly q).div (number r) = exactly (q / r) := by
  simp [div, exactly, number_div hr, renormalized, div_mul_cancel₀ q hr]

section NotFinite

/-- A sum that is not finite stays so, whatever is added to it. -/
theorem isFinite_add_eq_false {y : Exact} (h : Scalar.isFinite y = false) (z : Exact) :
    Scalar.isFinite (y + z) = false := by
  cases y with
  | number q => cases h
  | plus | minus | nan => cases z <;> rfl

variable {s : CompensatedSum Exact}

theorem value_add_of_not_isFinite (h : s.isFinite = false) (a : Exact) :
    Scalar.isFinite (s.add a).value = false := by
  rw [add, h]
  simp only [Bool.not_false, Bool.or_true, if_true, value]
  exact isFinite_add_eq_false (isFinite_add_eq_false h a) 0

theorem isFinite_subSum_eq_false (h : s.isFinite = false) (t : CompensatedSum Exact) :
    (s.subSum t).isFinite = false := by
  rw [subSum, addSum, h]
  simp only [Bool.not_false, Bool.or_true, if_true]
  exact isFinite_add_eq_false h t.neg.hi

theorem isFinite_div_eq_false (h : s.isFinite = false ∨ r = 0) :
    (s.div (number r)).isFinite = false := by
  have hquotient : Scalar.isFinite (s.hi / number r) = false := by
    have hhi : s.hi = plus ∨ s.hi = minus ∨ s.hi = nan ∨ r = 0 := by
      rcases h with h | h
      · cases hs : s.hi with
        | number q => simp [isFinite, hs] at h
        | plus | minus | nan => simp
      · exact .inr (.inr (.inr h))
    rcases hhi with hs | hs | hs | rfl
    · rw [hs]
      change Scalar.isFinite (if r < 0 then minus else plus) = false
      split <;> rfl
    · rw [hs]
      change Scalar.isFinite (if r < 0 then plus else minus) = false
      split <;> rfl
    · rw [hs]
      rfl
    · cases hs : s.hi with
      | number q =>
          change Scalar.isFinite (if (0 : ℚ) = 0 then infinityOf q else number (q / 0)) = false
          rw [if_pos rfl, infinityOf]
          split
          · rfl
          · split <;> rfl
      | plus | minus | nan => rfl
  rw [div, hquotient]
  exact hquotient

end NotFinite

section Comparison

variable {q r} {v : Exact}

theorem compare?_exactly : (exactly q).compare? (exactly r) =
    some (if q < r then .lt else if r < q then .gt else .eq) := by
  rw [compare?, subSum_exactly, value_exactly, ofNat_eq, Nat.cast_zero]
  simp only [Scalar.compare?, number_lt, sub_neg, sub_pos, number_beq, decide_eq_true_eq]
  split
  · rfl
  · next hnot =>
      split
      · rfl
      · next hnot' => rw [if_pos (by linarith)]

/-- A sum that is a rational is above a number if that rational is. -/
theorem gt_ofScalar : (exactly q).gt (ofScalar v) = true ↔ v < number q := by
  cases v with
  | number k =>
      rw [ofScalar_number, gt, compare?_exactly, number_lt]
      by_cases hlt : q < k
      · simp [hlt, hlt.le]
      · by_cases hgt : k < q <;> simp [hlt, hgt]
  | plus => exact ⟨(fun h => nomatch h), (fun h => nomatch h)⟩
  | minus => exact ⟨fun _ => rfl, fun _ => rfl⟩
  | nan => exact ⟨(fun h => nomatch h), (fun h => nomatch h)⟩

/-- What is above a number by more than a tolerance is above it. -/
theorem gt_of_gt_add (hr : 0 ≤ r) (h : (exactly q).gt ((ofScalar v).add (number r)) = true) :
    (exactly q).gt (ofScalar v) = true := by
  cases v with
  | number k =>
      rw [ofScalar_number, add_exactly, ← ofScalar_number (k + r), gt_ofScalar, number_lt] at h
      rw [gt_ofScalar, number_lt]
      linarith
  | plus | minus | nan => first | rfl | cases h

/-- A sum that is a rational is not below what a number leaves of another rational only if the two
rationals together are not below the number. -/
theorem le_of_ge_subSum (h : (exactly q).ge ((ofScalar v).subSum (exactly r)) = true) :
    v ≤ number (q + r) := by
  cases v with
  | number k =>
      rw [ofScalar_number, subSum_exactly, ge, compare?_exactly] at h
      rw [number_le]
      by_cases hlt : q < k - r
      · simp [hlt] at h
      · linarith
  | plus | nan => cases h
  | minus => rfl

end Comparison

end CompensatedSum

namespace Exact

theorem sum_eq {xs : List Exact} (h : ∀ x ∈ xs, ∃ q, x = number q) :
    Scalar.sum xs = number (xs.map toRat).sum := by
  have hfold : ∀ (xs : List Exact) (start : ℚ), (∀ x ∈ xs, ∃ q, x = number q) →
      xs.foldl (· + ·) (number start) = number (start + (xs.map toRat).sum) := by
    intro xs
    induction xs with
    | nil => simp
    | cons x rest ih =>
        intro start hxs
        obtain ⟨q, rfl⟩ := hxs x (List.mem_cons_self ..)
        rw [List.foldl_cons, number_add, ih _ fun y hy => hxs y (List.mem_cons_of_mem _ hy)]
        simp [add_assoc]
  have hzero : (Scalar.negativeZero : Exact) = number 0 := by simp [Scalar.negativeZero]
  rw [Scalar.sum, hzero, hfold xs 0 h, zero_add]

theorem min_zero_eq (q : ℚ) : Scalar.min (number q) 0 = number (min q 0) := by
  have hdecide : Scalar.min (number q) 0 = if number 0 < number q then number 0 else number q := by
    rw [ofNat_eq]
    rfl
  rw [hdecide]
  by_cases h : 0 < q
  · rw [if_pos (number_lt.mpr h), min_eq_right h.le]
  · rw [if_neg (fun hlt => h (number_lt.mp hlt)), min_eq_left (not_lt.mp h)]

/-- Numbers that bounds may have: none of them is not a number. -/
structure Range where
  holds : Exact → Prop
  not_nan : ∀ v, holds v → v ≠ nan
  zero : holds 0

/-- All numbers. -/
def Range.any : Range where
  holds v := v ≠ nan
  not_nan _ h := h
  zero := by simp

/-- A whole number or an infinity. -/
def IsWhole (v : Exact) : Prop := v = plus ∨ v = minus ∨ ∃ z : ℤ, v = number z

/-- The whole numbers and the infinities. -/
def Range.whole : Range where
  holds := IsWhole
  not_nan := by
    rintro v (rfl | rfl | ⟨z, rfl⟩) <;> simp
  zero := .inr (.inr ⟨0, by simp⟩)

end Exact

/-- The exact sum of the finite ones among some terms. -/
def finiteSum (terms : Multiset (Exact × Exact)) : ℚ :=
  (terms.map fun t => t.1.toRat * t.2.toRat).sum

/-- The exact sum of some constants. -/
def constantSum (constants : Multiset Exact) : ℚ := (constants.map toRat).sum

theorem finiteSum_cons (t : Exact × Exact) (terms : Multiset (Exact × Exact)) :
    finiteSum (t ::ₘ terms) = t.1.toRat * t.2.toRat + finiteSum terms := by
  simp [finiteSum]

theorem constantSum_cons (k : Exact) (constants : Multiset Exact) :
    constantSum (k ::ₘ constants) = k.toRat + constantSum constants := by
  simp [constantSum]

/-- A term with an infinite bound adds nothing to the finite terms. -/
theorem toRat_of_isInfinite {v : Exact} (h : Scalar.isInfinite v = true) : v.toRat = 0 := by
  rcases isInfinite_iff.mp h with rfl | rfl <;> rfl

namespace PartialSum

/-- A partial sum is the exact sum of some terms and constants. -/
structure Exactly (s : PartialSum Exact) (terms : Multiset (Exact × Exact))
    (constants : Multiset Exact) : Prop where
  infinite : s.infinite = infiniteTerms terms
  finite : s.finite = .exactly (finiteSum terms + constantSum constants)

variable {s s' : PartialSum Exact} {terms : Multiset (Exact × Exact)} {constants : Multiset Exact}

theorem Exactly.addTerm {q : ℚ} {b : Exact} (hb : b ≠ nan) (h : s.Exactly terms constants) :
    (s.addTerm (number q) b).Exactly ((number q, b) ::ₘ terms) constants := by
  unfold PartialSum.addTerm
  cases hinfinite : Scalar.isInfinite b with
  | true =>
      refine ⟨?_, ?_⟩
      · simp [infiniteTerms_cons, hinfinite, h.infinite]
      · simp [finiteSum_cons, toRat_of_isInfinite hinfinite, h.finite]
  | false =>
      obtain ⟨r, rfl⟩ := exists_number_of_finite hb hinfinite
      refine ⟨?_, ?_⟩
      · simp [infiniteTerms_cons, h.infinite]
      · simp only [Bool.false_eq_true, if_false, h.finite, CompensatedSum.product_number,
          CompensatedSum.addSum_exactly, finiteSum_cons, toRat_number]
        congr 1
        ring

/-- The finite part of a sum follows a term that moves. -/
theorem moveTerm_finite {q : ℚ} {old new : Exact} (hold : old ≠ nan) (hnew : new ≠ nan)
    (h : s.Exactly ((number q, old) ::ₘ terms) constants)
    (hmove : s.moveTerm (number q) old new = .ok s') :
    s'.finite = .exactly (finiteSum ((number q, new) ::ₘ terms) + constantSum constants) := by
  have hfinite := h.finite
  rw [finiteSum_cons] at hfinite ⊢
  unfold PartialSum.moveTerm at hmove
  cases hio : Scalar.isInfinite old with
  | true =>
      rw [toRat_of_isInfinite hio] at hfinite
      cases hin : Scalar.isInfinite new with
      | true =>
          simp only [hio, hin, Except.ok.injEq] at hmove
          rw [toRat_of_isInfinite hin, ← hmove, hfinite]
      | false =>
          obtain ⟨r, rfl⟩ := exists_number_of_finite hnew hin
          simp only [hio, hin, bind_eq_ok, pure_eq_ok] at hmove
          obtain ⟨_, -, rfl⟩ := hmove
          simp only [hfinite, CompensatedSum.product_number, CompensatedSum.addSum_exactly,
            toRat_number]
          congr 1
          ring
  | false =>
      obtain ⟨r, rfl⟩ := exists_number_of_finite hold hio
      cases hin : Scalar.isInfinite new with
      | true =>
          simp only [hio, hin, Except.ok.injEq] at hmove
          subst hmove
          simp only [hfinite, CompensatedSum.product_number, CompensatedSum.subSum_exactly,
            toRat_number, toRat_of_isInfinite hin]
          congr 1
          ring
      | false =>
          obtain ⟨t, rfl⟩ := exists_number_of_finite hnew hin
          simp only [hio, hin, Except.ok.injEq] at hmove
          subst hmove
          simp only [hfinite, CompensatedSum.product_number, CompensatedSum.addSum_exactly,
            CompensatedSum.subSum_exactly, toRat_number]
          congr 1
          ring

end PartialSum

/-- Over exact numbers a sum that follows the bounds is the exact sum. -/
def Tracking.exact (R : Range) : Tracking Exact where
  coefficient a := ∃ q, a = number q
  value := R.holds
  constant k := ∃ q, k = number q
  tracks := PartialSum.Exactly
  zero := ⟨rfl, by simp [PartialSum.zero, finiteSum, constantSum]⟩
  addTerm := by
    rintro s terms constants _ b ⟨q, rfl⟩ hb h
    exact h.addTerm (R.not_nan b hb)
  moveTerm := by
    rintro s terms constants _ old new ⟨q, rfl⟩ hold hnew h
    exact (moveTerm_infinite h.infinite).mono fun s' hs' hinfinite =>
      ⟨hinfinite, PartialSum.moveTerm_finite (R.not_nan old hold) (R.not_nan new hnew) h hs'⟩
  same := by
    intro s terms constants a old new _ _ hsame h
    rw [bne, Bool.not_eq_false'] at hsame
    obtain ⟨rfl, -⟩ := equal_iff.mp hsame
    exact h
  addConstant := by
    rintro s terms constants _ ⟨q, rfl⟩ h
    refine ⟨h.infinite, ?_⟩
    simp only [h.finite, CompensatedSum.add_exactly, constantSum_cons, toRat_number]
    congr 1
    ring
  moveConstant := by
    rintro s terms constants _ _ ⟨q, rfl⟩ ⟨r, rfl⟩ h
    refine ⟨h.infinite, ?_⟩
    simp only [h.finite, CompensatedSum.sub_exactly, CompensatedSum.add_exactly, constantSum_cons,
      toRat_number]
    congr 1
    ring
  zero_value := R.zero
  zero_constant := ⟨0, by simp⟩
  min_constant := by
    rintro _ ⟨q, rfl⟩
    exact ⟨_, min_zero_eq q⟩
  sum_constant := fun h => ⟨_, sum_eq h⟩

end BranchBound
