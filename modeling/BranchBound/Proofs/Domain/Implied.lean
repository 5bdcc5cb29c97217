import BranchBound.Domain.ImpliedBound
import BranchBound.Proofs.Assignment
import BranchBound.Proofs.Domain.Coherence

/-!
# Implied bounds keep the points of a box

A bound of an integer column that follows from `Σ a x ≤ rhs` is rounded to a whole number. Over
exact numbers every point of the box that satisfies the inequality satisfies the implied bound as
well, however many columns repeat and whatever the tolerance is.
-/

namespace BranchBound

open Checked Exact

/-- Every column is an integer column. -/
def Model.AllInteger (m : Model Exact) : Prop :=
  ∀ (c : ColumnId) column, m.columns[c]? = some column → column.kind = .integer

/-- The whole number to which a value for a bound is rounded. -/
def Side.rounded (side : Side) (q : ℚ) : ℤ :=
  match side with
  | .lower => ⌈q⌉
  | .upper => ⌊q⌋

namespace Domain

variable {d : Domain Exact} {side : Side} {c : ColumnId} {bound : CompensatedSum Exact}
  {change : BoundChange Exact}

/-- A rounded value that is worth a change is a whole number. -/
theorem number_of_worthwhile {v : Exact} {f : ℚ} (hf : 0 < f) {gap : Exact}
    (hworth : 1000 * number f * Scalar.max (Scalar.abs v) 1 < gap) (hnan : v ≠ nan) :
    ∃ q, v = number q := by
  have hinfinite : ∀ w : Exact, Scalar.abs w = plus → ¬1000 * number f * Scalar.max
      (Scalar.abs w) 1 < gap := by
    intro w hw hlt
    have hmax : Scalar.max plus (1 : Exact) = plus := rfl
    have hprod : (1000 : Exact) * number f * plus = plus := by
      rw [ofNat_eq, number_mul]
      change infinityOf (_ * f) = plus
      rw [infinityOf, if_pos]
      simpa using hf
    rw [hw, hmax, hprod] at hlt
    cases gap <;> cases hlt
  cases v with
  | number q => exact ⟨q, rfl⟩
  | plus => exact absurd hworth (hinfinite plus rfl)
  | minus => exact absurd hworth (hinfinite minus rfl)
  | nan => exact absurd rfl hnan

theorem floor_eq_number {v : Exact} {q : ℚ} (h : Scalar.floor v = number q) :
    ∃ r, v = number r ∧ q = (⌊r⌋ : ℚ) := by
  cases v with
  | number r => exact ⟨r, rfl, (Exact.number.inj h).symm⟩
  | plus | minus | nan => cases h

theorem ceil_eq_number {v : Exact} {q : ℚ} (h : Scalar.ceil v = number q) :
    ∃ r, v = number r ∧ q = (⌈r⌉ : ℚ) := by
  cases v with
  | number r => exact ⟨r, rfl, (Exact.number.inj h).symm⟩
  | plus | minus | nan => cases h

/-- What is accepted for a bound of an integer column: a whole number that is tighter than the
bound, rounded from the value relaxed by the tolerance. -/
structure Accepted (d : Domain Exact) (side : Side) (c : ColumnId) (bound : CompensatedSum Exact)
    (change : BoundChange Exact) : Prop where
  column : change.column = c
  side_eq : change.side = side
  tighter : side.tighter change.value (d.values side c) = true
  value : ∃ q : ℚ, change.value = number (side.rounded q) ∧
    (match side with
      | .lower => bound.sub d.feastol
      | .upper => bound.add d.feastol).value = number q

theorem boundValue_eq_ok {v : Exact} (h : d.boundValue side c = .ok v) : v = d.values side c := by
  simp only [boundValue, Domain.bound, bind_eq_ok, fetch_eq_ok, pure_eq_ok] at h
  obtain ⟨b, hb, rfl⟩ := h
  exact (values_eq hb).symm

theorem acceptedBound_accepted (hinteger : d.model.AllInteger) {f : ℚ}
    (hfeastol : d.feastol = number f) (hf : 0 < f)
    (h : d.acceptedBound side c bound = .ok (some change)) :
    d.Accepted side c bound change := by
  simp only [acceptedBound, bind_eq_ok, pure_eq_ok] at h
  obtain ⟨upper, hupper, lower, hlower, column, hcolumn, h⟩ := h
  obtain rfl := boundValue_eq_ok hupper
  obtain rfl := boundValue_eq_ok hlower
  rw [hinteger c column (fetch_eq_ok.mp hcolumn)] at h
  obtain ⟨v, hv, rfl⟩ := Option.map_eq_some_iff.mp h
  cases side with
  | lower =>
      simp only [acceptedLower] at hv
      split at hv
      · next hworth =>
          simp only [Bool.and_eq_true, decide_eq_true_eq, hfeastol] at hworth
          have hvalue := Option.some.inj hv
          rw [hfeastol] at hvalue
          rw [hvalue] at hworth
          obtain ⟨q, rfl⟩ := number_of_worthwhile hf hworth.2
            (not_nan_of_le (Exact.le_of_lt hworth.1)).2
          obtain ⟨r, hr, rfl⟩ := ceil_eq_number hvalue
          exact ⟨rfl, rfl, by simpa [Side.tighter] using hworth.1, r, rfl, hfeastol ▸ hr⟩
      · cases hv
  | upper =>
      simp only [acceptedUpper] at hv
      split at hv
      · next hworth =>
          simp only [Bool.and_eq_true, decide_eq_true_eq, hfeastol] at hworth
          have hvalue := Option.some.inj hv
          rw [hfeastol] at hvalue
          rw [hvalue] at hworth
          obtain ⟨q, rfl⟩ := number_of_worthwhile hf hworth.2
            (not_nan_of_le (Exact.le_of_lt hworth.1)).1
          obtain ⟨r, hr, rfl⟩ := floor_eq_number hvalue
          exact ⟨rfl, rfl, by simpa [Side.tighter] using hworth.1, r, rfl, hfeastol ▸ hr⟩
      · cases hv

namespace Accepted

theorem isFinite (h : d.Accepted side c bound change) : bound.isFinite = true := by
  obtain ⟨q, -, hvalue⟩ := h.value
  by_contra hnot
  rw [Bool.not_eq_true] at hnot
  cases side with
  | lower =>
      have hnone := CompensatedSum.value_add_of_not_isFinite hnot (-d.feastol)
      change (bound.add (-d.feastol)).value = number q at hvalue
      rw [hvalue] at hnone
      cases hnone
  | upper =>
      have hnone := CompensatedSum.value_add_of_not_isFinite hnot d.feastol
      rw [hvalue] at hnone
      cases hnone

/-- A point that satisfies the implied bound satisfies the accepted one, since its values are
whole. -/
theorem holdsAt {r f : ℚ} {x : Point} (h : d.Accepted side c (.exactly r) change)
    (hfeastol : d.feastol = number f) (hf : 0 < f)
    (hx : (⟨c, side, number r⟩ : BoundChange Exact).HoldsAt x) :
    change.HoldsAt x := by
  obtain ⟨q, hvalue, hq⟩ := h.value
  obtain ⟨c', side', v⟩ := change
  obtain rfl : c' = c := h.column
  obtain rfl : side' = side := h.side_eq
  obtain rfl : v = _ := hvalue
  cases side' with
  | lower =>
      rw [hfeastol, CompensatedSum.sub_exactly, CompensatedSum.value_exactly] at hq
      obtain rfl := Exact.number.inj hq
      refine number_le.mpr (Int.cast_le.mpr (Int.ceil_le.mpr ?_))
      have hr : r ≤ (x c' : ℚ) := number_le.mp hx
      linarith
  | upper =>
      rw [hfeastol, CompensatedSum.add_exactly, CompensatedSum.value_exactly] at hq
      obtain rfl := Exact.number.inj hq
      refine number_le.mpr (Int.cast_le.mpr (Int.le_floor.mpr ?_))
      have hr : (x c' : ℚ) ≤ r := number_le.mp hx
      linarith

end Accepted

section Linear

variable {x : Point} {f : ℚ} {K : Multiset Exact} {s : PartialSum Exact} {items : BoundedEntries}
  {item : (ColumnId × Exact) × Exact}

/-- The residual of an item is the exact sum of the other terms, all of which are finite. -/
theorem residual?_eq {q : ℚ} {c : ColumnId} {b : Exact} {residual : CompensatedSum Exact}
    (hs : s.Exactly (BoundedEntries.terms (((c, number q), b) ::ₘ items)) K) (hb : b ≠ nan)
    (h : residual? s (number q) b = some residual) :
    infiniteTerms items.terms = 0 ∧
      residual = .exactly (finiteSum items.terms + constantSum K) := by
  have hterms : BoundedEntries.terms (((c, number q), b) ::ₘ items) =
      (number q, b) ::ₘ items.terms := Multiset.map_cons ..
  have hinfinite := hs.infinite
  have hfinite := hs.finite
  rw [hterms, infiniteTerms_cons] at hinfinite
  rw [hterms, finiteSum_cons] at hfinite
  unfold residual? at h
  cases hkind : Scalar.isInfinite b with
  | true =>
      simp only [hkind, if_true] at h hinfinite
      rw [toRat_of_isInfinite hkind, mul_zero, zero_add] at hfinite
      split at h
      · next hone =>
          rw [beq_iff_eq] at hone
          exact ⟨by omega, (Option.some.inj h).symm.trans hfinite⟩
      · cases h
  | false =>
      obtain ⟨r, rfl⟩ := exists_number_of_finite hb hkind
      simp only [isInfinite_number, Bool.false_eq_true, if_false] at h hinfinite
      split at h
      · next hzero =>
          rw [beq_iff_eq] at hzero
          refine ⟨by omega, (Option.some.inj h).symm.trans ?_⟩
          rw [hfinite, CompensatedSum.product_number, CompensatedSum.subSum_exactly]
          congr 1
          simp only [toRat_number]
          ring
      · cases h

/-- The change that `Σ a x ≤ rhs` implies for one of its entries holds at every point that satisfies
the inequality and the bounds of the other entries. Some constants may be part of the left-hand
side. -/
theorem impliedChange_holdsAt (hinteger : d.model.AllInteger) (hfeastol : d.feastol = number f)
    (hf : 0 < f) (hs : s.Exactly items.terms K)
    (hterms : ∀ others, items = item ::ₘ others → ∀ i ∈ others, Scalar.isInfinite i.2 = false →
      i.1.2.toRat * i.2.toRat ≤ i.1.2.toRat * (x i.1.1 : ℚ))
    (hitem : item ∈ items) (hnumber : ∃ q, item.1.2 = number q) (hnan : item.2 ≠ nan)
    (hbound : item.1.2 ≠ number 0 → item.2 = d.values (minSide item.1.2) item.1.1) {rhs : Exact}
    (hrhs : number (dot (items.map Prod.fst) x + constantSum K) ≤ rhs)
    (h : d.impliedChange rhs s item.1 = .ok (some change)) :
    change.HoldsAt x := by
  obtain ⟨⟨c, a⟩, b⟩ := item
  obtain ⟨q, rfl⟩ : ∃ q, a = number q := hnumber
  obtain ⟨others, rfl⟩ := Multiset.exists_cons_of_mem hitem
  simp only [impliedChange, bind_eq_ok] at h
  obtain ⟨v, hv, h⟩ := h
  have hv' : v = d.values (minSide (number q)) c := boundValue_eq_ok hv
  split at h
  · cases h
  · next residual hresidual =>
      have haccepted := acceptedBound_accepted hinteger hfeastol hf h
      have hfinite := haccepted.isFinite
      have hq : q ≠ 0 := fun hzero => by
        rw [CompensatedSum.isFinite_div_eq_false _ (.inr hzero)] at hfinite
        cases hfinite
      obtain rfl : b = v := (hbound fun hzero => hq (Exact.number.inj hzero)).trans hv'.symm
      obtain ⟨hnone, rfl⟩ := residual?_eq hs hnan hresidual
      have hrest : finiteSum (BoundedEntries.terms others) ≤ dot (others.map Prod.fst) x :=
        BoundedEntries.finiteSum_le (a := x.assignment) fun i hi => hterms others rfl i hi
          (BoundedEntries.finite_of_infiniteTerms_eq_zero hnone i hi)
      rw [Multiset.map_cons, dot_cons, toRat_number] at hrhs
      cases rhs with
      | number r =>
          rw [number_le] at hrhs
          rw [CompensatedSum.ofScalar_number, CompensatedSum.subSum_exactly,
            CompensatedSum.div_exactly _ hq] at haccepted
          refine haccepted.holdsAt hfeastol hf ?_
          by_cases hpositive : 0 < q
          · have hside : (0 : Exact) < number q := by simpa using hpositive
            rw [if_pos hside]
            refine number_le.mpr ((le_div_iff₀ hpositive).mpr ?_)
            linarith
          · have hside : ¬(0 : Exact) < number q := by simpa using hpositive
            rw [if_neg hside]
            have hnegative : q < 0 := lt_of_le_of_ne (not_lt.mp hpositive) hq
            refine number_le.mpr ((div_le_iff_of_neg hnegative).mpr ?_)
            linarith
      | plus =>
          have hnot := CompensatedSum.isFinite_subSum_eq_false (s := .ofScalar plus) rfl
            (.exactly (finiteSum (BoundedEntries.terms others) + constantSum K))
          rw [CompensatedSum.isFinite_div_eq_false _ (.inl hnot)] at hfinite
          cases hfinite
      | minus | nan => cases hrhs

end Linear

end Domain

end BranchBound
