import BranchBound.Implication.Probing
import BranchBound.Proofs.VariableBound.Accepted

/-!
# Replacing a column in variable bounds

The bounds of a column are restated when the column is replaced by a multiple of itself plus a
constant. In exact arithmetic the restated bounds say of a value what the old ones said of the value
it stands for, also when a negative scale turns upper bounds into lower ones, and two replacements
in a row leave the bounds that the composed one leaves. A bound over the replaced column is not
restated, so what it says of the binary column is only kept where no bound is over the replaced
column.
-/

namespace BranchBound

open Checked Exact

variable {n : Nat} {c : ColumnId} {k k' s s' : ℚ}

/-- The side that a side comes from when a column is replaced by `s` times itself plus a
constant. -/
def Side.turned (side : Side) (s : ℚ) : Side := if s < 0 then side.opposite else side

namespace Side

theorem turned_of_pos (side : Side) (hs : 0 < s) : side.turned s = side :=
  if_neg (not_lt.mpr hs.le)

theorem turned_of_neg (side : Side) (hs : s < 0) : side.turned s = side.opposite := if_pos hs

theorem turned_turned (side : Side) (s : ℚ) : (side.turned s).turned s = side := by
  unfold turned
  split <;> cases side <;> rfl

theorem turned_mul (side : Side) (hs : s ≠ 0) (hs' : s' ≠ 0) :
    side.turned (s * s') = (side.turned s').turned s := by
  rcases lt_or_gt_of_ne hs with hneg | hpos
  · rcases lt_or_gt_of_ne hs' with hneg' | hpos'
    · rw [turned_of_pos _ (mul_pos_of_neg_of_neg hneg hneg'), turned_of_neg _ hneg',
        turned_of_neg _ hneg]
      cases side <;> rfl
    · rw [turned_of_neg _ (mul_neg_of_neg_of_pos hneg hpos'), turned_of_pos _ hpos',
        turned_of_neg _ hneg]
  · rcases lt_or_gt_of_ne hs' with hneg' | hpos'
    · rw [turned_of_neg _ (mul_neg_of_pos_of_neg hpos hneg'), turned_of_neg _ hneg',
        turned_of_pos _ hpos]
    · rw [turned_of_pos _ (mul_pos hpos hpos'), turned_of_pos _ hpos', turned_of_pos _ hpos]

end Side

namespace Assignment

variable {a : Assignment}

/-- The values before a column was replaced: it was `s` times what it is now, plus `k`. -/
def unreplaced (a : Assignment) (c : ColumnId) (s k : ℚ) : Assignment :=
  Function.update a c (s * a c + k)

@[simp] theorem unreplaced_self (a : Assignment) (c : ColumnId) (s k : ℚ) :
    a.unreplaced c s k c = s * a c + k := Function.update_self ..

@[simp] theorem unreplaced_of_ne (a : Assignment) {x : ColumnId} (hx : x ≠ c) (s k : ℚ) :
    a.unreplaced c s k x = a x := Function.update_of_ne hx ..

/-- A restated value bounds a column as the value did before the column was replaced. -/
theorem holds_restated (hs : s ≠ 0) (a : Assignment) (c : ColumnId) (side : Side) (v : Exact) :
    a.reading.Holds ⟨c, side, (v - number k) / number s⟩ ↔
      (a.unreplaced c s k).reading.Holds ⟨c, side.turned s, v⟩ := by
  rcases lt_or_gt_of_ne hs with hneg | hpos
  · rw [Side.turned_of_neg _ hneg]
    cases v with
    | number q =>
        rw [restate_number hs]
        cases side with
        | lower =>
            simp only [reading, Side.opposite, number_le, unreplaced_self, div_le_iff_of_neg hneg]
            constructor <;> intro h <;> linarith
        | upper =>
            simp only [reading, Side.opposite, number_le, unreplaced_self, le_div_iff_of_neg hneg]
            constructor <;> intro h <;> linarith
    | plus =>
        rw [restate_plus, if_pos hneg]
        cases side <;> exact Iff.rfl
    | minus =>
        rw [restate_minus, if_pos hneg]
        cases side <;> exact Iff.rfl
    | nan => cases side <;> exact Iff.rfl
  · rw [Side.turned_of_pos _ hpos]
    cases v with
    | number q =>
        rw [restate_number hs]
        cases side with
        | lower =>
            simp only [reading, number_le, unreplaced_self, div_le_iff₀ hpos]
            constructor <;> intro h <;> linarith
        | upper =>
            simp only [reading, number_le, unreplaced_self, le_div_iff₀ hpos]
            constructor <;> intro h <;> linarith
    | plus =>
        rw [restate_plus, if_neg (not_lt.mpr hpos.le)]
        cases side <;> exact Iff.rfl
    | minus =>
        rw [restate_minus, if_neg (not_lt.mpr hpos.le)]
        cases side <;> exact Iff.rfl
    | nan => cases side <;> exact Iff.rfl

end Assignment

namespace VariableBounds

variable {t t' : VariableBounds Exact}

/-- What restating the bounds of a column comes to. -/
structure Transformed (t t' : VariableBounds Exact) (c : ColumnId) (s k : ℚ) : Prop where
  restated : ∀ side, t'.lines side c = (t.lines (side.turned s) c).map
    fun line => (line.1, restated (number s) (number k) line.2)
  others : ∀ side x, x ≠ c → t'.lines side x = t.lines side x
  under : ∀ y, t'.under y = t.under y

theorem Sized.transformed (h : t.Sized n) (hc : c < n) (s k : ℚ) :
    Returns (t.transform c (number s) (number k)) fun t' => t'.Sized n ∧
    t.Transformed t' c s k := by
  obtain ⟨t', hrun, hlines, hunder⟩ := h.transform_returns hc (number s) (number k)
  have hzero : number s < 0 ↔ s < 0 := by rw [ofNat_eq, number_lt, Nat.cast_zero]
  refine ⟨t', hrun, h.transform hrun, ⟨fun side => ?_, fun side x hx => ?_, hunder⟩⟩
  · rw [hlines, if_pos rfl, if_congr hzero rfl rfl]
    rfl
  · rw [hlines, if_neg hx]

/-- The bounded columns satisfy the restated bounds as the values they stand for satisfied the old
ones, whatever the values of the binary columns. -/
theorem Transformed.holdsBetween (h : t.Transformed t' c s k) (hs : s ≠ 0)
    (bounded binary : Assignment) :
    t'.HoldsBetween bounded binary ↔ t.HoldsBetween (bounded.unreplaced c s k) binary := by
  have hline (b : VariableBound Exact) (y : ColumnId) (side : Side) :
      bounded.reading.Holds
          ⟨c, side, (VariableBounds.restated (number s) (number k) b).valueAt (binary y)⟩ ↔
        (bounded.unreplaced c s k).reading.Holds ⟨c, side.turned s, b.valueAt (binary y)⟩ := by
    rw [VariableBound.valueAt_restated hs]
    exact Assignment.holds_restated hs ..
  constructor
  · intro hholds side x y b hmem
    by_cases hx : x = c
    · subst hx
      -- the list of a side is restated on the side which it is turned to
      have hnew : (y, VariableBounds.restated (number s) (number k) b) ∈
          t'.lines (side.turned s) x := by
        rw [h.restated, Side.turned_turned]
        exact List.mem_map.mpr ⟨(y, b), hmem, rfl⟩
      have hold := (hline b y (side.turned s)).mp (hholds _ x y _ hnew)
      rwa [Side.turned_turned] at hold
    · have hnew : (y, b) ∈ t'.lines side x := by
        rw [h.others side x hx]
        exact hmem
      exact (Assignment.holds_congr (Assignment.unreplaced_of_ne _ hx s k)).mpr
        (hholds side x y b hnew)
  · intro hholds side x y b hmem
    by_cases hx : x = c
    · subst hx
      rw [h.restated] at hmem
      obtain ⟨⟨y', b'⟩, hold, heq⟩ := List.mem_map.mp hmem
      cases heq
      exact (hline b' y' side).mpr (hholds _ x y' b' hold)
    · rw [h.others side x hx] at hmem
      exact (Assignment.holds_congr (Assignment.unreplaced_of_ne _ hx s k)).mp
        (hholds side x y b hmem)

/-- Where no bound is over a column, its value does not matter as that of a binary column. -/
theorem HoldsBetween.unreplaced_binary (hfree : ∀ side x b, (c, b) ∉ t.lines side x)
    (bounded binary : Assignment) :
    t.HoldsBetween bounded (binary.unreplaced c s k) ↔ t.HoldsBetween bounded binary := by
  have hvalue {side : Side} {x y : ColumnId} {b : VariableBound Exact}
      (hmem : (y, b) ∈ t.lines side x) : binary.unreplaced c s k y = binary y := by
    apply Assignment.unreplaced_of_ne
    rintro rfl
    exact hfree side x b hmem
  constructor
  · intro h side x y b hmem
    exact hvalue hmem ▸ h side x y b hmem
  · intro h side x y b hmem
    rw [hvalue hmem]
    exact h side x y b hmem

/-- A table is determined by its bounds and by what is listed under the binary columns. -/
theorem Sized.ext (h : t.Sized n) (h' : t'.Sized n) (hlines : ∀ side x, t.lines side x =
    t'.lines side x)
    (hunder : ∀ y, t.under y = t'.under y) : t = t' := by
  have hside (side : Side) : t.onSide side = t'.onSide side := by
    apply Array.ext_getElem?
    intro x
    by_cases hx : x < n
    · rw [h.getElem?_side side hx, h'.getElem?_side side hx, hlines]
    · have hge := Nat.le_of_not_lt hx
      rw [Array.getElem?_eq_none (h.sides side ▸ hge), Array.getElem?_eq_none (h'.sides side ▸ hge)]
  have hbounded : t.boundedBy = t'.boundedBy := by
    apply Array.ext_getElem?
    intro y
    by_cases hy : y < n
    · rw [h.getElem?_boundedBy hy, h'.getElem?_boundedBy hy, hunder]
    · have hge := Nat.le_of_not_lt hy
      rw [Array.getElem?_eq_none (h.binaries ▸ hge), Array.getElem?_eq_none (h'.binaries ▸ hge)]
  obtain ⟨upper, lower, boundedBy⟩ := t
  obtain ⟨upper', lower', boundedBy'⟩ := t'
  have hupper : upper = upper' := hside .upper
  have hlower : lower = lower' := hside .lower
  cases hbounded
  rw [hupper, hlower]

/-- Restating a line twice is restating it for the composed replacement. -/
theorem restated_restated (hs : s ≠ 0) (hs' : s' ≠ 0) (b : VariableBound Exact) :
    restated (number s') (number k') (restated (number s) (number k) b) =
      restated (number (s * s')) (number (s * k' + k)) b := by
  have hconstant : ((b.constant - number k) / number s - number k') / number s' =
      (b.constant - number (s * k' + k)) / number (s * s') := by
    have hk : number k' = number (s * k' / s) := by rw [mul_div_cancel_left₀ _ hs]
    rw [hk, ← sub_div_number hs, sub_sub_number, div_div_number hs hs', add_comm k]
  unfold restated
  rw [div_div_number hs hs', hconstant]

/-- Two replacements in a row come to the composed one. -/
theorem Transformed.trans {t'' : VariableBounds Exact} (h : t.Transformed t' c s k)
    (h' : t'.Transformed t'' c s' k') (hs : s ≠ 0) (hs' : s' ≠ 0) :
    t.Transformed t'' c (s * s') (s * k' + k) where
  restated := by
    intro side
    rw [h'.restated, h.restated, List.map_map, Side.turned_mul side hs hs']
    apply List.map_congr_left
    intro line _
    exact congrArg (line.1, ·) (restated_restated hs hs' line.2)
  others := by
    intro side x hx
    rw [h'.others side x hx, h.others side x hx]
  under := by
    intro y
    rw [h'.under, h.under]

/-- There is one table that restating the bounds of a column comes to. -/
theorem Transformed.unique {t'' : VariableBounds Exact} (h : t.Transformed t' c s k)
    (h' : t.Transformed t'' c s k) (ht' : t'.Sized n) (ht'' : t''.Sized n) : t' = t'' := by
  apply ht'.ext ht''
  · intro side x
    by_cases hx : x = c
    · rw [hx, h.restated, h'.restated]
    · rw [h.others side x hx, h'.others side x hx]
  · intro y
    rw [h.under, h'.under]

end VariableBounds

namespace Implications

open VariableBounds

variable {i : Implications Exact}

/-- A transformation restates the bounds and forgets the consequences that are known. -/
theorem transform_finish {α : Type} [Scalar α] {scale constant : α} {i : Implications α}
    {t : VariableBounds α} (h : i.bounds.transform c scale constant = .ok t) :
    (transform c scale constant).finish i = .ok ((), ⟨t, []⟩) := by
  apply Action.finish_eq_ok.mpr
  apply Action.perform_bind_eq_ok.mpr
  refine ⟨(), { i with bounds := t }, ?_, rfl⟩
  exact Action.perform_within_eq_ok.mpr ⟨t, Action.perform_change_eq_ok.mpr h, rfl⟩

/-- What a transformation of a column does to the points that satisfy the bounds. The bounded
columns are read at one assignment and the binary ones at another one; where no bound is over the
column, these can be the same. Two transformations in a row do what the composed one does. -/
theorem transform_restates (hsized : i.bounds.Sized n) (hc : c < n) (hs : s ≠ 0) (k : ℚ) :
    Returns ((transform c (number s) (number k)).finish i) fun r =>
      r.2.known = [] ∧
      (∀ bounded binary, r.2.bounds.HoldsBetween bounded binary ↔
        i.bounds.HoldsBetween (bounded.unreplaced c s k) binary) ∧
      ((∀ side x b, (c, b) ∉ i.bounds.lines side x) →
        ∀ a, r.2.bounds.SatisfiedBy a ↔ i.bounds.SatisfiedBy (a.unreplaced c s k)) ∧
      ∀ s' k', s' ≠ 0 → (transform c (number s') (number k')).finish r.2 =
        (transform c (number (s * s')) (number (s * k' + k))).finish i := by
  obtain ⟨t, hrun, ht, htransformed⟩ := hsized.transformed hc s k
  refine ⟨((), ⟨t, []⟩), transform_finish hrun, rfl, htransformed.holdsBetween hs,
    fun hfree a => ?_, fun s' k' hs' => ?_⟩
  · calc t.SatisfiedBy a
        ↔ i.bounds.HoldsBetween (a.unreplaced c s k) a := htransformed.holdsBetween hs a a
      _ ↔ i.bounds.SatisfiedBy (a.unreplaced c s k) :=
        (HoldsBetween.unreplaced_binary hfree _ a).symm
  · obtain ⟨u, hu, husized, htwice⟩ := ht.transformed hc s' k'
    obtain ⟨v, hv, hvsized, honce⟩ := hsized.transformed hc (s * s') (s * k' + k)
    have hsame : u = v := (htransformed.trans htwice hs hs').unique honce husized hvsized
    rw [transform_finish (i := ⟨t, []⟩) hu, transform_finish hv, hsame]

/-! ### A bounded column is negated, and a binary column is complemented -/

/-- Two columns, of which the second one is bounded by `x ≤ 6 y + 2` over the first one. -/
def lineOverFirst : VariableBounds Exact := ⟨#[[], [(0, ⟨6, 2⟩)]], #[[], []], #[[1], []]⟩

theorem record_lineOverFirst :
    (VariableBounds.record .upper 1 0 ⟨6, 2⟩).finish (VariableBounds.empty 2) =
      .ok (true, lineOverFirst) := rfl

theorem lineOverFirst_sized : lineOverFirst.Sized 2 := sized_empty.record record_lineOverFirst

theorem mem_lineOverFirst {side : Side} {x y : ColumnId} {b : VariableBound Exact} :
    (y, b) ∈ lineOverFirst.lines side x ↔ side = .upper ∧ x = 1 ∧ y = 0 ∧ b = ⟨6, 2⟩ := by
  cases side <;> match x with
  | 0 | 1 | x + 2 => simp [lines, onSide, lineOverFirst]

/-- With `x = -2 x' + 4` the bound becomes `x' ≥ -3 y + 1`. -/
theorem negated_column_restated :
    Returns ((transform 1 (number (-2)) (number 4)).finish ⟨lineOverFirst, []⟩) fun r =>
      r.2.bounds.lines .upper 1 = [] ∧ r.2.bounds.lines .lower 1 = [(0, ⟨-3, 1⟩)] ∧
      ∀ a, r.2.bounds.SatisfiedBy a ↔ lineOverFirst.SatisfiedBy (a.unreplaced 1 (-2) 4) := by
  have hrun : passes ((transform 1 (number (-2)) (number 4)).finish ⟨lineOverFirst, []⟩) (fun r =>
      decide (r.2.bounds.lines .upper 1 = [] ∧ r.2.bounds.lines .lower 1 = [(0, ⟨-3, 1⟩)])) =
        true := by
    decide +kernel
  obtain ⟨r, hr, hlines⟩ := passes_eq_true.mp hrun
  obtain ⟨hupper, hlower⟩ := of_decide_eq_true hlines
  have hrestates := (transform_restates (i := ⟨lineOverFirst, []⟩) lineOverFirst_sized
    (show 1 < 2 by decide) (show (-2 : ℚ) ≠ 0 by decide) 4).of_eq_ok hr
  refine ⟨r, hr, hupper, hlower, hrestates.2.2.1 fun side x b hmem => ?_⟩
  exact absurd (mem_lineOverFirst.mp hmem).2.2.1 (by decide)

/-- With `y = -y' + 1` the bound ought to become `x ≤ -6 y' + 8`. It stays as it is, so at `y' = 1`
it allows `x = 8`, where the old bound at `y = 0` does not. -/
theorem complemented_binary_not_restated : ∃ r : Implications Exact, ∃ a : Assignment,
    (transform 0 (number (-1)) (number 1)).finish ⟨lineOverFirst, []⟩ = .ok ((), r) ∧
    a 0 = 1 ∧ r.bounds.SatisfiedBy a ∧ ¬lineOverFirst.SatisfiedBy (a.unreplaced 0 (-1) 1) := by
  let a : Assignment := fun c => if c = 0 then 1 else 8
  obtain ⟨t, ht, -, htransformed⟩ :=
    lineOverFirst_sized.transformed (show 0 < 2 by decide) (-1 : ℚ) 1
  refine ⟨⟨t, []⟩, a, transform_finish ht, rfl, fun side x y b hmem => ?_, fun hall => ?_⟩
  · by_cases hx : x = 0
    · subst hx
      rw [htransformed.restated] at hmem
      obtain ⟨line, hline, -⟩ := List.mem_map.mp hmem
      exact absurd (mem_lineOverFirst.mp hline).2.1 (by decide)
    · rw [htransformed.others side x hx] at hmem
      obtain ⟨rfl, rfl, rfl, rfl⟩ := mem_lineOverFirst.mp hmem
      change number 8 ≤ (⟨6, 2⟩ : VariableBound Exact).valueAt 1
      decide +kernel
  · have hline := hall .upper 1 0 ⟨6, 2⟩ (mem_lineOverFirst.mpr ⟨rfl, rfl, rfl, rfl⟩)
    have hvalue : ¬number 8 ≤ (⟨6, 2⟩ : VariableBound Exact).valueAt (-1 * 1 + 1) := by
      decide +kernel
    change number (a.unreplaced 0 (-1) 1 1) ≤
      (⟨6, 2⟩ : VariableBound Exact).valueAt (a.unreplaced 0 (-1) 1 0) at hline
    rw [Assignment.unreplaced_self, Assignment.unreplaced_of_ne a (by decide)] at hline
    exact hvalue hline

end Implications

end BranchBound
