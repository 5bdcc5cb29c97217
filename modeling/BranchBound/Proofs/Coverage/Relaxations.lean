import BranchBound.Proofs.Coverage.NodeWork

/-!
# Relaxations that keep their contract

Two relaxations for which the contract can be proved. One forgets the rows: then every column sits
at the bound where it costs least, and since the bounds are whole numbers the answer is a point of
the box. The other one gives the same answer for every box, so it keeps whatever contract this
answer keeps.
-/

namespace BranchBound

open Checked Exact

variable {m : Model Exact} {d : Domain Exact} {f : ℚ} {x y : Point}

/-- The value of a point is at most that of another one if no term is greater. -/
theorem dot_le_dot {entries : Multiset (ColumnId × Exact)}
    (h : ∀ e ∈ entries, e.2.toRat * (x e.1 : ℚ) ≤ e.2.toRat * (y e.1 : ℚ)) :
    dot entries x ≤ dot entries y :=
  Multiset.sum_map_le_sum_map _ _ h

namespace Model

theorem mem_costEntries {e : ColumnId × Exact} (he : e ∈ m.costEntries) :
    ∃ column, m.columns[e.1]? = some column ∧ e.2 = column.cost := by
  obtain ⟨⟨cost, c⟩, hmem, rfl⟩ := List.mem_map.mp he
  have hget := List.mem_zipIdx_iff_getElem?.mp hmem
  simp only [Array.getElem?_toList, Array.getElem?_map, Option.map_eq_some_iff] at hget
  obtain ⟨column, hcolumn, rfl⟩ := hget
  exact ⟨column, hcolumn, rfl⟩

/-- The costs and the offset of a model are numbers. -/
structure Priced (m : Model Exact) : Prop where
  costs : ∀ (c : ColumnId) column, m.columns[c]? = some column → ∃ q, column.cost = number q
  offset : ∃ q, m.offset = number q

theorem Priced.of_build {draft : Draft Exact} (h : draft.build = .ok m)
    (hoffset : ∃ q, m.offset = number q) : m.Priced :=
  ⟨fun _ _ hcolumn => (Draft.checkedColumn_of_build h hcolumn).cost, hoffset⟩

/-- A point where no column costs more than at another one has no greater objective value. -/
theorem Priced.valueAt_le (hm : m.Priced)
    (h : ∀ (c : ColumnId) column q, m.columns[c]? = some column → column.cost = number q →
      q * (x c : ℚ) ≤ q * (y c : ℚ)) : m.valueAt x ≤ m.valueAt y := by
  obtain ⟨offset, hoffset⟩ := hm.offset
  rw [valueAt_eq hoffset hm.costs, valueAt_eq hoffset hm.costs, number_le]
  refine add_le_add le_rfl (dot_le_dot fun e he => ?_)
  obtain ⟨column, hcolumn, hcost⟩ := mem_costEntries he
  obtain ⟨q, hq⟩ := hm.costs _ _ hcolumn
  rw [hcost, hq, toRat_number]
  exact h _ _ _ hcolumn hq

end Model

/-! ### Without rows -/

namespace Domain

/-- The bound of a column where it costs least. -/
def cheapestBound (d : Domain Exact) (c : Fin d.model.columns.size) : Exact :=
  d.values (if d.model.columns[c].cost < 0 then .upper else .lower) c

/-- Every column at its cheapest bound, if the box has points and the bounds are finite. -/
def cheapest (d : Domain Exact) : RelaxationResult Exact :=
  let values := Array.ofFn d.cheapestBound
  if ∃ c : Fin d.model.columns.size, d.values .upper c < d.values .lower c then .infeasible none
  else if values.any Scalar.isInfinite then .unbounded
  else .optimal ⟨values, d.model.objectiveValue values, none, 0⟩

variable {c : Fin d.model.columns.size}

theorem cheapestBound_within (hnumber : ∀ side, d.values side c ≠ nan)
    (hordered : d.values .lower c ≤ d.values .upper c) :
    d.values .lower c ≤ d.cheapestBound c ∧ d.cheapestBound c ≤ d.values .upper c := by
  unfold cheapestBound
  split_ifs
  · exact ⟨hordered, Exact.le_refl (hnumber _)⟩
  · exact ⟨Exact.le_refl (hnumber _), hordered⟩

/-- No value within the bounds of a column costs less than the cheapest bound. -/
theorem cheapestBound_least {q : ℚ} {k : ℤ} (hcost : d.model.columns[c].cost = number q)
    (hk : d.cheapestBound c = number k) (hbox : d.values.Contains d.model.columns.size x) :
    q * (k : ℚ) ≤ q * (x c : ℚ) := by
  have hlower : d.values .lower c ≤ number (x c : ℚ) := hbox .lower c c.isLt
  have hupper : number (x c : ℚ) ≤ d.values .upper c := hbox .upper c c.isLt
  have hsign : d.model.columns[c].cost < 0 ↔ q < 0 := by
    rw [hcost, ofNat_eq, number_lt, Nat.cast_zero]
  simp only [cheapestBound, hsign] at hk
  split_ifs at hk with hnegative
  · rw [hk, number_le] at hupper
    exact mul_le_mul_of_nonpos_left hupper hnegative.le
  · rw [hk, number_le] at hlower
    exact mul_le_mul_of_nonneg_left hlower (not_lt.mp hnegative)

/-- The answer of the relaxation without rows is a point of the box that costs least. -/
theorem cheapest_tells (hm : d.model.Priced) (hf : f < 1)
    (hwhole : ∀ side c, IsWhole (d.values side c)) :
    d.cheapest.Tells d.model f d := by
  have hnumber (side c) : d.values side c ≠ nan := Range.whole.not_nan _ (hwhole side c)
  unfold cheapest
  dsimp only
  split_ifs with hcrossed hinfinite
  · obtain ⟨c, hc⟩ := hcrossed
    refine ⟨fun x _ hbox => Exact.not_le_of_lt hc ?_, nofun⟩
    exact Exact.le_trans (hbox .lower c c.isLt) (hbox .upper c c.isLt)
  · trivial
  have hordered (c : Fin d.model.columns.size) : d.values .lower c ≤ d.values .upper c :=
    Exact.le_of_not_lt (hnumber _ _) (hnumber _ _) fun h => hcrossed ⟨c, h⟩
  have hfinite (c : Fin d.model.columns.size) : ∃ k : ℤ, d.cheapestBound c = number k := by
    have hbound : Scalar.isInfinite (d.cheapestBound c) ≠ true := fun h =>
      hinfinite (Array.any_eq_true.mpr ⟨c, by simp, by simpa using h⟩)
    rcases hwhole (if d.model.columns[c].cost < 0 then .upper else .lower) c with h | h | h
    · exact absurd (isInfinite_iff.mpr (.inl h)) hbound
    · exact absurd (isInfinite_iff.mpr (.inr h)) hbound
    · exact h
  choose k hk using hfinite
  -- The answer is the point that is zero beyond the columns.
  let y : Point := fun c => if hc : c < d.model.columns.size then k ⟨c, hc⟩ else 0
  have hy : Array.ofFn d.cheapestBound = y.values d.model.columns.size := by
    simp [Point.values, y, ← hk]
  have hget {c : ColumnId} (hc : c < d.model.columns.size) :
      (y.values d.model.columns.size)[c]? = some (number (k ⟨c, hc⟩)) := by
    rw [← hy, Array.getElem?_ofFn, dif_pos hc, hk]
  rw [hy]
  exact
    { integral := fun c column q z hcolumn _ hvalue hnear => by
        obtain ⟨hc, -⟩ := Array.getElem?_eq_some_iff.mp hcolumn
        obtain rfl : (k ⟨c, hc⟩ : ℚ) = q :=
          number.inj (Option.some.inj ((hget hc).symm.trans hvalue))
        have hlt : |k ⟨c, hc⟩ - z| < 1 := by exact_mod_cast lt_of_le_of_lt hnear hf
        exact_mod_cast sub_eq_zero.mp (Int.abs_lt_one_iff.mp hlt)
      objective := rfl
      least := fun x _ hbox => hm.valueAt_le fun c column q hcolumn hcost => by
        obtain ⟨hc, rfl⟩ := Array.getElem?_eq_some_iff.mp hcolumn
        simp only [y, dif_pos hc]
        exact cheapestBound_least hcost (hk ⟨c, hc⟩) hbox
      size := Array.size_ofFn ..
      inBox := fun c hc => ⟨_, hget hc,
        hk ⟨c, hc⟩ ▸ cheapestBound_within (fun _ => hnumber _ _) (hordered ⟨c, hc⟩)⟩ }

end Domain

/-- The relaxation without rows of a number of columns. -/
structure CheapestBounds where
  columnCount : Nat

namespace CheapestBounds

instance : Relaxation CheapestBounds Exact where
  columnCount := columnCount
  resolve r d := (.ok d.cheapest, r)
  fork r := (r, r)
  recover r := (false, r)
  addCuts r _ := r
  setBasis r _ := r

theorem keepContract (hm : m.Priced) (hf : f < 1) :
    KeepContract (RelaxationSolution.Bounds m f) m fun _ : CheapestBounds => True where
  resolve := by
    rintro r d - rfl hwhole
    refine ⟨trivial, fun result hresult => ?_⟩
    cases hresult
    exact Domain.cheapest_tells hm hf hwhole
  fork _ _ := ⟨trivial, trivial⟩
  recover _ _ := trivial
  setBasis _ _ _ := trivial

end CheapestBounds

/-! ### One answer -/

/-- A relaxation with one answer for all boxes. -/
structure OneAnswer where
  columnCount : Nat
  answer : RelaxationResult Exact

namespace OneAnswer

instance : Relaxation OneAnswer Exact where
  columnCount := columnCount
  resolve r _ := (.ok r.answer, r)
  fork r := (r, r)
  recover r := (false, r)
  addCuts r _ := r
  setBasis r _ := r

theorem keepContract {Allowed : Domain Exact → RelaxationSolution Exact → Prop}
    {answer : RelaxationResult Exact} (h : ∀ d, d.model = m → answer.Complies (Allowed d) m d) :
    KeepContract Allowed m fun r : OneAnswer => r.answer = answer where
  resolve := by
    rintro r d rfl hmodel -
    refine ⟨rfl, fun result hresult => ?_⟩
    cases hresult
    exact h d hmodel
  fork _ hr := ⟨hr, hr⟩
  recover _ hr := hr
  setBasis _ _ hr := hr

end OneAnswer

end BranchBound
