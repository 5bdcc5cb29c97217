import BranchBound.Domain.Tightening
import BranchBound.Proofs.Assignment
import BranchBound.Proofs.Domain.BoundLog
import BranchBound.Proofs.Domain.Resumption

/-!
# Tightened coefficients

All coefficients are compared with one number, by which the inequality can be violated over the
global box. The box has the same largest violation after each reduction. A point at which the column
of a reduced coefficient is not at its bound has at least this much to spare, before and after; at
all other points every reduction moves both sides of the inequality by the same amount. So the
points of the global box with whole values in the integer columns are the same for the whole chain
of reductions, wherever in the tree they are made.
-/

namespace BranchBound

open Checked Exact

/-- The coefficients are numbers and belong to columns of a model. -/
def Inequality.Over (i : Inequality Exact) (m : Model Exact) : Prop :=
  ∀ e ∈ i.entries, e.1 < m.columns.size ∧ ∃ q, e.2 = number q

/-- The bounds that make the terms of entries large are numbers. -/
def BoundValues.BoundsAbove (β : BoundValues Exact) (entries : List (ColumnId × Exact)) : Prop :=
  ∀ e ∈ entries, ∃ r, β (maxSide e.2) e.1 = number r

/-- The value of `Σ a x` with every column at the bound that makes its term large. -/
def BoundValues.maxTotal (β : BoundValues Exact) (entries : List (ColumnId × Exact)) : ℚ :=
  (entries.map fun e => e.2.toRat * (β (maxSide e.2) e.1).toRat).sum

variable {m : Model Exact} {β : BoundValues Exact} {limit b b' : ℚ} {a : Assignment}
  {entries entries' : List (ColumnId × Exact)}

@[simp] theorem BoundValues.maxTotal_cons (β : BoundValues Exact) (e : ColumnId × Exact)
    (entries : List (ColumnId × Exact)) :
    β.maxTotal (e :: entries) =
      e.2.toRat * (β (maxSide e.2) e.1).toRat + β.maxTotal entries := by
  simp [maxTotal]

/-- A term whose column has a value within its bounds and whose largest value is finite. -/
structure Assignment.BoundsTerm (a : Assignment) (β : BoundValues Exact) (e : ColumnId × Exact) :
    Prop where
  coefficient : ∃ q, e.2 = number q
  inside : ∀ side, a.reading.Holds ⟨e.1, side, β side e.1⟩
  bound : ∃ r, β (maxSide e.2) e.1 = number r

/-- A term at the bound that makes it large is not below the term at the point. -/
theorem Assignment.BoundsTerm.le_maxTerm {e : ColumnId × Exact} (h : a.BoundsTerm β e) :
    e.2.toRat * a e.1 ≤ e.2.toRat * (β (maxSide e.2) e.1).toRat := by
  obtain ⟨r, hr⟩ := h.bound
  exact Assignment.le_maxTerm h.coefficient (h.inside _) (by rw [hr]; rfl)

theorem Assignment.total_le_maxTotal (h : ∀ e ∈ entries, a.BoundsTerm β e) :
    a.total (entries : List (ColumnId × Exact)) ≤ β.maxTotal entries := by
  induction entries with
  | nil => exact le_refl _
  | cons e rest ih =>
      rw [List.forall_mem_cons] at h
      rw [total_coe_cons, BoundValues.maxTotal_cons]
      exact add_le_add h.1.le_maxTerm (ih h.2)

/-- A coefficient above a limit in absolute value, and the limit with its sign. -/
def Capped (limit q q' : ℚ) : Prop := limit < q ∧ q' = limit ∨ q < -limit ∧ q' = -limit

namespace Capped

variable {q q' r : ℚ} {c : ColumnId} (h : Capped limit q q') (hlimit : 0 < limit)

include h hlimit

theorem maxSide_eq : maxSide (number q') = maxSide (number q) := by
  rw [maxSide_number, maxSide_number]
  rcases h with ⟨hq, rfl⟩ | ⟨hq, rfl⟩
  · rw [if_pos hlimit, if_pos (hlimit.trans hq)]
  · rw [if_neg (by linarith), if_neg (by linarith)]

theorem ne_zero : q' ≠ 0 := by
  rcases h with ⟨-, rfl⟩ | ⟨-, rfl⟩
  · exact hlimit.ne'
  · exact neg_ne_zero.mpr hlimit.ne'

theorem old_ne_zero : q ≠ 0 := by
  rcases h with ⟨hq, -⟩ | ⟨hq, -⟩
  · exact (hlimit.trans hq).ne'
  · exact (hq.trans (neg_neg_of_pos hlimit)).ne

/-- If a column has a whole value which is not that of the whole bound that makes its term large,
then the term is below its largest value by at least the limit, with either coefficient. -/
theorem spare (hheld : a.reading.Holds ⟨c, maxSide (number q), number r⟩)
    (hpoint : ∃ k : ℤ, a c = k) (hbound : IsWhole (number r)) (hne : a c ≠ r) :
    limit ≤ q * r - q * a c ∧ limit ≤ q' * r - q' * a c := by
  obtain ⟨k, hk⟩ := hpoint
  obtain ⟨z, rfl⟩ : ∃ z : ℤ, r = z := by
    rcases hbound with hplus | hminus | ⟨z, hz⟩
    · cases hplus
    · cases hminus
    · exact ⟨z, number.inj hz⟩
  rw [hk] at hne ⊢
  rw [maxSide_number] at hheld
  rcases h with ⟨hq, rfl⟩ | ⟨hq, rfl⟩
  · rw [if_pos (hlimit.trans hq)] at hheld
    have hle : (k : ℚ) ≤ z := hk ▸ number_le.mp hheld
    have hone : (k : ℚ) + 1 ≤ z := by
      have hlt : k < z := lt_of_le_of_ne (by exact_mod_cast hle) (by exact_mod_cast hne)
      exact_mod_cast Int.add_one_le_iff.mpr hlt
    constructor <;> nlinarith
  · rw [if_neg (by linarith)] at hheld
    have hle : (z : ℚ) ≤ k := hk ▸ number_le.mp hheld
    have hone : (z : ℚ) + 1 ≤ k := by
      have hlt : z < k := lt_of_le_of_ne (by exact_mod_cast hle) (by exact_mod_cast hne.symm)
      exact_mod_cast Int.add_one_le_iff.mpr hlt
    constructor <;> nlinarith

end Capped

/-- The coefficients of integer columns above a limit are reduced to it one after the other,
together with the right-hand side. -/
inductive Reduces (m : Model Exact) (β : BoundValues Exact) (limit : ℚ) :
    List (ColumnId × Exact) → ℚ → List (ColumnId × Exact) → ℚ → Prop
  | nil {b : ℚ} : Reduces m β limit [] b [] b
  | keep {entries entries' : List (ColumnId × Exact)} {b b' : ℚ} (e : ColumnId × Exact)
      (h : Reduces m β limit entries b entries' b') :
      Reduces m β limit (e :: entries) b (e :: entries') b'
  | reduce {entries entries' : List (ColumnId × Exact)} {b b' q q' r : ℚ} {c : ColumnId}
      (hc : m.isInteger c = .ok true) (hbound : β (maxSide (number q)) c = number r)
      (hcapped : Capped limit q q') (h : Reduces m β limit entries (b - (q - q') * r) entries' b') :
      Reduces m β limit ((c, number q) :: entries) b ((c, number q') :: entries') b'

namespace Reduces

/-- The largest violation over the box stays what it was. -/
theorem maxTotal_sub (h : Reduces m β limit entries b entries' b') (hlimit : 0 < limit) :
    β.maxTotal entries' - b' = β.maxTotal entries - b := by
  induction h with
  | nil => rfl
  | keep e _ ih =>
      simp only [BoundValues.maxTotal_cons]
      linarith
  | reduce _ hbound hcapped _ ih =>
      simp only [BoundValues.maxTotal_cons, hcapped.maxSide_eq hlimit, hbound, toRat_number]
      linarith

/-- No coefficient vanishes, and none appears. -/
theorem nonzero_iff (h : Reduces m β limit entries b entries' b') (hlimit : 0 < limit) :
    (∃ e ∈ entries', e.2 ≠ 0) ↔ ∃ e ∈ entries, e.2 ≠ 0 := by
  have hnumber {q : ℚ} (hq : q ≠ 0) : number q ≠ 0 := fun h =>
    hq (number.inj (h.trans (by rw [ofNat_eq, Nat.cast_zero])))
  induction h with
  | nil => exact Iff.rfl
  | keep e _ ih =>
      rw [List.exists_mem_cons_iff, List.exists_mem_cons_iff]
      exact or_congr_right ih
  | reduce _ _ hcapped _ _ =>
      exact iff_of_true ⟨_, List.mem_cons_self .., hnumber (hcapped.ne_zero hlimit)⟩
        ⟨_, List.mem_cons_self .., hnumber (hcapped.old_ne_zero hlimit)⟩

theorem boundsTerm (h : Reduces m β limit entries b entries' b') (hlimit : 0 < limit)
    (hterms : ∀ e ∈ entries, a.BoundsTerm β e) : ∀ e ∈ entries', a.BoundsTerm β e := by
  induction h with
  | nil => exact hterms
  | keep e _ ih =>
      rw [List.forall_mem_cons] at hterms ⊢
      exact ⟨hterms.1, ih hterms.2⟩
  | @reduce _ _ _ _ q q' r c _ hbound hcapped _ ih =>
      rw [List.forall_mem_cons] at hterms ⊢
      refine ⟨⟨⟨q', rfl⟩, hterms.1.inside, r, ?_⟩, ih hterms.2⟩
      rw [hcapped.maxSide_eq hlimit]
      exact hbound

/-- At a point of the box with whole values in the integer columns, a chain of reductions moves both
sides by the same amount, or there is at least the limit to spare on either end of the chain. -/
theorem at_point (h : Reduces m β limit entries b entries' b') (hlimit : 0 < limit)
    (hwhole : ∀ c, m.isInteger c = .ok true → ∀ side, IsWhole (β side c))
    (hpoint : ∀ c, m.isInteger c = .ok true → ∃ k : ℤ, a c = k)
    (hterms : ∀ e ∈ entries, a.BoundsTerm β e) :
    a.total (entries' : List (ColumnId × Exact)) - b' =
        a.total (entries : List (ColumnId × Exact)) - b ∨
      limit ≤ β.maxTotal entries - a.total (entries : List (ColumnId × Exact)) ∧
        limit ≤ β.maxTotal entries' - a.total (entries' : List (ColumnId × Exact)) := by
  induction h with
  | nil => exact .inl rfl
  | keep e hrest ih =>
      rw [List.forall_mem_cons] at hterms
      have hterm := hterms.1.le_maxTerm
      simp only [Assignment.total_coe_cons, BoundValues.maxTotal_cons]
      rcases ih hterms.2 with hsame | ⟨hspare, hspare'⟩
      · left
        linarith
      · right
        constructor <;> linarith
  | @reduce _ _ _ _ q q' r c hc hbound hcapped hrest ih =>
      rw [List.forall_mem_cons] at hterms
      simp only [Assignment.total_coe_cons, BoundValues.maxTotal_cons, hcapped.maxSide_eq hlimit,
        hbound, toRat_number]
      by_cases hat : a c = r
      · rw [hat]
        rcases ih hterms.2 with hsame | ⟨hspare, hspare'⟩
        · left
          linarith
        · right
          constructor <;> linarith
      · -- This column alone has enough to spare, and no other one exceeds its largest term.
        have hheld : a.reading.Holds ⟨c, maxSide (number q), β (maxSide (number q)) c⟩ :=
          hterms.1.inside _
        rw [hbound] at hheld
        have hone := hcapped.spare hlimit hheld (hpoint c hc) (hbound ▸ hwhole c hc _) hat
        have hall := Assignment.total_le_maxTotal hterms.2
        have hall' := Assignment.total_le_maxTotal (hrest.boundsTerm hlimit hterms.2)
        right
        constructor
        · linarith [hone.1]
        · linarith [hone.2]

/-- If the limit is the largest violation, the reduced inequality holds at the same points. -/
theorem le_iff (h : Reduces m β limit entries b entries' b') (hlimit : 0 < limit)
    (hmax : limit = β.maxTotal entries - b)
    (hwhole : ∀ c, m.isInteger c = .ok true → ∀ side, IsWhole (β side c))
    (hpoint : ∀ c, m.isInteger c = .ok true → ∃ k : ℤ, a c = k)
    (hterms : ∀ e ∈ entries, a.BoundsTerm β e) :
    a.total (entries' : List (ColumnId × Exact)) ≤ b' ↔
      a.total (entries : List (ColumnId × Exact)) ≤ b := by
  have hmax' := h.maxTotal_sub hlimit
  rcases h.at_point hlimit hwhole hpoint hterms with hsame | ⟨hspare, hspare'⟩
  · constructor <;> intro hle <;> linarith
  · exact ⟨fun _ => by linarith, fun _ => by linarith⟩

end Reduces

namespace Domain

variable {d : Domain Exact} {i : Inequality Exact}

theorem side_eq_maxSide (q : ℚ) :
    (if (0 : Exact) < number q then Side.upper else Side.lower) = maxSide (number q) := by
  rw [maxSide_number]
  simp

/-- A sum with an operand that is not a number is not one either. -/
theorem addSum_nan {s t : CompensatedSum Exact} (h : s.hi = nan ∨ t.hi = nan) :
    s.addSum t = ⟨nan, 0⟩ := by
  obtain ⟨x, x'⟩ := s
  obtain ⟨y, y'⟩ := t
  have hsum : x + y = nan := by
    rcases h with rfl | rfl
    · rfl
    · cases x <;> rfl
  have hinfinite : (!Scalar.isFinite y || !Scalar.isFinite x) = true := by
    rcases h with rfl | rfl
    · exact Bool.or_true _
    · rfl
  simp only [CompensatedSum.addSum, CompensatedSum.isFinite, hinfinite, hsum, if_true]

theorem globalMaxActivity?_nan {t : CompensatedSum Exact}
    (h : d.globalMaxActivity? ⟨nan, 0⟩ entries = .ok (some t)) : t = ⟨nan, 0⟩ := by
  induction entries with
  | nil => exact (Option.some.inj (Except.ok.inj h)).symm
  | cons e rest ih =>
      simp only [globalMaxActivity?, bind_eq_ok] at h
      obtain ⟨bound, -, h⟩ := h
      split at h
      · cases pure_eq_ok.mp h
      · rw [addSum_nan (.inl rfl)] at h
        exact ih h

section Values

variable (hvalue : ∀ side c, c < m.columns.size → d.globalValue side c = .ok (β side c))

include hvalue

/-- The maximal activity is exact, unless one of the bounds is not a number. -/
theorem globalMaxActivity?_eq_ok {q : ℚ} {t : CompensatedSum Exact}
    (hentries : ∀ e ∈ entries, e.1 < m.columns.size ∧ ∃ q, e.2 = number q)
    (h : d.globalMaxActivity? (.exactly q) entries = .ok (some t)) :
    (t = .exactly (q + β.maxTotal entries) ∧ β.BoundsAbove entries) ∨ t = ⟨nan, 0⟩ := by
  induction entries generalizing q with
  | nil =>
      obtain rfl := Option.some.inj (Except.ok.inj h)
      left
      simp [BoundValues.maxTotal, BoundValues.BoundsAbove]
  | cons e rest ih =>
      obtain ⟨c, v⟩ := e
      rw [List.forall_mem_cons] at hentries
      obtain ⟨⟨hc, p, hp⟩, hrest⟩ := hentries
      dsimp only at hc hp
      subst hp
      simp only [globalMaxActivity?, side_eq_maxSide, hvalue _ _ hc, ok_bind] at h
      split at h
      · cases pure_eq_ok.mp h
      · next hfinite =>
          by_cases hnan : β (maxSide (number p)) c = nan
          · right
            rw [hnan, addSum_nan (.inr rfl)] at h
            exact globalMaxActivity?_nan h
          · obtain ⟨r, hr⟩ := exists_number_of_finite hnan (Bool.eq_false_iff.mpr hfinite)
            rw [hr, CompensatedSum.product_number, CompensatedSum.addSum_exactly] at h
            rcases ih hrest h with ⟨rfl, habove⟩ | hnan
            · left
              refine ⟨?_, List.forall_mem_cons.mpr ⟨⟨r, hr⟩, habove⟩⟩
              simp only [BoundValues.maxTotal_cons, hr, toRat_number, add_assoc]
            · exact .inr hnan

/-- What reducing coefficients does where the bounds that are needed are finite. -/
theorem reduceCoefficients_eq_ok {n : Nat} {t : CompensatedSum Exact} (hmodel : d.model = m)
    (hlimit : 0 < limit) (hentries : ∀ e ∈ entries, e.1 < m.columns.size ∧ ∃ q, e.2 = number q)
    (habove : β.BoundsAbove entries)
    (h : d.reduceCoefficients (number limit) (.exactly b) entries = .ok (n, entries', t)) :
    ∃ b', t = .exactly b' ∧ Reduces m β limit entries b entries' b' ∧
      (n = 0 → entries' = entries ∧ b' = b) := by
  induction entries generalizing b n entries' t with
  | nil =>
      cases h
      exact ⟨b, rfl, .nil, fun _ => ⟨rfl, rfl⟩⟩
  | cons e rest ih =>
      obtain ⟨c, v⟩ := e
      rw [List.forall_mem_cons] at hentries
      obtain ⟨⟨hc, q, hq⟩, hrest⟩ := hentries
      dsimp only at hc hq
      subst hq
      obtain ⟨⟨r, hr⟩, habove⟩ := List.forall_mem_cons.mp habove
      have hkeep {t : CompensatedSum Exact} {entries' : List (ColumnId × Exact)} {n : Nat}
          (h : d.reduceCoefficients (number limit) (.exactly b) rest = .ok (n, entries', t)) :
          ∃ b', t = .exactly b' ∧
            Reduces m β limit ((c, number q) :: rest) b ((c, number q) :: entries') b' ∧
            (n = 0 → (c, number q) :: entries' = (c, number q) :: rest ∧ b' = b) := by
        obtain ⟨b', ht, hreduces, hnone⟩ := ih hrest habove h
        exact ⟨b', ht, .keep _ hreduces, fun hn => ⟨by rw [(hnone hn).1], (hnone hn).2⟩⟩
      have hcap {q' : ℚ} {t : CompensatedSum Exact} {entries' : List (ColumnId × Exact)} {n : Nat}
          (hintegral : m.isInteger c = .ok true) (hcapped : Capped limit q q')
          (h : d.reduceCoefficients (number limit) (.exactly (b - (q - q') * r)) rest =
            .ok (n, entries', t)) :
          ∃ b', t = .exactly b' ∧
            Reduces m β limit ((c, number q) :: rest) b ((c, number q') :: entries') b' := by
        obtain ⟨b', ht, hreduces, -⟩ := ih hrest habove h
        exact ⟨b', ht, .reduce hintegral hr hcapped hreduces⟩
      simp only [reduceCoefficients, hmodel, bind_eq_ok] at h
      obtain ⟨integral, hintegral, h⟩ := h
      cases integral with
      | false =>
          simp only [Bool.not_false, if_true, bind_eq_ok, pure_eq_ok, Prod.mk.injEq] at h
          obtain ⟨⟨n', rest', t'⟩, h, rfl, rfl, rfl⟩ := h
          exact hkeep h
      | true =>
          simp only [Bool.not_true, Bool.false_eq_true, if_false] at h
          split at h
          · next hq =>
              have hside : maxSide (number q) = .upper := by
                rw [maxSide_number, if_pos (hlimit.trans (number_lt.mp hq))]
              rw [hside] at hr
              simp only [hvalue _ _ hc, hr, ok_bind, number_sub, CompensatedSum.product_number,
                CompensatedSum.subSum_exactly, bind_eq_ok, pure_eq_ok, Prod.mk.injEq] at h
              obtain ⟨⟨n', rest', t'⟩, h, rfl, rfl, rfl⟩ := h
              obtain ⟨b', ht, hreduces⟩ := hcap hintegral (.inl ⟨number_lt.mp hq, rfl⟩) h
              exact ⟨b', ht, hreduces, fun hn => absurd hn (Nat.succ_ne_zero _)⟩
          · split at h
            · next hq =>
                rw [neg_number, number_lt] at hq
                have hside : maxSide (number q) = .lower := by
                  rw [maxSide_number, if_neg (by linarith)]
                rw [hside] at hr
                have hshift : b + (-q - limit) * r = b - (q - -limit) * r := by ring
                simp only [hvalue _ _ hc, hr, ok_bind, neg_number, number_sub,
                  CompensatedSum.product_number, CompensatedSum.addSum_exactly, hshift, bind_eq_ok,
                  pure_eq_ok, Prod.mk.injEq] at h
                obtain ⟨⟨n', rest', t'⟩, h, rfl, rfl, rfl⟩ := h
                obtain ⟨b', ht, hreduces⟩ := hcap hintegral (.inr ⟨hq, rfl⟩) h
                exact ⟨b', ht, hreduces, fun hn => absurd hn (Nat.succ_ne_zero _)⟩
            · simp only [bind_eq_ok, pure_eq_ok, Prod.mk.injEq] at h
              obtain ⟨⟨n', rest', t'⟩, h, rfl, rfl, rfl⟩ := h
              exact hkeep h

end Values

/-- No coefficient is above a limit that is infinite or not a number. -/
theorem reduceCoefficients_unlimited {v : Exact} {n : Nat} {t t' : CompensatedSum Exact}
    (hv : v = plus ∨ v = nan) (hentries : ∀ e ∈ entries, ∃ q, e.2 = number q)
    (h : d.reduceCoefficients v t entries = .ok (n, entries', t')) :
    n = 0 ∧ entries' = entries := by
  induction entries generalizing n entries' t' with
  | nil =>
      cases h
      exact ⟨rfl, rfl⟩
  | cons e rest ih =>
      obtain ⟨c, w⟩ := e
      obtain ⟨⟨q, hq⟩, hrest⟩ := List.forall_mem_cons.mp hentries
      dsimp only at hq
      subst hq
      have habove : ¬v < number q := by
        rcases hv with rfl | rfl <;> exact Bool.false_ne_true
      have hbelow : ¬number q < -v := by
        rcases hv with rfl | rfl <;> exact Bool.false_ne_true
      simp only [reduceCoefficients, habove, hbelow, if_false, ite_self, bind_eq_ok, pure_eq_ok,
        Prod.mk.injEq] at h
      obtain ⟨_, -, ⟨n', rest', t''⟩, h, rfl, rfl, rfl⟩ := h
      obtain ⟨rfl, rfl⟩ := ih hrest h
      exact ⟨rfl, rfl⟩

theorem value_sub_exactly (q : ℚ) (rhs : Exact) :
    (∃ b, rhs = number b ∧ ((CompensatedSum.exactly q).sub rhs).value = number (q - b)) ∨
      ((CompensatedSum.exactly q).sub rhs).value = minus ∨
      ((CompensatedSum.exactly q).sub rhs).value = plus ∨
      ((CompensatedSum.exactly q).sub rhs).value = nan := by
  cases rhs with
  | number b =>
      exact .inl ⟨b, rfl, by rw [CompensatedSum.sub_exactly, CompensatedSum.value_exactly]⟩
  | plus => exact .inr (.inl rfl)
  | minus => exact .inr (.inr (.inl rfl))
  | nan => exact .inr (.inr (.inr rfl))

theorem value_sub_nan (rhs : Exact) :
    ((⟨nan, 0⟩ : CompensatedSum Exact).sub rhs).value = nan := by
  cases rhs <;> rfl

/-- A number above a tolerance that is not negative is positive. -/
theorem pos_of_not_le {v : Exact} {q : ℚ} (hv : 0 ≤ v) (h : ¬number q ≤ v) : 0 < q := by
  by_contra hq
  refine h (Exact.le_trans ?_ hv)
  rw [ofNat_eq, Nat.cast_zero]
  exact number_le.mpr (not_lt.mp hq)

theorem minus_le {v : Exact} (hv : 0 ≤ v) : minus ≤ v := by
  cases v with
  | nan => exact absurd rfl (not_nan_of_le hv).2
  | _ => rfl

/-- Tightening leaves an inequality alone, or it reduces the coefficients above the number by which
the inequality can be violated. -/
theorem tighten_eq_ok (hmodel : d.model = m)
    (hvalue : ∀ side c, c < m.columns.size → d.globalValue side c = .ok (β side c))
    (hfeastol : 0 ≤ d.feastol) (hi : i.Over m) {r : Nat × Inequality Exact}
    (h : d.tighten i = .ok r) :
    r.2 = i ∨ ∃ b limit entries' b', i.rhs = number b ∧ 0 < limit ∧
      limit = β.maxTotal i.entries - b ∧ β.BoundsAbove i.entries ∧
      Reduces m β limit i.entries b entries' b' ∧ r.2 = ⟨entries', number b'⟩ := by
  simp only [tighten, bind_eq_ok] at h
  obtain ⟨max?, hmax, h⟩ := h
  cases max? with
  | none =>
      obtain rfl := pure_eq_ok.mp h
      exact .inl rfl
  | some t =>
      rw [CompensatedSum.zero_eq] at hmax
      have ht := globalMaxActivity?_eq_ok hvalue hi hmax
      rw [zero_add] at ht
      dsimp only at h
      split at h
      · obtain rfl := pure_eq_ok.mp h
        exact .inl rfl
      · next hlarge =>
          simp only [bind_eq_ok, pure_eq_ok] at h
          obtain ⟨⟨n, entries', rhs'⟩, hreduce, rfl⟩ := h
          have hunlimited {v : Exact} (hv : v = plus ∨ v = nan) (hlimit : (t.sub i.rhs).value = v) :
              (⟨entries', if 0 < n then rhs'.value else i.rhs⟩ : Inequality Exact) = i := by
            rw [hlimit] at hreduce
            obtain ⟨rfl, rfl⟩ := reduceCoefficients_unlimited hv (fun e he => (hi e he).2) hreduce
            rfl
          rcases ht with ⟨rfl, habove⟩ | rfl
          · rcases value_sub_exactly (β.maxTotal i.entries) i.rhs with
              ⟨b, hb, hlimit⟩ | hminus | hplus | hnan
            · rw [hlimit] at hlarge hreduce
              rw [hb, CompensatedSum.ofScalar_number] at hreduce
              have hpos := pos_of_not_le hfeastol hlarge
              obtain ⟨b', rfl, hreduces, hnone⟩ :=
                reduceCoefficients_eq_ok hvalue hmodel hpos hi habove hreduce
              refine .inr ⟨b, _, entries', b', hb, hpos, rfl, habove, hreduces, ?_⟩
              rw [CompensatedSum.value_exactly]
              split
              · rfl
              · next hn => rw [hb, (hnone (Nat.eq_zero_of_not_pos hn)).2]
            · rw [hminus] at hlarge
              exact absurd (minus_le hfeastol) hlarge
            · exact .inl (hunlimited (.inl rfl) hplus)
            · exact .inl (hunlimited (.inr rfl) hnan)
          · exact .inl (hunlimited (.inr rfl) (value_sub_nan i.rhs))

section Returning

variable (hvalue : ∀ side c, c < m.columns.size → d.globalValue side c = .ok (β side c))

include hvalue

theorem globalMaxActivity?_returns (hentries : ∀ e ∈ entries, e.1 < m.columns.size)
    (t : CompensatedSum Exact) : Returns (d.globalMaxActivity? t entries) fun _ => True := by
  induction entries generalizing t with
  | nil => exact .ok trivial
  | cons e rest ih =>
      obtain ⟨hc, hrest⟩ := List.forall_mem_cons.mp hentries
      have hbound (side : Side) : Returns (d.globalValue side e.1) fun _ => True :=
        ⟨_, hvalue side _ hc, trivial⟩
      refine (hbound _).bind fun bound _ _ => ?_
      split
      · exact .pure trivial
      · exact ih hrest _

theorem reduceCoefficients_returns (hmodel : d.model = m)
    (hentries : ∀ e ∈ entries, e.1 < m.columns.size) (v : Exact) (t : CompensatedSum Exact) :
    Returns (d.reduceCoefficients v t entries) fun _ => True := by
  induction entries generalizing t with
  | nil => exact .ok trivial
  | cons e rest ih =>
      obtain ⟨hc, hrest⟩ := List.forall_mem_cons.mp hentries
      have hinteger : d.model.isInteger e.1 = .ok (m.columns[e.1].kind == .integer) := by
        rw [hmodel, Model.isInteger, Model.column, fetch_eq_ok.mpr (Array.getElem?_eq_getElem hc)]
        rfl
      simp only [reduceCoefficients, hinteger, hvalue _ _ hc, ok_bind]
      have hgo (t : CompensatedSum Exact) {f : Nat × List (ColumnId × Exact) × CompensatedSum
        Exact →
          Nat × List (ColumnId × Exact) × CompensatedSum Exact} :
          Returns (d.reduceCoefficients v t rest >>= fun r => pure (f r)) fun _ => True :=
        (ih hrest t).bind fun _ _ _ => .pure trivial
      split
      · exact hgo t
      · split
        · exact hgo _
        · split
          · exact hgo _
          · exact hgo t

theorem tighten_returns (hmodel : d.model = m) (hi : i.Over m) :
    Returns (d.tighten i) fun _ => True := by
  have hentries : ∀ e ∈ i.entries, e.1 < m.columns.size := fun e he => (hi e he).1
  refine (globalMaxActivity?_returns hvalue hentries _).bind fun max? _ _ => ?_
  cases max? with
  | none => exact .pure trivial
  | some t =>
      dsimp only
      split
      · exact .pure trivial
      · refine (reduceCoefficients_returns hvalue hmodel hentries _ _).bind fun _ _ _ => ?_
        exact .pure trivial

end Returning

end Domain

end BranchBound
