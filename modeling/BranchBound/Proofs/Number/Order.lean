import BranchBound.Proofs.Number.Exact

/-!
# The order of numbers

Comparisons with not-a-number are false; the other numbers are linearly ordered, up to numbers such
as the two zeros that are equal in the order, with infinity above all of them. Floating point
numbers and exact numbers are ordered like this, and nothing else is used where bounds are only
compared.
-/

namespace BranchBound

/-- The numbers, without not-a-number, are linearly ordered, with infinity on top. -/
class Scalar.Ordered (α : Type) [Scalar α] : Prop where
  le_refl : ∀ a : α, Scalar.isNaN a = false → a ≤ a
  le_trans : ∀ a b c : α, a ≤ b → b ≤ c → a ≤ c
  le_of_lt : ∀ a b : α, a < b → a ≤ b
  le_of_not_lt : ∀ a b : α, Scalar.isNaN a = false → Scalar.isNaN b = false → ¬a < b → b ≤ a
  number_of_le : ∀ a b : α, a ≤ b → Scalar.isNaN a = false ∧ Scalar.isNaN b = false
  le_infinity : ∀ a : α, Scalar.isNaN a = false → a ≤ Scalar.infinity
  number_neg_infinity : Scalar.isNaN (-Scalar.infinity : α) = false

instance : Scalar.Ordered Exact where
  le_refl _ h := Exact.le_refl (of_decide_eq_false h)
  le_trans _ _ _ := Exact.le_trans
  le_of_lt _ _ := Exact.le_of_lt
  le_of_not_lt _ _ ha hb := Exact.le_of_not_lt (of_decide_eq_false ha) (of_decide_eq_false hb)
  number_of_le _ _ h :=
    ⟨decide_eq_false (Exact.not_nan_of_le h).1, decide_eq_false (Exact.not_nan_of_le h).2⟩
  le_infinity a h := by
    cases a with
    | number _ | plus | minus => rfl
    | nan => cases h
  number_neg_infinity := rfl

/-- Ordered numbers of which none is below a number that is not larger. -/
class Scalar.LinearlyOrdered (α : Type) [Scalar α] : Prop extends Scalar.Ordered α where
  not_lt_of_le : ∀ a b : α, a ≤ b → ¬b < a
  number_zero : Scalar.isNaN (0 : α) = false

/-- Ordered numbers that calculations only make of numbers: a difference or a quotient is a number
only if its arguments are, and so are the integral numbers next to a number that bounds are rounded
to. -/
class Scalar.Calculable (α : Type) [Scalar α] : Prop extends Scalar.LinearlyOrdered α where
  number_one : Scalar.isNaN (1 : α) = false
  number_of_sub : ∀ a b : α, Scalar.isNaN (a - b) = false →
    Scalar.isNaN a = false ∧ Scalar.isNaN b = false
  number_of_div : ∀ a b : α, Scalar.isNaN (a / b) = false → Scalar.isNaN a = false
  number_floor : ∀ a : α, Scalar.isNaN a = false → Scalar.isNaN (Scalar.floor (a - 0.5)) = false
  number_ceil : ∀ a : α, Scalar.isNaN a = false → Scalar.isNaN (Scalar.ceil (a + 0.5)) = false

/-- Finite numbers are below infinity, equal numbers are not apart in the order, and a finite number
without itself is not above zero. -/
class Scalar.Cancelling (α : Type) [Scalar α] : Prop extends Scalar.LinearlyOrdered α where
  lt_infinity : ∀ a : α, Scalar.isFinite a = true → a < Scalar.infinity
  le_of_beq : ∀ a b : α, (a == b) = true → a ≤ b ∧ b ≤ a
  sub_self_le : ∀ a : α, Scalar.isFinite a = true → a - a ≤ 0

namespace Exact

theorem isNaN_eq_false {a : Exact} : Scalar.isNaN a = false ↔ a ≠ nan := decide_eq_false_iff_not

instance : Scalar.LinearlyOrdered Exact where
  not_lt_of_le _ _ hab hba := not_le_of_lt hba hab
  number_zero := by
    rw [isNaN_eq_false, ofNat_eq]
    exact Exact.noConfusion

instance : Scalar.Cancelling Exact where
  lt_infinity a ha := by
    cases a with
    | number _ => rfl
    | plus | minus | nan => cases ha
  le_of_beq a b h := by
    obtain ⟨rfl, ha⟩ := Exact.equal_iff.mp h
    exact ⟨Exact.le_refl ha, Exact.le_refl ha⟩
  sub_self_le a ha := by
    cases a with
    | number q => simp
    | plus | minus | nan => cases ha

theorem sub_nan (x : Exact) : x - nan = nan := by
  cases x <;> rfl

theorem nan_sub (x : Exact) : nan - x = nan := by
  cases x <;> rfl

theorem nan_div (x : Exact) : nan / x = nan := by
  cases x <;> rfl

theorem sub_number_not_nan {x : Exact} (hx : x ≠ nan) (q : ℚ) : x - number q ≠ nan := by
  cases x with
  | number _ => simp
  | plus | minus => exact fun h => by cases h
  | nan => exact absurd rfl hx

theorem add_number_not_nan {x : Exact} (hx : x ≠ nan) (q : ℚ) : x + number q ≠ nan := by
  cases x with
  | number _ => simp
  | plus | minus => exact fun h => by cases h
  | nan => exact absurd rfl hx

theorem floor_not_nan {x : Exact} (hx : x ≠ nan) : Scalar.floor x ≠ nan := by
  cases x with
  | nan => exact absurd rfl hx
  | number _ | plus | minus => exact fun h => by cases h

theorem ceil_not_nan {x : Exact} (hx : x ≠ nan) : Scalar.ceil x ≠ nan := by
  cases x with
  | nan => exact absurd rfl hx
  | number _ | plus | minus => exact fun h => by cases h

instance : Scalar.Calculable Exact where
  number_one := by
    rw [isNaN_eq_false, ofNat_eq]
    exact Exact.noConfusion
  number_of_sub a b h := by
    simp only [isNaN_eq_false] at h ⊢
    refine ⟨?_, ?_⟩
    · rintro rfl
      exact h (nan_sub b)
    · rintro rfl
      exact h (sub_nan a)
  number_of_div a b h := by
    rw [isNaN_eq_false] at h ⊢
    rintro rfl
    exact h (nan_div b)
  number_floor a h := by
    rw [isNaN_eq_false] at h ⊢
    exact floor_not_nan (sub_number_not_nan h _)
  number_ceil a h := by
    rw [isNaN_eq_false] at h ⊢
    exact ceil_not_nan (add_number_not_nan h _)

end Exact

namespace Scalar

variable {α : Type} [Scalar α]

/-- Two numbers are equal in the order; the two zeros of floating point numbers are. -/
def Same (a b : α) : Prop := a ≤ b ∧ b ≤ a

theorem min_eq (a b : α) : min a b = a ∨ min a b = b := by
  unfold min
  split
  · exact .inr rfl
  · split
    · exact .inl rfl
    · split
      · exact .inr rfl
      · exact .inl rfl

variable {a b c : α}

theorem le_min (ha : c ≤ a) (hb : c ≤ b) : c ≤ min a b := by
  rcases min_eq a b with h | h
  · rwa [h]
  · rwa [h]

/-- The smallest of some numbers and another one is not below what none of them is below. -/
theorem le_foldl_min {xs : List α} (ha : c ≤ a) (hxs : ∀ x ∈ xs, c ≤ x) :
    c ≤ xs.foldl min a := by
  induction xs generalizing a with
  | nil => exact ha
  | cons x xs ih =>
      exact ih (le_min ha (hxs x (List.mem_cons_self ..)))
        fun y hy => hxs y (List.mem_cons_of_mem _ hy)

variable [Ordered α]

theorem number_left (h : a ≤ b) : isNaN a = false := (Ordered.number_of_le a b h).1

theorem number_right (h : a ≤ b) : isNaN b = false := (Ordered.number_of_le a b h).2

/-- The smaller one of a number and anything else is not above the number. -/
theorem min_le_left (ha : isNaN a = false) : min a b ≤ a := by
  unfold min
  rw [if_neg (by simp [ha])]
  split
  · exact Ordered.le_refl a ha
  · split
    · next h => exact Ordered.le_of_lt _ _ h
    · exact Ordered.le_refl a ha

theorem min_le_right (ha : isNaN a = false) (hb : isNaN b = false) : min a b ≤ b := by
  unfold min
  rw [if_neg (by simp [ha]), if_neg (by simp [hb])]
  split
  · exact Ordered.le_refl b hb
  · next h => exact Ordered.le_of_not_lt _ _ hb ha h

/-- Raising a number never makes it smaller, whatever it is raised to. -/
theorem le_max (h : c ≤ a) (b : α) : c ≤ max a b := by
  unfold max
  rw [if_neg (by simp [number_right h])]
  split
  · exact h
  · split
    · next hlt => exact Ordered.le_trans _ _ _ h (Ordered.le_of_lt _ _ hlt)
    · exact h

theorem Same.refl (ha : isNaN a = false) : Same a a :=
  ⟨Ordered.le_refl a ha, Ordered.le_refl a ha⟩

omit [Ordered α] in
theorem Same.symm (h : Same a b) : Same b a := ⟨h.2, h.1⟩

theorem Same.trans (h : Same a b) (h' : Same b c) : Same a c :=
  ⟨Ordered.le_trans _ _ _ h.1 h'.1, Ordered.le_trans _ _ _ h'.2 h.2⟩

theorem lt_of_not_le (ha : isNaN a = false) (hb : isNaN b = false) (h : ¬a ≤ b) : b < a := by
  by_contra hnot
  exact h (Ordered.le_of_not_lt b a hb ha hnot)

theorem number_of_lt (h : a < b) : isNaN a = false ∧ isNaN b = false :=
  Ordered.number_of_le a b (Ordered.le_of_lt a b h)

end Scalar

namespace Scalar

variable {α : Type} [Scalar α] [LinearlyOrdered α] {a b c : α}

theorem not_le_of_lt (h : a < b) : ¬b ≤ a := fun hba =>
  LinearlyOrdered.not_lt_of_le b a hba h

theorem lt_of_lt_of_le (hab : a < b) (hbc : b ≤ c) : a < c := by
  refine lt_of_not_le (number_right hbc) (number_of_lt hab).1 fun hca => ?_
  exact not_le_of_lt hab (Ordered.le_trans _ _ _ hbc hca)

theorem lt_of_le_of_lt (hab : a ≤ b) (hbc : b < c) : a < c := by
  refine lt_of_not_le (number_of_lt hbc).2 (number_left hab) fun hca => ?_
  exact not_le_of_lt hbc (Ordered.le_trans _ _ _ hca hab)

theorem number_infinity : isNaN (infinity : α) = false :=
  number_right (Ordered.le_infinity (0 : α) LinearlyOrdered.number_zero)

end Scalar

end BranchBound
