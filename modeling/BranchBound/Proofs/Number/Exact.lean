import BranchBound.Number.CompensatedSum
import Mathlib.Algebra.Order.Floor.Ring
import Mathlib.Data.Rat.Floor
import Mathlib.Data.Rat.Sqrt
import Mathlib.Tactic.Linarith
import Mathlib.Tactic.Ring

/-!
# Exact numbers

The rationals with two infinities and a value which is not a number. Everything that is written
over scalars can be read over exact numbers, where finite operations are not rounded and there is
only one zero; operations with infinities follow the rules of floating point. What is proved over
exact numbers says what the solver does when rounding plays no role.
-/

namespace BranchBound

/-- A rational number, an infinity, or not a number. -/
inductive Exact where
  | number (q : ℚ)
  | plus
  | minus
  | nan
  deriving DecidableEq, Repr

namespace Exact

/-- The infinity with the sign of a nonzero number; there is none for zero. -/
def infinityOf (q : ℚ) : Exact :=
  if 0 < q then plus else if q < 0 then minus else nan

def neg : Exact → Exact
  | number q => number (-q)
  | plus => minus
  | minus => plus
  | nan => nan

def add : Exact → Exact → Exact
  | number a, number b => number (a + b)
  | number _, plus | plus, number _ | plus, plus => plus
  | number _, minus | minus, number _ | minus, minus => minus
  | _, _ => nan

def mul : Exact → Exact → Exact
  | number a, number b => number (a * b)
  | number a, plus | plus, number a => infinityOf a
  | number a, minus | minus, number a => infinityOf (-a)
  | plus, plus | minus, minus => plus
  | plus, minus | minus, plus => minus
  | _, _ => nan

def div : Exact → Exact → Exact
  | number a, number b => if b = 0 then infinityOf a else number (a / b)
  | number _, plus | number _, minus => number 0
  | plus, number b => if b < 0 then minus else plus
  | minus, number b => if b < 0 then plus else minus
  | _, _ => nan

/-- Whether a number is below another one; comparisons with not-a-number are false. -/
def less : Exact → Exact → Bool
  | number a, number b => a < b
  | number _, plus | minus, number _ | minus, plus => true
  | _, _ => false

def lessEqual : Exact → Exact → Bool
  | number a, number b => a ≤ b
  | number _, plus | minus, number _ | minus, plus | plus, plus | minus, minus => true
  | _, _ => false

def equal : Exact → Exact → Bool
  | number a, number b => a = b
  | plus, plus | minus, minus => true
  | _, _ => false

/-- The decimal fraction `m * 10 ^ e`, or `m / 10 ^ e` when the flag is set. -/
def decimal (m : ℕ) (negativeExponent : Bool) (e : ℕ) : Exact :=
  number (if negativeExponent then (m : ℚ) / 10 ^ e else m * 10 ^ e)

/-- Applies an operation to a finite number and leaves the others as they are. -/
def onNumber (f : ℚ → ℚ) : Exact → Exact
  | number q => number (f q)
  | a => a

def abs : Exact → Exact
  | number q => number |q|
  | plus | minus => plus
  | nan => nan

/-- The nearest integer, halves away from zero. -/
def nearest (q : ℚ) : ℤ := if 0 ≤ q then ⌊q + 1 / 2⌋ else ⌈q - 1 / 2⌉

/-- The square root of the square of a rational; otherwise a rational below the root. -/
def sqrt : Exact → Exact
  | number q => if q < 0 then nan else number (Rat.sqrt q)
  | plus => plus
  | _ => nan

/-- The order of all values, with not-a-number last. -/
def totalOrder (a b : Exact) : Ordering :=
  match a, b with
  | nan, nan => .eq
  | nan, _ => .gt
  | _, nan => .lt
  | a, b => if less a b then .lt else if less b a then .gt else .eq

instance : Scalar Exact where
  add := add
  sub a b := add a (neg b)
  mul := mul
  div := div
  neg := neg
  lt a b := less a b = true
  le a b := lessEqual a b = true
  beq := equal
  decimal := decimal
  infinity := plus
  isNaN a := a = nan
  isInfinite a := a = plus || a = minus
  floor := onNumber fun q => ⌊q⌋
  ceil := onNumber fun q => ⌈q⌉
  round := onNumber fun q => nearest q
  abs := abs
  sqrt := sqrt
  fusedMultiplyAdd a b c := add (mul a b) c
  totalOrder := totalOrder
  decideLT _ _ := inferInstanceAs (Decidable (_ = true))
  decideLE _ _ := inferInstanceAs (Decidable (_ = true))

variable {a b c : ℚ}

@[simp] theorem ofNat_eq (n : ℕ) : (OfNat.ofNat n : Exact) = number n := by
  change decimal n false 0 = number n
  simp [decimal]

@[simp] theorem number_add : number a + number b = number (a + b) := rfl

@[simp] theorem neg_number : -number a = number (-a) := rfl

@[simp] theorem number_sub : number a - number b = number (a - b) := by
  change number (a + -b) = _
  rw [sub_eq_add_neg]

@[simp] theorem number_mul : number a * number b = number (a * b) := rfl

theorem number_div (hb : b ≠ 0) : number a / number b = number (a / b) := if_neg hb

@[simp] theorem number_lt : number a < number b ↔ a < b := decide_eq_true_iff

@[simp] theorem number_le : number a ≤ number b ↔ a ≤ b := decide_eq_true_iff

@[simp] theorem number_beq : (number a == number b) = decide (a = b) := rfl

theorem max_number (a b : ℚ) : Scalar.max (number a) (number b) = number (max a b) := by
  have hmax : Scalar.max (number a) (number b) = if number a < number b then number b else number
    a :=
    rfl
  rw [hmax]
  split
  · next h => rw [max_eq_right (number_lt.mp h).le]
  · next h => rw [max_eq_left (not_lt.mp fun hlt => h (number_lt.mpr hlt))]

theorem equal_iff {x y : Exact} : (x == y) = true ↔ x = y ∧ x ≠ nan := by
  change equal x y = true ↔ _
  cases x <;> cases y <;> simp [equal]

instance partialEquivBEq : PartialEquivBEq Exact where
  symm h := by
    rw [equal_iff] at h ⊢
    exact ⟨h.1.symm, h.1 ▸ h.2⟩
  trans h h' := by
    rw [equal_iff] at h h' ⊢
    exact ⟨h.1.trans h'.1, h.2⟩

/-- The rational that a number is; zero for the others. -/
def toRat : Exact → ℚ
  | number q => q
  | _ => 0

@[simp] theorem toRat_number : (number a).toRat = a := rfl

@[simp] theorem infinity_eq : (Scalar.infinity : Exact) = plus := rfl

@[simp] theorem neg_plus : -plus = minus := rfl

@[simp] theorem isInfinite_number : Scalar.isInfinite (number a) = false := rfl

@[simp] theorem isFinite_number : Scalar.isFinite (number a) = true := rfl

theorem isInfinite_iff {x : Exact} : Scalar.isInfinite x = true ↔ x = plus ∨ x = minus := by
  change (decide (x = plus) || decide (x = minus)) = true ↔ _
  simp

theorem isFinite_iff {x : Exact} : Scalar.isFinite x = true ↔ ∃ q, x = number q := by
  cases x with
  | number q => simp
  | plus | minus | nan => simp [Scalar.isFinite, Scalar.isNaN, Scalar.isInfinite]

theorem exists_number_of_finite {x : Exact} (hnan : x ≠ nan) (h : Scalar.isInfinite x = false) :
    ∃ q, x = number q := by
  cases x with
  | number q => exact ⟨q, rfl⟩
  | plus | minus => simp [Scalar.isInfinite] at h
  | nan => exact absurd rfl hnan

section Order

variable {x y z : Exact}

theorem le_refl (h : x ≠ nan) : x ≤ x := by
  change lessEqual x x = true
  cases x <;> simp_all [lessEqual]

theorem le_trans (hxy : x ≤ y) (hyz : y ≤ z) : x ≤ z := by
  change lessEqual x y = true at hxy
  change lessEqual y z = true at hyz
  change lessEqual x z = true
  cases x <;> cases y <;> cases z <;> simp_all [lessEqual]
  exact hxy.trans hyz

theorem le_antisymm (hxy : x ≤ y) (hyx : y ≤ x) : x = y := by
  change lessEqual x y = true at hxy
  change lessEqual y x = true at hyx
  cases x <;> cases y <;> simp_all [lessEqual]
  exact hxy.antisymm hyx

theorem lt_iff : x < y ↔ x ≤ y ∧ ¬y ≤ x := by
  change less x y = true ↔ lessEqual x y = true ∧ ¬lessEqual y x = true
  cases x <;> cases y <;> simp [less, lessEqual]
  exact fun h => h.le

theorem le_of_not_lt (hx : x ≠ nan) (hy : y ≠ nan) (h : ¬x < y) : y ≤ x := by
  change ¬less x y = true at h
  change lessEqual y x = true
  cases x <;> cases y <;> simp_all [less, lessEqual]

theorem not_nan_of_le (h : x ≤ y) : x ≠ nan ∧ y ≠ nan := by
  change lessEqual x y = true at h
  cases x <;> cases y <;> simp_all [lessEqual]

theorem le_of_lt (h : x < y) : x ≤ y := And.left (Iff.mp lt_iff h)

theorem not_le_of_lt (h : x < y) : ¬y ≤ x := And.right (Iff.mp lt_iff h)

theorem lt_of_le_of_not_le (h : x ≤ y) (hn : ¬y ≤ x) : x < y := Iff.mpr lt_iff ⟨h, hn⟩

theorem lt_of_lt_of_le (hxy : x < y) (hyz : y ≤ z) : x < z :=
  lt_of_le_of_not_le (le_trans (le_of_lt hxy) hyz) fun hzx => not_le_of_lt hxy (le_trans hyz hzx)

theorem lt_of_le_of_lt (hxy : x ≤ y) (hyz : y < z) : x < z :=
  lt_of_le_of_not_le (le_trans hxy (le_of_lt hyz)) fun hzx => not_le_of_lt hyz (le_trans hzx hxy)

theorem lt_irrefl (x : Exact) : ¬x < x := fun h => not_le_of_lt h (le_of_lt h)

theorem neg_le_neg (h : x ≤ y) : -y ≤ -x := by
  change lessEqual x y = true at h
  change lessEqual y.neg x.neg = true
  cases x <;> cases y <;> simp_all [lessEqual, neg]

theorem neg_lt_neg (h : x < y) : -y < -x := by
  change less x y = true at h
  change less y.neg x.neg = true
  cases x <;> cases y <;> simp_all [less, neg]

/-- What lies between two rationals is a rational. -/
theorem exists_number_of_between {a b : ℚ} (hlow : number a ≤ x) (hhigh : x ≤ number b) :
    ∃ q, x = number q := by
  cases x with
  | number q => exact ⟨q, rfl⟩
  | plus => exact absurd hhigh Bool.false_ne_true
  | minus => exact absurd hlow Bool.false_ne_true
  | nan => exact absurd hlow Bool.false_ne_true

end Order

section Division

/-! ### Division

Division by a number that is not zero is linear on all values, also on the infinities, which it
treats as multiplication by the number does. -/

variable {q s s' : ℚ}

theorem infinityOf_of_pos (hq : 0 < q) : infinityOf q = plus := if_pos hq

theorem infinityOf_of_neg (hq : q < 0) : infinityOf q = minus := by
  rw [infinityOf, if_neg (not_lt.mpr hq.le), if_pos hq]

/-- Every value is a number or what an infinity becomes by a factor. -/
theorem cases_infinityOf (a : Exact) : (∃ q, a = number q) ∨ ∃ q, a = infinityOf q := by
  cases a with
  | number q => exact .inl ⟨q, rfl⟩
  | plus => exact .inr ⟨1, rfl⟩
  | minus => exact .inr ⟨-1, rfl⟩
  | nan => exact .inr ⟨0, rfl⟩

theorem infinityOf_mul (q y : ℚ) : infinityOf q * number y = infinityOf (q * y) := by
  have hplus : plus * number y = infinityOf y := rfl
  have hminus : minus * number y = infinityOf (-y) := rfl
  rcases lt_trichotomy q 0 with hq | rfl | hq
  · rw [infinityOf_of_neg hq, hminus]
    rcases lt_trichotomy y 0 with hy | rfl | hy
    · rw [infinityOf_of_pos (neg_pos.mpr hy), infinityOf_of_pos (mul_pos_of_neg_of_neg hq hy)]
    · rw [neg_zero, mul_zero]
    · rw [infinityOf_of_neg (neg_neg_of_pos hy), infinityOf_of_neg (mul_neg_of_neg_of_pos hq hy)]
  · rw [zero_mul]
    rfl
  · rw [infinityOf_of_pos hq, hplus]
    rcases lt_trichotomy y 0 with hy | rfl | hy
    · rw [infinityOf_of_neg hy, infinityOf_of_neg (mul_neg_of_pos_of_neg hq hy)]
    · rw [mul_zero]
    · rw [infinityOf_of_pos hy, infinityOf_of_pos (mul_pos hq hy)]

/-- An infinity is divided by a number as it is multiplied by it. -/
theorem infinityOf_div (hs : s ≠ 0) (q : ℚ) : infinityOf q / number s = infinityOf (q * s) := by
  rw [← infinityOf_mul]
  rcases lt_trichotomy q 0 with hq | rfl | hq
  · rw [infinityOf_of_neg hq]
    change (if s < 0 then plus else minus) = infinityOf (-s)
    rcases lt_or_gt_of_ne hs with hneg | hpos
    · rw [if_pos hneg, infinityOf_of_pos (neg_pos.mpr hneg)]
    · rw [if_neg (not_lt.mpr hpos.le), infinityOf_of_neg (neg_neg_of_pos hpos)]
  · rfl
  · rw [infinityOf_of_pos hq]
    change (if s < 0 then minus else plus) = infinityOf s
    rcases lt_or_gt_of_ne hs with hneg | hpos
    · rw [if_pos hneg, infinityOf_of_neg hneg]
    · rw [if_neg (not_lt.mpr hpos.le), infinityOf_of_pos hpos]

theorem div_mul_number (hs : s ≠ 0) (a : Exact) (y : ℚ) :
    a / number s * number y = a * number y / number s := by
  rcases cases_infinityOf a with ⟨q, rfl⟩ | ⟨q, rfl⟩
  · rw [number_div hs, number_mul, number_mul, number_div hs, div_mul_eq_mul_div]
  · rw [infinityOf_div hs, infinityOf_mul, infinityOf_mul, infinityOf_div hs, mul_right_comm]

theorem div_div_number (hs : s ≠ 0) (hs' : s' ≠ 0) (a : Exact) :
    a / number s / number s' = a / number (s * s') := by
  have hprod := mul_ne_zero hs hs'
  rcases cases_infinityOf a with ⟨q, rfl⟩ | ⟨q, rfl⟩
  · rw [number_div hs, number_div hs', number_div hprod, div_div]
  · rw [infinityOf_div hs, infinityOf_div hs', infinityOf_div hprod, mul_assoc]

theorem add_div_number (hs : s ≠ 0) (a b : Exact) :
    (a + b) / number s = a / number s + b / number s := by
  have hfinite (p : ℚ) : number p / number s = number (p / s) := number_div hs
  have hinfinite : plus / number s = minus ∧ minus / number s = plus ∨
      plus / number s = plus ∧ minus / number s = minus := by
    by_cases hneg : s < 0
    · exact .inl ⟨if_pos hneg, if_pos hneg⟩
    · exact .inr ⟨if_neg hneg, if_neg hneg⟩
  have hnan : nan / number s = nan := rfl
  have hadd (a b : Exact) : a + b = add a b := rfl
  rcases hinfinite with ⟨hplus, hminus⟩ | ⟨hplus, hminus⟩ <;> cases a <;> cases b <;>
    simp [hadd, add, hplus, hminus, hfinite, hnan, add_div]

theorem add_sub_number (a b : Exact) (q : ℚ) : a + b - number q = a + (b - number q) := by
  cases a <;> cases b <;>
    first
    | rfl
    | (simp only [number_add, number_sub, add_sub_assoc])

theorem sub_sub_number (a : Exact) (q s : ℚ) : a - number q - number s = a - number (q + s) := by
  cases a with
  | number r => rw [number_sub, number_sub, number_sub, sub_sub]
  | plus | minus | nan => rfl

theorem sub_div_number (hs : s ≠ 0) (a : Exact) (q : ℚ) :
    (a - number q) / number s = a / number s - number (q / s) := by
  refine (add_div_number hs a (number (-q))).trans ?_
  rw [number_div hs, neg_div]
  rfl

end Division

end Exact

end BranchBound
