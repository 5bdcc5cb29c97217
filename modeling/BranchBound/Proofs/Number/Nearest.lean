import BranchBound.Proofs.Number.Exact
import Mathlib.Data.Int.Log

/-!
# Rounding to the nearest number of 53 binary digits

A number is rounded to a multiple of its unit, which leaves it 53 binary digits, or fewer if the
unit is the smallest one; midway between two multiples the even one is taken. Rounding is monotone,
since a power of two that is a multiple of both units lies between numbers with different units. It
can make two numbers differ by more than they did before, but not if they differ by a part of a
multiple of the larger unit that leaves room for the errors.
-/

namespace BranchBound

/-! ### Rounding to integers -/

/-- The nearest integer, the even one of two that are equally near. -/
def roundEven (q : ℚ) : ℤ :=
  if q - ⌊q⌋ < 1 / 2 ∨ q - ⌊q⌋ = 1 / 2 ∧ Even ⌊q⌋ then ⌊q⌋ else ⌊q⌋ + 1

variable {p q : ℚ} {z : ℤ}

/-- An integer is near a number: less than one half away, or one half if it is even. -/
def IsNear (z : ℤ) (q : ℚ) : Prop := |q - z| < 1 / 2 ∨ |q - z| = 1 / 2 ∧ Even z

theorem isNear_roundEven (q : ℚ) : IsNear (roundEven q) q := by
  have hfloor := Int.floor_le q
  have hceil := Int.lt_floor_add_one q
  unfold roundEven IsNear
  split
  · next h => rwa [abs_of_nonneg (sub_nonneg.mpr hfloor)]
  · next h =>
      push Not at h
      obtain ⟨hhalf, heven⟩ := h
      have habs : |q - ((⌊q⌋ + 1 : ℤ) : ℚ)| = 1 - (q - ⌊q⌋) := by
        push_cast
        rw [abs_sub_comm, abs_of_nonneg (by linarith)]
        ring
      rw [habs]
      rcases hhalf.lt_or_eq with hlt | heq
      · exact .inl (by linarith)
      · refine .inr ⟨by linarith, ?_⟩
        have hodd := heven heq.symm
        rw [Int.not_even_iff_odd] at hodd
        exact hodd.add_one

/-- Among the integers near two numbers the one of the larger number is not smaller. -/
theorem IsNear.le {y : ℤ} (hy : IsNear y p) (hz : IsNear z q) (hpq : p ≤ q) : y ≤ z := by
  by_contra hlt
  have hle : (z : ℚ) + 1 ≤ y := by exact_mod_cast not_le.mp hlt
  have hbelow : p - y ≥ -(1 / 2) := by
    rcases hy with h | ⟨h, -⟩
    · exact (abs_lt.mp h).1.le
    · exact (abs_le.mp h.le).1
  have habove : q - z ≤ 1 / 2 := by
    rcases hz with h | ⟨h, -⟩
    · exact (abs_lt.mp h).2.le
    · exact (abs_le.mp h.le).2
  -- both are midway between the two integers, of which only one is even
  have hnext : (y : ℚ) = z + 1 := by linarith
  have heven : Even y ∧ Even z := by
    refine ⟨?_, ?_⟩
    · rcases hy with h | ⟨-, h⟩
      · linarith [(abs_lt.mp h).1]
      · exact h
    · rcases hz with h | ⟨-, h⟩
      · linarith [(abs_lt.mp h).2]
      · exact h
  have hnext : y = z + 1 := by exact_mod_cast hnext
  rw [hnext, Int.even_add_one] at heven
  exact heven.1 heven.2

theorem IsNear.eq (h : IsNear z q) : roundEven q = z :=
  le_antisymm ((isNear_roundEven q).le h le_rfl) (h.le (isNear_roundEven q) le_rfl)

theorem isNear_self (z : ℤ) : IsNear z z := .inl (by norm_num)

@[simp] theorem roundEven_intCast (z : ℤ) : roundEven z = z := (isNear_self z).eq

theorem roundEven_mono (h : p ≤ q) : roundEven p ≤ roundEven q :=
  (isNear_roundEven p).le (isNear_roundEven q) h

theorem roundEven_neg (q : ℚ) : roundEven (-q) = -roundEven q := by
  refine IsNear.eq ?_
  have habs : |-q - ((-roundEven q : ℤ) : ℚ)| = |q - roundEven q| := by
    push_cast
    rw [← abs_neg]
    congr 1
    ring
  unfold IsNear
  rw [habs, even_neg]
  exact isNear_roundEven q

theorem abs_sub_roundEven_le (q : ℚ) : |q - roundEven q| ≤ 1 / 2 := by
  rcases isNear_roundEven q with h | ⟨h, -⟩
  · exact h.le
  · exact h.le

/-- An integer is not above what a number is rounded to that is less than one half below it, or one
half if the integer is even. -/
theorem le_roundEven (h : (z : ℚ) - 1 / 2 < q ∨ (z : ℚ) - 1 / 2 = q ∧ Even z) :
    z ≤ roundEven q := by
  by_cases hle : (z : ℚ) ≤ q
  · exact (roundEven_intCast z).symm.le.trans (roundEven_mono hle)
  · have habs : |q - z| = z - q := by rw [abs_sub_comm, abs_of_pos (by linarith)]
    refine (IsNear.eq (z := z) ?_).symm.le
    rw [IsNear, habs]
    rcases h with h | ⟨h, heven⟩
    · exact .inl (by linarith)
    · exact .inr ⟨by linarith, heven⟩

/-! ### Rounding to 53 binary digits -/

/-- The exponent of the unit in which a number is given: it has 53 binary digits then, or fewer if
the unit is the smallest one. -/
def unitExponent (q : ℚ) : ℤ := max (Int.log 2 |q| - 52) (-1074)

/-- A number rounded to a multiple of its unit. -/
def rounded (q : ℚ) : ℚ := roundEven (q / 2 ^ unitExponent q) * 2 ^ unitExponent q

theorem two_zpow_pos (k : ℤ) : (0 : ℚ) < 2 ^ k := zpow_pos two_pos k

theorem unitExponent_neg (q : ℚ) : unitExponent (-q) = unitExponent q := by
  rw [unitExponent, abs_neg, unitExponent]

@[simp] theorem rounded_neg (q : ℚ) : rounded (-q) = -rounded q := by
  rw [rounded, unitExponent_neg, neg_div, roundEven_neg, Int.cast_neg, neg_mul, rounded]

@[simp] theorem rounded_zero : rounded 0 = 0 := by
  have h := roundEven_intCast 0
  rw [Int.cast_zero] at h
  rw [rounded, zero_div, h, Int.cast_zero, zero_mul]

theorem unitExponent_mono (hp : 0 < p) (h : p ≤ q) : unitExponent p ≤ unitExponent q := by
  unfold unitExponent
  rw [abs_of_pos hp, abs_of_pos (hp.trans_le h)]
  have hlog := Int.log_mono_right (b := 2) hp h
  omega

theorem lt_zpow_unitExponent (q : ℚ) : |q| < 2 ^ (unitExponent q + 53) := by
  have hlog : |q| < 2 ^ (Int.log 2 |q| + 1) := by
    exact_mod_cast Int.lt_zpow_succ_log_self (by norm_num) |q|
  refine hlog.trans_le (zpow_le_zpow_right₀ one_le_two ?_)
  unfold unitExponent
  omega

theorem zpow_le_of_unitExponent (hq : 0 < q) (h : -1074 < unitExponent q) :
    2 ^ (unitExponent q + 52) ≤ q := by
  have hlog : (2 : ℚ) ^ Int.log 2 |q| ≤ |q| := by
    exact_mod_cast Int.zpow_log_le_self (b := 2) (by norm_num) (abs_pos.mpr hq.ne')
  rw [abs_of_pos hq] at hlog
  have heq : unitExponent q + 52 = Int.log 2 q := by
    unfold unitExponent at h ⊢
    rw [abs_of_pos hq] at h ⊢
    omega
  rwa [heq]

theorem zpow_mul_natCast_pow (k : ℤ) (n : ℕ) : (2 : ℚ) ^ (k + n) = 2 ^ k * (2 ^ n : ℤ) := by
  rw [zpow_add₀ two_ne_zero]
  simp

/-- Numbers are rounded to the same side of a multiple of their unit. -/
theorem rounded_le (h : q ≤ z * 2 ^ unitExponent q) : rounded q ≤ z * 2 ^ unitExponent q := by
  have hpos := two_zpow_pos (unitExponent q)
  refine mul_le_mul_of_nonneg_right ?_ hpos.le
  have hle := roundEven_mono ((div_le_iff₀ hpos).mpr h)
  rw [roundEven_intCast] at hle
  exact_mod_cast hle

theorem le_rounded (h : z * 2 ^ unitExponent q ≤ q) : z * 2 ^ unitExponent q ≤ rounded q := by
  have hpos := two_zpow_pos (unitExponent q)
  refine mul_le_mul_of_nonneg_right ?_ hpos.le
  have hle := roundEven_mono ((le_div_iff₀ hpos).mpr h)
  rw [roundEven_intCast] at hle
  exact_mod_cast hle

theorem rounded_nonneg (h : 0 ≤ q) : 0 ≤ rounded q := by
  simpa using le_rounded (z := 0) (by simpa using h)

theorem abs_sub_rounded_le (q : ℚ) : |q - rounded q| ≤ 2 ^ unitExponent q / 2 := by
  have hpos := two_zpow_pos (unitExponent q)
  have hscaled : q - rounded q =
      (q / 2 ^ unitExponent q - roundEven (q / 2 ^ unitExponent q)) * 2 ^ unitExponent q := by
    rw [sub_mul, div_mul_cancel₀ _ hpos.ne', rounded]
  rw [hscaled, abs_mul, abs_of_pos hpos]
  linarith [mul_le_mul_of_nonneg_right (abs_sub_roundEven_le (q / 2 ^ unitExponent q)) hpos.le]

theorem rounded_mono_of_pos (hp : 0 < p) (h : p ≤ q) : rounded p ≤ rounded q := by
  have hunit := unitExponent_mono hp h
  rcases hunit.eq_or_lt with heq | hlt
  · unfold rounded
    rw [heq]
    have hpos := two_zpow_pos (unitExponent q)
    refine mul_le_mul_of_nonneg_right ?_ hpos.le
    exact_mod_cast roundEven_mono (div_le_div_of_nonneg_right h hpos.le)
  · -- A power of two that is a multiple of both units lies between the numbers.
    have hq := zpow_le_of_unitExponent (hp.trans_le h) (lt_of_le_of_lt (le_max_right _ _) hlt)
    have hpbelow : p ≤ 2 ^ (unitExponent q + 52) := by
      have hbelow := lt_zpow_unitExponent p
      rw [abs_of_pos hp] at hbelow
      exact hbelow.le.trans (zpow_le_zpow_right₀ one_le_two (by omega))
    have hpower : (2 : ℚ) ^ (unitExponent q + 52) = (2 ^ 52 : ℤ) * 2 ^ unitExponent q := by
      rw [mul_comm]
      exact zpow_mul_natCast_pow _ 52
    have hpower' : (2 : ℚ) ^ (unitExponent q + 52) =
        ((2 ^ (unitExponent q + 52 - unitExponent p).toNat : ℤ) : ℚ) * 2 ^ unitExponent p := by
      have hexponent : unitExponent q + 52 =
          unitExponent p + (unitExponent q + 52 - unitExponent p).toNat := by omega
      conv_lhs => rw [hexponent]
      rw [zpow_mul_natCast_pow, mul_comm]
    calc rounded p ≤ 2 ^ (unitExponent q + 52) := by
          rw [hpower'] at hpbelow ⊢
          exact rounded_le hpbelow
      _ ≤ rounded q := by
          rw [hpower] at hq ⊢
          exact le_rounded hq

theorem rounded_mono (h : p ≤ q) : rounded p ≤ rounded q := by
  rcases lt_or_ge 0 p with hp | hp
  · exact rounded_mono_of_pos hp h
  have hnonpos {r : ℚ} (hr : r ≤ 0) : rounded r ≤ 0 := by
    have hnonneg := rounded_nonneg (neg_nonneg.mpr hr)
    rw [rounded_neg] at hnonneg
    exact neg_nonneg.mp hnonneg
  rcases lt_or_ge q 0 with hq | hq
  · have hle := rounded_mono_of_pos (neg_pos.mpr hq) (neg_le_neg h)
    rw [rounded_neg, rounded_neg] at hle
    exact neg_le_neg_iff.mp hle
  · exact (hnonpos hp).trans (rounded_nonneg hq)

/-! ### Numbers of 53 binary digits -/

/-- A number that has at most 53 binary digits above the smallest unit. -/
def IsShort (q : ℚ) : Prop := ∃ m e : ℤ, |m| < 2 ^ 53 ∧ -1074 ≤ e ∧ q = m * 2 ^ e

theorem isShort_one : IsShort 1 := ⟨1, 0, by norm_num, by norm_num, by norm_num⟩

theorem IsShort.neg (h : IsShort q) : IsShort (-q) := by
  obtain ⟨m, e, hm, he, rfl⟩ := h
  exact ⟨-m, e, by rwa [abs_neg], he, by push_cast; ring⟩

theorem IsShort.abs (h : IsShort q) : IsShort |q| := by
  rcases abs_choice q with heq | heq <;> rw [heq]
  · exact h
  · exact h.neg

theorem IsShort.max_one (h : IsShort q) : IsShort (max q 1) := by
  rcases max_choice q 1 with heq | heq <;> rw [heq]
  · exact h
  · exact isShort_one

/-- A number with few digits is a multiple of every unit in which it has as many. -/
theorem IsShort.exists_multiple (h : IsShort q) {k : ℤ} (hk : k ≤ -1074 ∨ 2 ^ (k + 52) ≤ |q|) :
    ∃ z : ℤ, q = z * 2 ^ k := by
  obtain ⟨m, e, hm, he, rfl⟩ := h
  have hle : k ≤ e := by
    rcases hk with hk | hk
    · omega
    · have hpos := two_zpow_pos e
      have hlt : (2 : ℚ) ^ (k + 52) < 2 ^ (53 + e) := by
        refine hk.trans_lt ?_
        rw [abs_mul, abs_of_pos hpos, zpow_add₀ two_ne_zero]
        exact mul_lt_mul_of_pos_right (by exact_mod_cast hm) hpos
      have hexponents := (zpow_lt_zpow_iff_right₀ (one_lt_two : (1 : ℚ) < 2)).mp hlt
      omega
  refine ⟨m * 2 ^ (e - k).toNat, ?_⟩
  have hexponent : e = k + (e - k).toNat := by omega
  conv_lhs => rw [hexponent]
  rw [zpow_mul_natCast_pow]
  push_cast
  ring

theorem IsShort.rounded_eq (h : IsShort q) : rounded q = q := by
  have hmultiple : ∃ z : ℤ, q = z * 2 ^ unitExponent q := by
    rcases eq_or_ne q 0 with rfl | hq
    · exact ⟨0, by simp⟩
    refine h.exists_multiple ?_
    rcases (le_max_right _ _ : -1074 ≤ unitExponent q).eq_or_lt with heq | hlt
    · exact .inl heq.ge
    · have hpower := zpow_le_of_unitExponent (abs_pos.mpr hq)
      have habs : unitExponent |q| = unitExponent q := by rw [unitExponent, abs_abs, unitExponent]
      rw [habs] at hpower
      exact .inr (hpower hlt)
  obtain ⟨z, hz⟩ := hmultiple
  exact le_antisymm ((rounded_le hz.le).trans hz.ge) (hz.le.trans (le_rounded hz.ge))

/-- A multiple of a unit is not above what a number close below it is rounded to, if the unit of the
number is not much smaller. -/
theorem le_rounded_of_near {k g : ℤ} (hk : unitExponent q ≤ k) (hnear : (g : ℚ) - 1 / 4 ≤ q / 2 ^ k)
    (h : k ≤ unitExponent q + 1 ∨ (g : ℚ) ≤ q / 2 ^ k) : g * 2 ^ k ≤ rounded q := by
  set j := unitExponent q with hj
  have hunit := two_zpow_pos j
  have hpower : (2 : ℚ) ^ k = 2 ^ j * (2 ^ (k - j).toNat : ℤ) := by
    rw [← zpow_mul_natCast_pow]
    congr 1
    omega
  have hround : g * 2 ^ (k - j).toNat ≤ roundEven (q / 2 ^ j) := by
    have hfactor : (0 : ℚ) < (2 ^ (k - j).toNat : ℤ) := by positivity
    have hscaled : q / 2 ^ j = q / 2 ^ k * (2 ^ (k - j).toNat : ℤ) := by
      rw [hpower]
      field_simp
    rw [hscaled]
    refine le_roundEven ?_
    rw [Int.cast_mul]
    rcases h with h | h
    · rcases (show k - j = 0 ∨ k - j = 1 by omega) with h | h
      · rw [h]
        refine .inl ?_
        norm_num
        linarith
      · -- midway between two multiples of the smaller unit, the even one is taken
        rw [h]
        have hmid : (g : ℚ) * (2 ^ (1 : ℤ).toNat : ℤ) - 1 / 2 ≤ q / 2 ^ k *
          (2 ^ (1 : ℤ).toNat : ℤ) := by
          norm_num
          linarith
        rcases hmid.lt_or_eq with hlt | heq
        · exact .inl hlt
        · exact .inr ⟨heq, by simp⟩
    · have hle := mul_le_mul_of_nonneg_right h hfactor.le
      exact .inl (by linarith)
  calc (g : ℚ) * 2 ^ k = (g * 2 ^ (k - j).toNat : ℤ) * 2 ^ j := by
        rw [hpower]
        push_cast
        ring
    _ ≤ rounded q := mul_le_mul_of_nonneg_right (by exact_mod_cast hround) hunit.le

/-- Two numbers that differ by at most three quarters of a multiple of the unit of the larger one
differ by at most that multiple after they were rounded. -/
theorem rounded_sub_le {n : ℤ} (hp : 0 < p) (hpq : p ≤ q) (hn : 1 ≤ n)
    (hchange : q - p ≤ 3 / 4 * (n * 2 ^ unitExponent q)) :
    rounded q - rounded p ≤ n * 2 ^ unitExponent q := by
  set k := unitExponent q with hk
  have hunit := two_zpow_pos k
  have hunits : unitExponent p ≤ k := unitExponent_mono hp hpq
  have hn' : (1 : ℚ) ≤ n := by exact_mod_cast hn
  have hnear : ((roundEven (q / 2 ^ k) - n : ℤ) : ℚ) + n / 4 - 1 / 2 ≤ p / 2 ^ k := by
    have hround := (abs_le.mp (abs_sub_roundEven_le (q / 2 ^ k))).1
    have hscaled : q / 2 ^ k - p / 2 ^ k ≤ 3 / 4 * n := by
      rw [← sub_div, div_le_iff₀ hunit]
      linarith
    push_cast
    linarith
  have hbelow := le_rounded_of_near (g := roundEven (q / 2 ^ k) - n) hunits (by linarith) ?_
  · have hrounded : rounded q = roundEven (q / 2 ^ k) * 2 ^ k := rfl
    rw [hrounded]
    push_cast at hbelow
    linarith
  · by_contra hfar
    push Not at hfar
    obtain ⟨hsmall, hless⟩ := hfar
    -- The smaller number is at most half the power of two below the larger one, and they differ by
    -- less than two units.
    have hleast : -1074 ≤ unitExponent p := le_max_right _ _
    have hpower := zpow_le_of_unitExponent (hp.trans_le hpq) (by omega)
    have hpower' : p < 2 ^ (k + 51) := by
      refine (lt_of_le_of_lt (le_abs_self _) (lt_zpow_unitExponent p)).trans_le ?_
      exact zpow_le_zpow_right₀ one_le_two (by omega)
    have hdouble : (2 : ℚ) ^ (k + 52) = 2 * 2 ^ (k + 51) := by
      rw [← zpow_one_add₀ two_ne_zero]
      congr 1
      omega
    have hlarge : 2 * (2 : ℚ) ^ k ≤ 2 ^ (k + 51) := by
      rw [← zpow_one_add₀ two_ne_zero]
      exact zpow_le_zpow_right₀ one_le_two (by omega)
    have hfew : (n : ℚ) * 2 ^ k ≤ 2 * 2 ^ k := mul_le_mul_of_nonneg_right (by linarith) hunit.le
    linarith

/-- A part of at most three quarters that is taken of two numbers changes by no more than the
numbers do, also after it was rounded. -/
theorem rounded_mul_sub_le {f x y : ℚ} (hf : 0 < f) (hf' : f ≤ 3 / 4) (hx : IsShort x)
    (hy : IsShort y)
    (hone : 1 ≤ x) (hlt : x < y) : rounded (f * y) - rounded (f * x) ≤ y - x := by
  have hpos : 0 < f * x := by positivity
  have hle : f * x ≤ f * y := mul_le_mul_of_nonneg_left hlt.le hf.le
  have hunit := two_zpow_pos (unitExponent (f * y))
  by_cases hmultiple : unitExponent (f * y) ≤ -1074 ∨ 2 ^ (unitExponent (f * y) + 52) ≤ x
  · -- Both numbers are multiples of the larger unit, and so is what they differ by.
    obtain ⟨a, ha⟩ := hx.exists_multiple (hmultiple.imp_right fun h => h.trans (le_abs_self x))
    obtain ⟨b, hb⟩ := hy.exists_multiple
      (hmultiple.imp_right fun h => (h.trans hlt.le).trans (le_abs_self y))
    have hdifference : y - x = (b - a : ℤ) * 2 ^ unitExponent (f * y) := by
      rw [Int.cast_sub, sub_mul, ← ha, ← hb]
    have hstep : (0 : ℚ) < (b - a : ℤ) :=
      (mul_pos_iff_of_pos_right hunit).mp (hdifference ▸ sub_pos.mpr hlt)
    rw [hdifference]
    refine rounded_sub_le hpos hle (by exact_mod_cast hstep) ?_
    rw [← hdifference, ← mul_sub]
    exact mul_le_mul_of_nonneg_right hf' (sub_nonneg.mpr hlt.le)
  · -- The numbers differ by so much that the errors do not matter.
    push Not at hmultiple
    obtain ⟨hnormal, hbelow⟩ := hmultiple
    have hpower := zpow_le_of_unitExponent (hpos.trans_le hle) hnormal
    have hpower' : (2 : ℚ) ^ (unitExponent (f * y) + 52) =
        2 ^ unitExponent (f * y) * (2 ^ 52 : ℤ) := zpow_mul_natCast_pow _ 52
    have herror := (abs_le.mp (abs_sub_rounded_le (f * y))).1
    have herror' := (abs_le.mp (abs_sub_rounded_le (f * x))).2
    have hunits : (2 : ℚ) ^ unitExponent (f * x) ≤ 2 ^ unitExponent (f * y) :=
      zpow_le_zpow_right₀ one_le_two (unitExponent_mono hpos hle)
    have hpart : f * y - f * x ≤ 3 / 4 * (y - x) := by
      rw [← mul_sub]
      exact mul_le_mul_of_nonneg_right hf' (sub_nonneg.mpr hlt.le)
    have hwhole : f * y ≤ 3 / 4 * y := mul_le_mul_of_nonneg_right hf' (by linarith)
    push_cast at hpower'
    linarith

end BranchBound
