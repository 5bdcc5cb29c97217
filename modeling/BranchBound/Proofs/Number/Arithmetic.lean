import BranchBound.Proofs.Number.Double
import BranchBound.Proofs.Number.Nearest

/-!
# The arithmetic of doubles

A double stands for an exact number, and doubles are ordered like the numbers they stand for. Sums,
differences and products of doubles are the doubles nearest to the exact results, infinite results
included: the significand is cut off after 53 digits, two further bits tell on which side of the
middle the rest lies, and what is packed into bits is read back unless it became too large.
-/

namespace BranchBound

variable {p q : ℚ}

/-! ### Doubles as exact numbers -/

open Exact

namespace Exact

/-- The power of two that doubles do not reach. -/
def doubleLimit : ℚ := 2 ^ (1024 : ℤ)

theorem doubleLimit_pos : 0 < doubleLimit := two_zpow_pos 1024

/-- A number that is small enough for a double, infinite otherwise. -/
def bounded (q : ℚ) : Exact :=
  if doubleLimit ≤ q then plus else if q ≤ -doubleLimit then minus else number q

/-- The double nearest to an exact number. -/
def toDouble : Exact → Exact
  | number q => bounded (rounded q)
  | x => x

theorem bounded_mono (h : p ≤ q) : bounded p ≤ bounded q := by
  have hpos := doubleLimit_pos
  unfold bounded
  split_ifs
  all_goals first | rfl | (exfalso; linarith) | exact number_le.mpr h

theorem bounded_neg (q : ℚ) : bounded (-q) = -bounded q := by
  have hpos := doubleLimit_pos
  unfold bounded
  split_ifs
  all_goals first | rfl | (exfalso; linarith)

theorem add_number_mono {x y : Exact} (h : x ≤ y) (q : ℚ) : x + number q ≤ y + number q := by
  cases x with
  | nan => exact absurd rfl (not_nan_of_le h).1
  | number a =>
      cases y with
      | number b => exact number_le.mpr (add_le_add_left (number_le.mp h) q)
      | plus => rfl
      | minus | nan => cases h
  | plus =>
      cases y with
      | plus => rfl
      | number _ | minus | nan => cases h
  | minus =>
      cases y with
      | number _ | plus | minus => rfl
      | nan => cases h

theorem toDouble_mono {x y : Exact} (h : x ≤ y) : x.toDouble ≤ y.toDouble := by
  have hplus (r : ℚ) : bounded r ≤ plus := by
    unfold bounded
    split_ifs <;> rfl
  have hminus (r : ℚ) : minus ≤ bounded r := by
    unfold bounded
    split_ifs <;> rfl
  cases x with
  | nan => exact absurd rfl (not_nan_of_le h).1
  | number p =>
      cases y with
      | number q => exact bounded_mono (rounded_mono (number_le.mp h))
      | plus => exact hplus _
      | minus | nan => cases h
  | plus =>
      cases y with
      | plus => exact h
      | number _ | minus | nan => cases h
  | minus =>
      cases y with
      | number q => exact hminus _
      | plus | minus => exact h
      | nan => cases h

end Exact

namespace Binary64

open Float.Model (UnpackedFloat Format)
open Float.Model.UnpackedFloat (ExtendedMantissa Sign)

/-- What a significand and the two bits after it tell of a number. -/
def Represents (em : ExtendedMantissa) (q : ℚ) : Prop :=
  match em.roundBit, em.stickyBit with
  | false, false => q = em.mantissa
  | false, true => (em.mantissa : ℚ) < q ∧ q < em.mantissa + 1 / 2
  | true, false => q = em.mantissa + 1 / 2
  | true, true => (em.mantissa : ℚ) + 1 / 2 < q ∧ q < em.mantissa + 1

theorem Represents.roundedMantissa {em : ExtendedMantissa} (h : Represents em q) :
    roundEven q = em.roundedMantissa := by
  obtain ⟨m, r, s⟩ := em
  refine IsNear.eq ?_
  unfold IsNear
  cases r <;> cases s <;>
    simp only [Represents, ExtendedMantissa.roundedMantissa, ExtendedMantissa.accuracy,
      UnpackedFloat.Accuracy.roundToNearestEven] at h ⊢
  · exact .inl (by simp [h])
  · exact .inl (abs_lt.mpr ⟨by push_cast; linarith, by push_cast; linarith⟩)
  · refine .inr ⟨?_, ?_⟩
    · rcases Nat.mod_two_eq_zero_or_one m with hm | hm <;> rw [h, hm] <;> push_cast <;>
        norm_num [abs_of_pos, abs_of_neg]
    · have heven : Even (m + m % 2) := by
        rw [Nat.even_iff]
        omega
      exact_mod_cast heven
  · exact .inl (abs_lt.mpr ⟨by push_cast; linarith, by push_cast; linarith⟩)

theorem Represents.shiftRightOne {em : ExtendedMantissa} (h : Represents em q) :
    Represents em.shiftRightOne (q / 2) := by
  obtain ⟨m, r, s⟩ := em
  have hm : (m : ℚ) = 2 * (m / 2 : ℕ) + (m % 2 : ℕ) := by exact_mod_cast (Nat.div_add_mod m 2).symm
  have hzero : (0 != 0) = false := rfl
  have hone : (1 != 0) = true := rfl
  rcases Nat.mod_two_eq_zero_or_one m with hmod | hmod <;> rw [hmod] at hm <;>
    cases r <;> cases s <;>
    simp only [Represents, ExtendedMantissa.shiftRightOne, hmod, hzero, hone,
      Bool.or_self, Bool.or_true,
      Bool.or_false] at h ⊢ <;>
    push_cast at hm <;>
    first | linarith | exact ⟨by linarith, by linarith⟩

theorem Represents.shiftRight {em : ExtendedMantissa} (h : Represents em q) (n : ℕ) :
    Represents (em >>> n) (q / 2 ^ n) := by
  change Represents (n.repeat ExtendedMantissa.shiftRightOne em) _
  induction n with
  | zero => simpa [Nat.repeat] using h
  | succ n ih =>
      rw [Nat.repeat, pow_succ, ← div_div]
      exact ih.shiftRightOne

/-! ### Values -/

/-- The exact number that a double stands for. -/
def value : UnpackedFloat → Exact
  | .infinity .positive => plus
  | .infinity .negative => minus
  | .notANumber => nan
  | .zero _ => number 0
  | .finite s m e _ => number (s.apply m * 2 ^ e)

theorem value_finite (s : Sign) {m : ℕ} (e : ℤ) (hm : 0 < m) :
    value (.finite s m e hm) = number (s.apply m * 2 ^ e) := rfl

/-- The significand has 53 binary digits, or fewer if the exponent is the least one. -/
def Canonical : UnpackedFloat → Prop
  | .finite _ m e _ => m < 2 ^ 53 ∧ -1074 ≤ e ∧ (2 ^ 52 ≤ m ∨ e = -1074)
  | _ => True

theorem log_mul_zpow {m : ℕ} (hm : 0 < m) (e : ℤ) : Int.log 2 ((m : ℚ) * 2 ^ e) = m.log2 + e := by
  have hpos : (0 : ℚ) < m * 2 ^ e := mul_pos (by exact_mod_cast hm) (two_zpow_pos e)
  have hlow : (2 : ℚ) ^ ((m.log2 : ℤ) + e) ≤ m * 2 ^ e := by
    rw [zpow_add₀ two_ne_zero, zpow_natCast]
    exact mul_le_mul_of_nonneg_right (by exact_mod_cast Nat.log2_self_le hm.ne') (two_zpow_pos e).le
  have hhigh : (m : ℚ) * 2 ^ e < 2 ^ ((m.log2 : ℤ) + e + 1) := by
    have hexponent : (m.log2 : ℤ) + e + 1 = (m.log2 + 1 : ℕ) + e := by push_cast; ring
    rw [hexponent, zpow_add₀ two_ne_zero, zpow_natCast]
    exact mul_lt_mul_of_pos_right (by exact_mod_cast Nat.lt_log2_self) (two_zpow_pos e)
  have hlow' := (Int.zpow_le_iff_le_log (b := 2) (by norm_num) hpos).mp (by exact_mod_cast hlow)
  have hhigh' := (Int.lt_zpow_iff_log_lt (b := 2) (by norm_num) hpos).mp (by exact_mod_cast hhigh)
  omega

/-- The exponent to which a dyadic number is brought is that of its unit. -/
theorem targetExponent_eq {m : ℕ} (hm : 0 < m) (e : ℤ) :
    Format.binary64.targetExponent (Float.Model.totalExponent m e) = unitExponent (m * 2 ^ e) := by
  have hpos : (0 : ℚ) < m * 2 ^ e := mul_pos (by exact_mod_cast hm) (two_zpow_pos e)
  have hleast : Format.binary64.minExponent = -1074 := rfl
  have hdigits : Format.binary64.mantissaBits = 53 := rfl
  rw [unitExponent, abs_of_pos hpos, log_mul_zpow hm, Format.targetExponent,
    Float.Model.totalExponent,
    hleast, hdigits]
  omega

/-- What is left of a significand that is shifted to a greater exponent stands for the same
number. -/
theorem represents_shiftToExponent (m : ℕ) {e t : ℤ} (h : e ≤ t) :
    (UnpackedFloat.shiftToExponent m e .exact t).2 = t ∧
      Represents (UnpackedFloat.shiftToExponent m e .exact t).1 (m * 2 ^ e / 2 ^ t) := by
  have hexponent : e + (t - e).toNat = t := by omega
  refine ⟨hexponent, ?_⟩
  have hexact : Represents (ExtendedMantissa.ofMantissaAndAccuracy m .exact) m := rfl
  have hvalue : (m : ℚ) * 2 ^ e / 2 ^ t = m / 2 ^ (t - e).toNat := by
    conv_lhs => rw [← hexponent, zpow_mul_natCast_pow]
    push_cast
    have hpos := two_zpow_pos e
    field_simp
  rw [hvalue]
  exact hexact.shiftRight _

/-- The number with a sign, a significand and an exponent; zero if the significand is. -/
def assemble (s : Sign) (m : ℕ) (e : ℤ) : UnpackedFloat :=
  if h : m = 0 then .zero s else .finite s m e (Nat.pos_of_ne_zero h)

theorem value_assemble (s : Sign) (m : ℕ) (e : ℤ) :
    value (assemble s m e) = number (s.apply m * 2 ^ e) := by
  unfold assemble
  split
  · next h =>
      subst h
      cases s <;> simp [value, Sign.apply]
  · rfl

/-- A rounded significand of at most 53 digits, or the power of two with one more, is brought into
the canonical form without changing the number. -/
theorem assemble_shiftToTargetExponent (s : Sign) {r : ℕ} {t : ℤ} (hr : r ≤ 2 ^ 53) (ht : -1074 ≤ t)
    (hdigits : 2 ^ 52 ≤ r ∨ t = -1074) :
    let shifted := UnpackedFloat.shiftToTargetExponent Format.binary64 r t .exact
    value (assemble s shifted.1.mantissa shifted.2) = number (s.apply r * 2 ^ t) ∧
      Canonical (assemble s shifted.1.mantissa shifted.2) := by
  have htarget : Format.binary64.targetExponent (Float.Model.totalExponent r t) =
      max ((r.log2 : ℤ) + t - 52) (-1074) := by
    have hleast : Format.binary64.minExponent = -1074 := rfl
    have hdigits : Format.binary64.mantissaBits = 53 := rfl
    rw [Format.targetExponent, Float.Model.totalExponent, hleast, hdigits]
    omega
  dsimp only
  unfold UnpackedFloat.shiftToTargetExponent
  dsimp only
  rw [htarget]
  rcases hr.lt_or_eq with hlt | rfl
  · have hlog : r.log2 < 53 := by
      rcases Nat.eq_zero_or_pos r with rfl | hpos
      · decide
      · exact (Nat.log2_lt hpos.ne').mpr hlt
    have hshift : (max ((r.log2 : ℤ) + t - 52) (-1074) - t).toNat = 0 := by omega
    have hsame : UnpackedFloat.shiftToExponent r t .exact (max ((r.log2 : ℤ) + t - 52) (-1074)) =
        (ExtendedMantissa.ofMantissaAndAccuracy r .exact, t) := by
      unfold UnpackedFloat.shiftToExponent
      rw [hshift]
      simp [HShiftRight.hShiftRight, Nat.repeat]
    rw [hsame]
    refine ⟨value_assemble s r t, ?_⟩
    change Canonical (assemble s r t)
    unfold assemble
    split
    · trivial
    · exact ⟨hlt, ht, hdigits⟩
  · have hlog : (2 ^ 53 : ℕ).log2 = 53 := Nat.log2_two_pow
    have hnext : max (((2 ^ 53 : ℕ).log2 : ℤ) + t - 52) (-1074) = t + 1 := by
      rw [hlog]
      omega
    have hcarried : UnpackedFloat.shiftToExponent (2 ^ 53) t .exact (t + 1) =
        ((ExtendedMantissa.ofMantissaAndAccuracy (2 ^ 53) .exact).shiftRightOne, t + 1) := by
      have hshift : (t + 1 - t).toNat = 1 := by omega
      unfold UnpackedFloat.shiftToExponent
      rw [hshift]
      rfl
    rw [hnext, hcarried]
    have hhalf : (ExtendedMantissa.ofMantissaAndAccuracy (2 ^ 53) .exact).shiftRightOne.mantissa =
        2 ^ 52 := rfl
    dsimp only
    rw [hhalf]
    refine ⟨?_, ?_⟩
    · rw [value_assemble]
      congr 1
      rw [zpow_add₀ two_ne_zero]
      cases s <;> simp only [Sign.apply] <;> push_cast <;> ring
    · exact ⟨by norm_num, by omega, .inl le_rfl⟩

/-- Rounding to the exponent of the unit. -/
theorem value_roundWithAccuracy (s : Sign) {m : ℕ} (hm : 0 < m) {e : ℤ}
    (he : e ≤ unitExponent (m * 2 ^ e)) :
    value (UnpackedFloat.roundWithAccuracy Format.binary64 s m e .exact) =
        number (rounded (s.apply m * 2 ^ e)) ∧
      Canonical (UnpackedFloat.roundWithAccuracy Format.binary64 s m e .exact) := by
  have hpos : (0 : ℚ) < m * 2 ^ e := mul_pos (by exact_mod_cast hm) (two_zpow_pos e)
  set t := unitExponent (m * 2 ^ e) with ht
  have hunit := two_zpow_pos t
  obtain ⟨hexponent, hrepresents⟩ := represents_shiftToExponent m he
  set first := UnpackedFloat.shiftToExponent m e .exact t with hfirst
  have hrounded := hrepresents.roundedMantissa
  have hmin : -1074 ≤ t := le_max_right _ _
  have hmost : first.1.roundedMantissa ≤ 2 ^ 53 := by
    have hbelow := lt_zpow_unitExponent (m * 2 ^ e)
    rw [abs_of_pos hpos, ← ht] at hbelow
    have hle : (m : ℚ) * 2 ^ e / 2 ^ t ≤ ((2 ^ 53 : ℤ) : ℚ) := by
      rw [div_le_iff₀ hunit, mul_comm ((2 ^ 53 : ℤ) : ℚ), ← zpow_mul_natCast_pow]
      exact hbelow.le
    have hle := roundEven_mono hle
    rw [hrounded, roundEven_intCast] at hle
    exact_mod_cast hle
  have hleast : 2 ^ 52 ≤ first.1.roundedMantissa ∨ t = -1074 := by
    rcases hmin.eq_or_lt with heq | hlt
    · exact .inr heq.symm
    · have hle : ((2 ^ 52 : ℤ) : ℚ) ≤ m * 2 ^ e / 2 ^ t := by
        rw [le_div_iff₀ hunit, mul_comm, ← zpow_mul_natCast_pow]
        exact zpow_le_of_unitExponent hpos hlt
      have hle := roundEven_mono hle
      rw [hrounded, roundEven_intCast] at hle
      exact .inl (by exact_mod_cast hle)
  have hround : UnpackedFloat.roundWithAccuracy Format.binary64 s m e .exact =
      assemble s
        (UnpackedFloat.shiftToTargetExponent Format.binary64 first.1.roundedMantissa t
          .exact).1.mantissa
        (UnpackedFloat.shiftToTargetExponent Format.binary64 first.1.roundedMantissa t
          .exact).2 := by
    have htarget : UnpackedFloat.shiftToTargetExponent Format.binary64 m e .exact = first := by
      rw [UnpackedFloat.shiftToTargetExponent, targetExponent_eq hm]
    rw [UnpackedFloat.roundWithAccuracy, htarget, ← hexponent]
    rfl
  rw [hround]
  obtain ⟨hvalue, hcanonical⟩ := assemble_shiftToTargetExponent s hmost hmin hleast
  refine ⟨hvalue.trans ?_, hcanonical⟩
  have hpositive : rounded (m * 2 ^ e) = first.1.roundedMantissa * 2 ^ t := by
    rw [rounded, ← ht, hrounded]
    push_cast
    ring
  congr 1
  cases s with
  | positive => simp [Sign.apply, hpositive]
  | negative => simp [Sign.apply, hpositive]

theorem decreaseExponent_value (m : ℕ) (e t : ℤ) :
    ((UnpackedFloat.decreaseExponent m e t).1 : ℚ) * 2 ^ (UnpackedFloat.decreaseExponent m e t).2 =
      m * 2 ^ e := by
  unfold UnpackedFloat.decreaseExponent
  dsimp only
  have hexponent : e = e - (e - t).toNat + (e - t).toNat := by omega
  conv_rhs => rw [hexponent, zpow_mul_natCast_pow]
  rw [Nat.shiftLeft_eq]
  push_cast
  ring

theorem value_round (s : Sign) {m : ℕ} (hm : 0 < m) (e : ℤ) :
    value (UnpackedFloat.round Format.binary64 s m e) = number (rounded (s.apply m * 2 ^ e)) ∧
      Canonical (UnpackedFloat.round Format.binary64 s m e) := by
  obtain ⟨m', e', hdecreased⟩ : ∃ m' e',
      UnpackedFloat.decreaseExponent m e (unitExponent (m * 2 ^ e)) = (m', e') := ⟨_, _, rfl⟩
  have hvalue := decreaseExponent_value m e (unitExponent (m * 2 ^ e))
  rw [hdecreased] at hvalue
  have hround : UnpackedFloat.round Format.binary64 s m e =
      UnpackedFloat.roundWithAccuracy Format.binary64 s m' e' .exact := by
    rw [UnpackedFloat.round, targetExponent_eq hm, hdecreased]
  obtain ⟨hm', he'⟩ := Prod.mk.inj hdecreased
  have hpos : 0 < m' := by
    rw [← hm', Nat.shiftLeft_eq]
    positivity
  have hle : e' ≤ unitExponent (m' * 2 ^ e') := by
    rw [hvalue]
    omega
  have hsigned : (s.apply (m' : ℤ) : ℚ) * 2 ^ e' = s.apply (m : ℤ) * 2 ^ e := by
    cases s with
    | positive => simpa [Sign.apply] using hvalue
    | negative => simpa [Sign.apply] using hvalue
  rw [hround, ← hsigned]
  exact value_roundWithAccuracy s hpos hle

theorem value_normalize (m e : ℤ) (s : Sign) :
    value (UnpackedFloat.normalize Format.binary64 m e s) = number (rounded (m * 2 ^ e)) ∧
      Canonical (UnpackedFloat.normalize Format.binary64 m e s) := by
  unfold UnpackedFloat.normalize
  rcases lt_trichotomy m 0 with hm | rfl | hm
  · rw [Int.compare_eq_lt.mpr hm]
    have hround := value_round .negative (m := (-m).toNat) (by omega) e
    have hcast : (((-m).toNat : ℤ) : ℤ) = -m := by omega
    rwa [hcast, Sign.apply, neg_neg] at hround
  · exact ⟨by simp [value], trivial⟩
  · rw [Int.compare_eq_gt.mpr hm]
    have hround := value_round .positive (m := m.toNat) (by omega) e
    have hcast : ((m.toNat : ℤ) : ℤ) = m := by omega
    rwa [hcast, Sign.apply] at hround

/-! ### Packed numbers -/

theorem unpackSign_packComponents {format : Format} (s : Sign) (e : BitVec format.exponentBits)
    (m : BitVec format.mantissaBitsWithoutImplicit) :
    Sign.ofBitVec (UnpackedFloat.unpackSign (UnpackedFloat.packComponents format s e m)) = s := by
  have hbit : UnpackedFloat.unpackSign (UnpackedFloat.packComponents format s e m) =
    s.toBitVec := by
    apply BitVec.eq_of_getLsbD_eq
    intro i hi
    obtain rfl : i = 0 := by omega
    simp [UnpackedFloat.unpackSign, UnpackedFloat.packComponents, BitVec.getLsbD_append,
      BitVec.getElem_append]
  rw [hbit]
  cases s <;> rfl

theorem unpack_packComponents_normal (s : Sign) {e : BitVec 11} (m : BitVec 52)
    (hinfinite : e ≠ -1#11)
    (hleast : e ≠ 0#11) :
    value (UnpackedFloat.unpack Format.binary64
      (UnpackedFloat.packComponents Format.binary64 s e m)) =
      number (s.apply (2 ^ 52 + m.toNat : ℕ) * 2 ^ ((e.toNat : ℤ) - 1075)) := by
  rw [UnpackedFloat.unpack]
  simp only [UnpackedFloat.unpackExponent_packComponents,
    UnpackedFloat.unpackMantissa_packComponents,
    unpackSign_packComponents]
  rw [if_neg hinfinite, if_neg hleast, value, toNat_implicit]
  rfl

theorem unpack_packComponents_subnormal (s : Sign) (m : BitVec 52) :
    value (UnpackedFloat.unpack Format.binary64 (UnpackedFloat.packComponents Format.binary64 s 0#11
      m)) =
      number (s.apply m.toNat * 2 ^ (-1074 : ℤ)) := by
  rw [UnpackedFloat.unpack]
  simp only [UnpackedFloat.unpackExponent_packComponents,
    UnpackedFloat.unpackMantissa_packComponents,
    unpackSign_packComponents]
  rw [if_neg (by decide), if_pos trivial]
  split
  · next h =>
      rw [h]
      cases s <;> simp [value, Sign.apply]
  · rfl

theorem bounded_eq_number (h : |q| < doubleLimit) : bounded q = number q := by
  obtain ⟨hlow, hhigh⟩ := abs_lt.mp h
  rw [bounded, if_neg (not_le.mpr hhigh), if_neg (not_le.mpr hlow)]

theorem sign_apply_mul_cast (s : Sign) (m : ℕ) (r : ℚ) :
    ((s.apply m : ℤ) : ℚ) * r = match s with | .positive => m * r | .negative => -(m * r) := by
  cases s <;> simp [Sign.apply]

theorem abs_apply_mul (s : Sign) (m : ℕ) (e : ℤ) : |((s.apply m : ℤ) : ℚ) * 2 ^ e| = m * 2 ^ e := by
  rw [abs_mul, abs_of_pos (two_zpow_pos e)]
  cases s <;> simp [Sign.apply]

/-- A canonical number with a large exponent is too large for a double. -/
theorem bounded_of_large (s : Sign) {m : ℕ} {e : ℤ} (hm : 2 ^ 52 ≤ m) (he : 972 ≤ e) :
    bounded (s.apply m * 2 ^ e) = value (.infinity s) := by
  have hlarge : doubleLimit ≤ m * 2 ^ e := by
    have hm : (2 : ℚ) ^ (52 : ℤ) ≤ m := by exact_mod_cast hm
    calc doubleLimit = 2 ^ (52 : ℤ) * 2 ^ (972 : ℤ) := by
          rw [← zpow_add₀ two_ne_zero, doubleLimit]
          rfl
      _ ≤ m * 2 ^ e :=
        mul_le_mul hm (zpow_le_zpow_right₀ one_le_two he) (two_zpow_pos _).le m.cast_nonneg
  rw [sign_apply_mul_cast]
  cases s with
  | positive => exact if_pos hlarge
  | negative =>
      dsimp only
      rw [bounded_neg, bounded, if_pos hlarge]
      rfl

theorem abs_lt_doubleLimit (s : Sign) {m : ℕ} {e : ℤ} (hm : m < 2 ^ 53) (he : e ≤ 971) :
    |((s.apply m : ℤ) : ℚ) * 2 ^ e| < doubleLimit := by
  have hm : (m : ℚ) < 2 ^ (53 : ℤ) := by exact_mod_cast hm
  calc |((s.apply m : ℤ) : ℚ) * 2 ^ e| = m * 2 ^ e := abs_apply_mul s m e
    _ ≤ m * 2 ^ (971 : ℤ) :=
        mul_le_mul_of_nonneg_left (zpow_le_zpow_right₀ one_le_two he) m.cast_nonneg
    _ < 2 ^ (53 : ℤ) * 2 ^ (971 : ℤ) := mul_lt_mul_of_pos_right hm (two_zpow_pos _)
    _ = doubleLimit := by
        rw [← zpow_add₀ two_ne_zero, doubleLimit]
        rfl

/-- Packing a canonical number makes it infinite if it is too large, and keeps it otherwise. -/
theorem value_unpack_pack {u : UnpackedFloat} (hu : Canonical u) (hvalue : value u = number q) :
    value (UnpackedFloat.unpack Format.binary64 (u.pack Format.binary64)) = bounded q := by
  cases u with
  | infinity s => cases s <;> cases hvalue
  | notANumber => cases hvalue
  | zero s =>
      obtain rfl : 0 = q := number.inj hvalue
      rw [bounded_eq_number (by rw [abs_zero]; exact doubleLimit_pos)]
      exact (unpack_packComponents_subnormal s 0).trans (by cases s <;> simp [Sign.apply])
  | finite s m e hm =>
      obtain ⟨hdigits, hleast, hnormal⟩ := hu
      obtain rfl := number.inj hvalue
      have hbias : (e + (Format.binary64.exponentBias : ℕ) + (52 : ℕ)).toNat =
        (e + 1075).toNat := by
        have h : Format.binary64.exponentBias = 1023 := rfl
        rw [h]
        omega
      have hbits : Format.binary64.mantissaBits = 53 := rfl
      rw [UnpackedFloat.pack]
      dsimp only
      rw [hbias, hbits]
      split
      · next hlarge =>
          rw [bounded_of_large s (hnormal.resolve_right (by omega)) (by omega)]
          cases s <;> rfl
      · next hfits =>
          rw [bounded_eq_number (abs_lt_doubleLimit s hdigits (by omega))]
          split
          · next hlog =>
              have hlow : 2 ^ 52 ≤ m := (Nat.le_log2 hm.ne').mp (by omega)
              have hexponent : (BitVec.ofNat 11 (e + 1075).toNat).toNat = (e + 1075).toNat := by
                rw [BitVec.toNat_ofNat, Nat.mod_eq_of_lt (by omega)]
              have hsignificand : 2 ^ 52 + (BitVec.ofNat 52 m).toNat = m := by
                rw [BitVec.toNat_ofNat]
                omega
              have hne (k : ℕ) (hk : (e + 1075).toNat ≠ k) (hk' : k < 2 ^ 11) :
                  BitVec.ofNat 11 (e + 1075).toNat ≠ BitVec.ofNat 11 k := by
                intro heq
                have hnat := congrArg BitVec.toNat heq
                rw [hexponent, BitVec.toNat_ofNat, Nat.mod_eq_of_lt hk'] at hnat
                exact hk hnat
              rw [unpack_packComponents_normal s _ (hne 2047 (by omega) (by norm_num))
                (hne 0 (by omega) (by norm_num)), hsignificand, hexponent]
              congr 3
              omega
          · next hlog =>
              have hlow : m < 2 ^ 52 := by
                have hlog' := (Nat.log2_lt hm.ne').mpr hdigits
                exact (Nat.log2_lt hm.ne').mp (by omega)
              rw [unpack_packComponents_subnormal, BitVec.toNat_ofNat, Nat.mod_eq_of_lt hlow,
                hnormal.resolve_left (by omega)]

/-- What bits stand for is canonical and has one of the exponents of doubles. -/
theorem canonical_unpack (b : BitVec 64) : Canonical (UnpackedFloat.unpack Format.binary64 b) ∧
    ∀ s m e hm, UnpackedFloat.unpack Format.binary64 b = .finite s m e hm → e ≤ 971 := by
  have hm := (@UnpackedFloat.unpackMantissa Format.binary64 b).isLt
  have he := (@UnpackedFloat.unpackExponent Format.binary64 b).isLt
  change _ < 2 ^ 52 at hm
  change _ < 2 ^ 11 at he
  have hbias : ((Format.binary64.exponentBias : ℕ) : ℤ) + (52 : ℕ) = 1075 := rfl
  rw [UnpackedFloat.unpack]
  dsimp only
  rw [hbias]
  split
  · split
    · exact ⟨trivial, fun _ _ _ _ h => by cases h⟩
    · exact ⟨trivial, fun _ _ _ _ h => by cases h⟩
  · next hinfinite =>
      have hlargest : (@UnpackedFloat.unpackExponent Format.binary64 b).toNat ≠ 2047 := fun h =>
        hinfinite (BitVec.eq_of_toNat_eq h)
      split
      · next hzero =>
          split
          · exact ⟨trivial, fun _ _ _ _ h => by cases h⟩
          · have hexponent : (@UnpackedFloat.unpackExponent Format.binary64 b).toNat = 0 := by
              rw [hzero]
              rfl
            rw [hexponent]
            refine ⟨⟨by omega, by norm_num, .inr (by norm_num)⟩, fun _ _ _ _ h => ?_⟩
            cases h
            norm_num
      · next hleast =>
          have hpositive : (@UnpackedFloat.unpackExponent Format.binary64 b).toNat ≠ 0 := fun h =>
            hleast (BitVec.eq_of_toNat_eq h)
          refine ⟨⟨?_, by omega, .inl ?_⟩, fun _ _ _ _ h => ?_⟩
          · rw [toNat_implicit]
            omega
          · rw [toNat_implicit]
            omega
          · cases h
            omega

/-- The exact number that a double stands for. -/
def exact (x : Float) : Exact := value (parts x)

theorem canonical_parts (x : Float) : Canonical (parts x) := (canonical_unpack _).1

theorem isNaN_iff {x : Float} : x.isNaN = true ↔ exact x = nan := by
  change (parts x).isNaN = true ↔ value (parts x) = nan
  cases parts x with
  | infinity s => cases s <;> simp [UnpackedFloat.isNaN, value]
  | notANumber | zero _ | finite _ _ _ _ => simp [UnpackedFloat.isNaN, value]

/-- Canonical significands with exponents are ordered by the exponents first. -/
theorem mul_zpow_lt {m m' : ℕ} {e e' : ℤ} (hdigits : m < 2 ^ 53) (hleast : -1074 ≤ e)
    (hnormal : 2 ^ 52 ≤ m' ∨ e' = -1074) (h : e < e' ∨ e = e' ∧ m < m') :
    (m : ℚ) * 2 ^ e < m' * 2 ^ e' := by
  rcases h with h | ⟨rfl, h⟩
  · have hm : (m : ℚ) < 2 ^ 53 := by exact_mod_cast hdigits
    have hm' : (2 : ℚ) ^ 52 ≤ m' := by exact_mod_cast hnormal.resolve_right (by omega)
    calc (m : ℚ) * 2 ^ e < 2 ^ 53 * 2 ^ e := mul_lt_mul_of_pos_right hm (two_zpow_pos e)
      _ = 2 ^ 52 * 2 ^ (e + 1) := by
          rw [zpow_add₀ two_ne_zero]
          ring
      _ ≤ m' * 2 ^ e' := mul_le_mul hm' (zpow_le_zpow_right₀ one_le_two (by omega))
          (two_zpow_pos _).le m'.cast_nonneg
  · exact mul_lt_mul_of_pos_right (by exact_mod_cast h) (two_zpow_pos e)

/-- Signs are compared first. -/
theorem fst_place_le {u v : UnpackedFloat} (h : place u < place v) : (place u).1 ≤ (place v).1 := by
  rcases Prod.Lex.lt_iff.mp h with hlt | ⟨heq, -⟩
  · exact hlt.le
  · exact heq.le

/-- The places of canonical numbers are in the order of what they stand for. -/
theorem value_lt {u v : UnpackedFloat} (hu : Canonical u) (hv : Canonical v) (hu' : u.isNaN = false)
    (hv' : v.isNaN = false) (h : place u < place v) : value u < value v := by
  have hsign := fst_place_le h
  have hpos {m : ℕ} (hm : 0 < m) (e : ℤ) : (0 : ℚ) < m * 2 ^ e :=
    mul_pos (by exact_mod_cast hm) (two_zpow_pos e)
  cases u with
  | notANumber => cases hu'
  | infinity s =>
      cases s with
      | positive => exact absurd h (not_lt.mpr (place_le v))
      | negative =>
          cases v with
          | notANumber => cases hv'
          | infinity t =>
              cases t with
              | positive => rfl
              | negative => exact absurd h (lt_irrefl _)
          | zero _ | finite _ _ _ _ => rfl
  | zero s =>
      cases v with
      | notANumber => cases hv'
      | infinity t =>
          cases t with
          | positive => rfl
          | negative =>
              have hsign : (0 : ℤ) ≤ -2 := hsign
              omega
      | zero t => exact absurd h (lt_irrefl _)
      | finite t m e hm =>
          cases t with
          | positive => exact number_lt.mpr (hpos hm e)
          | negative =>
              have hsign : (0 : ℤ) ≤ -1 := hsign
              omega
  | finite s m e hm =>
      cases v with
      | notANumber => cases hv'
      | infinity t =>
          cases t with
          | positive => rfl
          | negative =>
              cases s with
              | positive =>
                  have hsign : (1 : ℤ) ≤ -2 := hsign
                  omega
              | negative =>
                  have hsign : (-1 : ℤ) ≤ -2 := hsign
                  omega
      | zero t =>
          cases s with
          | positive =>
              have hsign : (1 : ℤ) ≤ 0 := hsign
              omega
          | negative =>
              refine number_lt.mpr ?_
              rw [sign_apply_mul_cast]
              exact neg_lt_zero.mpr (hpos hm e)
      | finite t m' e' hm' =>
          obtain ⟨hdigits, hleast, hnormal⟩ := hu
          obtain ⟨hdigits', hleast', hnormal'⟩ := hv
          refine number_lt.mpr ?_
          rw [sign_apply_mul_cast, sign_apply_mul_cast]
          have hlex : s.apply 1 = t.apply 1 →
              s.apply e < t.apply e' ∨ s.apply e = t.apply e' ∧ s.apply m < t.apply m' := by
            intro heq
            rcases Prod.Lex.lt_iff.mp h with hlt | ⟨-, hrest⟩
            · exact absurd heq hlt.ne
            · exact Prod.Lex.lt_iff.mp hrest
          cases s <;> cases t
          · refine neg_lt_neg (mul_zpow_lt hdigits' hleast' hnormal ?_)
            have hlex := hlex rfl
            simp only [Sign.apply] at hlex
            omega
          · exact (neg_lt_zero.mpr (hpos hm e)).trans (hpos hm' e')
          · have hsign : (1 : ℤ) ≤ -1 := hsign
            omega
          · refine mul_zpow_lt hdigits hleast hnormal' ?_
            have hlex := hlex rfl
            simp only [Sign.apply] at hlex
            omega

/-- What stands at the same place among the numbers is equal. -/
theorem value_eq {u v : UnpackedFloat} (hu : u.isNaN = false) (hv : v.isNaN = false)
    (h : place u = place v) : value u = value v := by
  have hsign : (place u).1 = (place v).1 := congrArg Prod.fst h
  have hexponent : (place u).2.1 = (place v).2.1 := congrArg (fun p => p.2.1) h
  have hsignificand : (place u).2.2 = (place v).2.2 := congrArg (fun p => p.2.2) h
  cases u with
  | notANumber => cases hu
  | infinity s | zero s =>
      cases v with
      | notANumber => cases hv
      | infinity t | zero t | finite t _ _ _ => cases s <;> cases t <;> first | rfl | cases hsign
  | finite s m e hm =>
      cases v with
      | notANumber => cases hv
      | infinity t | zero t => cases s <;> cases t <;> cases hsign
      | finite t m' e' hm' =>
          change s.apply e = t.apply e' at hexponent
          change s.apply m = t.apply m' at hsignificand
          cases s <;> cases t <;> try cases hsign
          all_goals
            simp only [Sign.apply] at hexponent hsignificand
            obtain rfl : e = e' := by omega
            obtain rfl : m = m' := by omega
            rfl

theorem isNaN_eq_false_iff {x : Float} : x.isNaN = false ↔ exact x ≠ nan := by
  rw [← Bool.not_eq_true, isNaN_iff]

theorem lt_iff_exact {x y : Float} : x < y ↔ exact x < exact y := by
  have hlt {x y : Float} (h : x < y) : exact x < exact y := by
    obtain ⟨hx, hy, hplace⟩ := lt_iff.mp h
    exact value_lt (canonical_parts x) (canonical_parts y) hx hy hplace
  refine ⟨hlt, fun h => ?_⟩
  obtain ⟨hx, hy⟩ := not_nan_of_le (Exact.le_of_lt h)
  rw [← isNaN_eq_false_iff] at hx hy
  by_contra hnot
  have hle := Scalar.Ordered.le_of_not_lt x y hx hy hnot
  rcases (le_iff.mp hle).2.2.eq_or_lt with heq | hlt'
  · have hvalue : exact y = exact x := value_eq hy hx heq
    rw [hvalue] at h
    exact Exact.lt_irrefl _ h
  · exact Exact.not_le_of_lt h (Exact.le_of_lt (hlt (lt_iff.mpr ⟨hy, hx, hlt'⟩)))

theorem le_iff_exact {x y : Float} : x ≤ y ↔ exact x ≤ exact y := by
  constructor
  · intro h
    obtain ⟨hx, hy, -⟩ := le_iff.mp h
    refine Exact.le_of_not_lt (isNaN_eq_false_iff.mp hy) (isNaN_eq_false_iff.mp hx) fun hlt => ?_
    exact Scalar.LinearlyOrdered.not_lt_of_le x y h (lt_iff_exact.mpr hlt)
  · intro h
    obtain ⟨hx, hy⟩ := not_nan_of_le h
    refine Scalar.Ordered.le_of_not_lt y x (isNaN_eq_false_iff.mpr hy) (isNaN_eq_false_iff.mpr hx)
      fun hlt => ?_
    exact Exact.not_le_of_lt (lt_iff_exact.mp hlt) h

/-! ### Operations -/

theorem Canonical.isShort {u : UnpackedFloat} (hu : Canonical u) (hq : value u = number q) :
    IsShort q := by
  cases u with
  | infinity s => cases s <;> cases hq
  | notANumber => cases hq
  | zero s =>
      obtain rfl := number.inj hq
      exact ⟨0, 0, by norm_num, by norm_num, by norm_num⟩
  | finite s m e hm =>
      obtain ⟨hdigits, hleast, -⟩ := hu
      obtain rfl := number.inj hq
      refine ⟨s.apply m, e, ?_, hleast, rfl⟩
      cases s with
      | positive => simpa [Sign.apply] using (by exact_mod_cast hdigits : (m : ℤ) < 2 ^ 53)
      | negative => simpa [Sign.apply] using (by exact_mod_cast hdigits : (m : ℤ) < 2 ^ 53)

/-- Finite doubles have few digits and are below the limit. -/
theorem isShort_of_exact {x : Float} (h : exact x = number q) : IsShort q ∧ |q| < doubleLimit := by
  refine ⟨(canonical_parts x).isShort h, ?_⟩
  obtain ⟨hcanonical, hexponent⟩ := canonical_unpack x.toModel.toBits.toBitVec
  change value (UnpackedFloat.unpack Format.binary64 x.toModel.toBits.toBitVec) = number q at h
  generalize UnpackedFloat.unpack Format.binary64 x.toModel.toBits.toBitVec = u at *
  cases u with
  | infinity s => cases s <;> cases h
  | notANumber => cases h
  | zero s =>
      obtain rfl := number.inj h
      rw [abs_zero]
      exact doubleLimit_pos
  | finite s m e hm =>
      obtain rfl := number.inj h
      exact abs_lt_doubleLimit s hcanonical.1 (hexponent s m e hm rfl)

theorem value_decreaseExponent (s : Sign) (m : ℕ) {e t : ℤ} (h : t ≤ e) :
    (s.apply (UnpackedFloat.decreaseExponent m e t).1 : ℚ) * 2 ^ t = s.apply m * 2 ^ e := by
  have hvalue := decreaseExponent_value m e t
  have hexponent : (UnpackedFloat.decreaseExponent m e t).2 = t := by
    unfold UnpackedFloat.decreaseExponent
    dsimp only
    omega
  rw [hexponent] at hvalue
  rw [sign_apply_mul_cast, sign_apply_mul_cast, hvalue]

theorem neg_apply (s : Sign) (z : ℤ) : (-s).apply z = -s.apply z := by
  cases s with
  | positive => rfl
  | negative => exact (neg_neg z).symm

/-- Subtraction rounds the exact difference. -/
theorem value_sub {u v : UnpackedFloat} (hu : Canonical u) (hv : Canonical v)
    (hp : value u = number p)
    (hq : value v = number q) : value (u.sub Format.binary64 v) = number (rounded (p - q)) ∧
      Canonical (u.sub Format.binary64 v) := by
  have hshort := (hu.isShort hp).rounded_eq
  have hshort' := (hv.isShort hq).rounded_eq
  cases u with
  | infinity s => cases s <;> cases hp
  | notANumber => cases hp
  | zero s =>
      obtain rfl := number.inj hp
      rw [zero_sub, rounded_neg, hshort']
      cases v with
      | infinity t => cases t <;> cases hq
      | notANumber => cases hq
      | zero t =>
          obtain rfl := number.inj hq
          rw [neg_zero]
          cases s <;> cases t <;> exact ⟨rfl, trivial⟩
      | finite t m e hm =>
          obtain rfl := number.inj hq
          refine ⟨congrArg number ?_, hv⟩
          rw [neg_apply, Int.cast_neg, neg_mul]
  | finite s m e hm =>
      cases v with
      | infinity t => cases t <;> cases hq
      | notANumber => cases hq
      | zero t =>
          obtain rfl := number.inj hq
          rw [sub_zero, hshort]
          exact ⟨hp, hu⟩
      | finite t m' e' hm' =>
          obtain rfl := number.inj hp
          obtain rfl := number.inj hq
          have hdifference := value_normalize
            (s.apply (UnpackedFloat.decreaseExponent m e (min e e')).1 -
              t.apply (UnpackedFloat.decreaseExponent m' e' (min e e')).1) (min e e') .positive
          rwa [Int.cast_sub, sub_mul, value_decreaseExponent s m (min_le_left e e'),
            value_decreaseExponent t m' (min_le_right e e')] at hdifference

theorem value_unpack_pack_infinity (s : Sign) :
    value (UnpackedFloat.unpack Format.binary64 ((UnpackedFloat.infinity s).pack Format.binary64)) =
      (value (.infinity s)).toDouble := by
  cases s <;> rfl

theorem value_unpack_pack_notANumber :
    value (UnpackedFloat.unpack Format.binary64
      (UnpackedFloat.notANumber.pack Format.binary64)) = nan := rfl

theorem value_unpack_pack_sub {u v : UnpackedFloat} (hu : Canonical u) (hv : Canonical v) :
    value (UnpackedFloat.unpack Format.binary64 ((u.sub Format.binary64 v).pack Format.binary64)) =
      (value u - value v).toDouble := by
  by_cases hnumbers : (∃ p, value u = number p) ∧ ∃ q, value v = number q
  · obtain ⟨⟨p, hp⟩, q, hq⟩ := hnumbers
    obtain ⟨hvalue, hcanonical⟩ := value_sub hu hv hp hq
    rw [value_unpack_pack hcanonical hvalue, hp, hq, number_sub]
    rfl
  · cases u with
    | notANumber =>
        refine value_unpack_pack_notANumber.trans ?_
        exact congrArg toDouble (nan_sub (value v)).symm
    | infinity s =>
        cases v with
        | notANumber => cases s <;> rfl
        | zero _ | finite _ _ _ _ =>
            refine (value_unpack_pack_infinity s).trans ?_
            cases s <;> rfl
        | infinity t => cases s <;> cases t <;> rfl
    | zero s | finite s _ _ _ =>
        cases v with
        | notANumber => exact value_unpack_pack_notANumber
        | infinity t =>
            refine (value_unpack_pack_infinity (-t)).trans ?_
            cases t <;> rfl
        | zero t | finite t _ _ _ => exact absurd ⟨⟨_, rfl⟩, _, rfl⟩ hnumbers

/-- The difference of doubles is the double nearest to their exact difference. -/
theorem exact_sub (x y : Float) : exact (x - y) = (exact x - exact y).toDouble :=
  value_unpack_pack_sub (canonical_parts x) (canonical_parts y)

theorem Canonical.neg {u : UnpackedFloat} (hu : Canonical u) : Canonical u.neg := by
  cases u with
  | finite _ _ _ _ => exact hu
  | infinity _ | notANumber | zero _ => trivial

theorem value_neg (u : UnpackedFloat) : value u.neg = -value u := by
  cases u with
  | infinity s => cases s <;> rfl
  | notANumber => rfl
  | zero s => exact (congrArg number neg_zero).symm
  | finite s m e hm =>
      refine congrArg number ?_
      rw [neg_apply, Int.cast_neg, neg_mul]

/-- Adding is subtracting the negated number. -/
theorem add_eq_sub_neg (u v : UnpackedFloat) :
    u.add Format.binary64 v = u.sub Format.binary64 v.neg := by
  cases u with
  | notANumber => rfl
  | infinity s =>
      cases v with
      | infinity t => cases s <;> cases t <;> rfl
      | notANumber | zero _ | finite _ _ _ _ => rfl
  | zero s =>
      cases v with
      | infinity t | zero t | finite t _ _ _ => cases s <;> cases t <;> rfl
      | notANumber => rfl
  | finite s m e hm =>
      cases v with
      | infinity t => cases t <;> rfl
      | notANumber | zero _ => rfl
      | finite t m' e' hm' =>
          simp only [UnpackedFloat.add, UnpackedFloat.neg, UnpackedFloat.sub, neg_apply,
            sub_neg_eq_add]

/-- The sum of doubles is the double nearest to their exact sum. -/
theorem exact_add (x y : Float) : exact (x + y) = (exact x + exact y).toDouble := by
  change value (UnpackedFloat.unpack Format.binary64
    (((parts x).add Format.binary64 (parts y)).pack Format.binary64)) = _
  rw [add_eq_sub_neg, value_unpack_pack_sub (canonical_parts x) (canonical_parts y).neg, value_neg]
  have hneg (a b : Exact) : a - -b = a + b := by
    cases b with
    | number q =>
        change add a (number (- -q)) = add a (number q)
        rw [neg_neg]
    | plus | minus | nan => rfl
  rw [hneg]
  rfl

theorem exact_abs (x : Float) : exact x.abs = Scalar.abs (exact x) := by
  change value (UnpackedFloat.unpack Format.binary64 ((parts x).abs.pack Format.binary64)) =
    Scalar.abs (exact x)
  have hx := canonical_parts x
  have hbounded {q : ℚ} (h : exact x = number q) := (isShort_of_exact h).2
  unfold exact at *
  generalize parts x = u at *
  cases u with
  | infinity s => cases s <;> rfl
  | notANumber => rfl
  | zero s =>
      refine (value_unpack_pack (u := .zero .positive) trivial rfl).trans ?_
      rw [bounded_eq_number (by rw [abs_zero]; exact doubleLimit_pos)]
      exact (congrArg number abs_zero).symm
  | finite s m e hm =>
      have hcanonical : Canonical (.finite .positive m e hm) := hx
      refine (value_unpack_pack hcanonical rfl).trans ?_
      have habs : |((s.apply m : ℤ) : ℚ) * 2 ^ e| = m * 2 ^ e := abs_apply_mul s m e
      have hlimit := hbounded rfl
      rw [habs] at hlimit
      rw [bounded_eq_number (by rwa [abs_apply_mul .positive])]
      exact congrArg number habs.symm

theorem mul_apply (s t : Sign) (a b : ℤ) : (s * t).apply (a * b) = s.apply a * t.apply b := by
  cases s <;> cases t
  · exact (neg_mul_neg a b).symm
  · exact (neg_mul a b).symm
  · exact (mul_neg a b).symm
  · rfl

/-- Multiplication rounds the exact product. -/
theorem value_mul {u v : UnpackedFloat} (hu : Canonical u) (hv : Canonical v)
    (hp : value u = number p)
    (hq : value v = number q) : value (u.mul Format.binary64 v) = number (rounded (p * q)) ∧
      Canonical (u.mul Format.binary64 v) := by
  cases u with
  | infinity s => cases s <;> cases hp
  | notANumber => cases hp
  | zero s =>
      obtain rfl := number.inj hp
      rw [zero_mul, rounded_zero]
      cases v with
      | infinity t => cases t <;> cases hq
      | notANumber => cases hq
      | zero _ | finite _ _ _ _ => exact ⟨rfl, trivial⟩
  | finite s m e hm =>
      cases v with
      | infinity t => cases t <;> cases hq
      | notANumber => cases hq
      | zero t =>
          obtain rfl := number.inj hq
          rw [mul_zero, rounded_zero]
          exact ⟨rfl, trivial⟩
      | finite t m' e' hm' =>
          obtain rfl := number.inj hp
          obtain rfl := number.inj hq
          have hproduct : ((s * t).apply ((m * m' : ℕ) : ℤ) : ℚ) * 2 ^ (e + e') =
              (s.apply m * 2 ^ e) * (t.apply m' * 2 ^ e') := by
            rw [Nat.cast_mul, mul_apply, Int.cast_mul, zpow_add₀ two_ne_zero]
            ring
          rw [← hproduct]
          have hpos : 0 < m * m' := Nat.mul_pos hm hm'
          refine value_roundWithAccuracy (s * t) hpos ?_
          -- the exponents of a product leave room for the exponent of its unit
          obtain ⟨-, hleast, hnormal⟩ := hu
          obtain ⟨-, hleast', hnormal'⟩ := hv
          rw [unitExponent, abs_of_pos (mul_pos (by exact_mod_cast hpos) (two_zpow_pos _)),
            log_mul_zpow hpos]
          have hdigits : 2 ^ 52 ≤ m * m' ∨ e + e' ≤ -1074 := by
            rcases hnormal with h | h
            · exact .inl (h.trans (Nat.le_mul_of_pos_right m hm'))
            rcases hnormal' with h' | h'
            · exact .inl (h'.trans (Nat.le_mul_of_pos_left m' hm))
            · exact .inr (by omega)
          rcases hdigits with h | h
          · have hlog := (Nat.le_log2 hpos.ne').mpr h
            omega
          · omega

theorem value_infinity_mul (s : Sign) (q : ℚ) :
    value (.infinity s) * number q = infinityOf (s.apply 1 * q) ∧
    number q * value (.infinity s) = infinityOf (s.apply 1 * q) := by
  cases s with
  | positive =>
      simp only [Sign.apply, Int.cast_one, one_mul]
      exact ⟨rfl, rfl⟩
  | negative =>
      simp only [Sign.apply, Int.reduceNeg, Int.cast_neg, Int.cast_one, neg_mul, one_mul]
      exact ⟨rfl, rfl⟩

theorem infinityOf_zero : infinityOf 0 = nan := by simp [infinityOf]

/-- An infinity times a finite number has the sign of the product. -/
theorem infinityOf_sign (s t : Sign) {m : ℕ} (hm : 0 < m) (e : ℤ) :
    infinityOf (s.apply 1 * (t.apply m * 2 ^ e)) = value (.infinity (s * t)) := by
  have hpos : (0 : ℚ) < m * 2 ^ e := mul_pos (by exact_mod_cast hm) (two_zpow_pos e)
  rw [sign_apply_mul_cast]
  cases s <;> cases t <;> simp only [Sign.apply, Int.cast_neg, Int.cast_one,
    neg_mul, one_mul, neg_neg]
  · exact infinityOf_of_pos hpos
  · exact infinityOf_of_neg (neg_lt_zero.mpr hpos)
  · exact infinityOf_of_neg (neg_lt_zero.mpr hpos)
  · exact infinityOf_of_pos hpos

theorem mul_nan (x : Exact) : x * nan = nan := by cases x <;> rfl

theorem nan_mul (x : Exact) : nan * x = nan := by cases x <;> rfl

theorem sign_mul_comm (s t : Sign) : s * t = t * s := by cases s <;> cases t <;> rfl

/-- The product of doubles is the double nearest to their exact product. -/
theorem exact_mul (x y : Float) : exact (x * y) = (exact x * exact y).toDouble := by
  change value (UnpackedFloat.unpack Format.binary64
    (((parts x).mul Format.binary64 (parts y)).pack Format.binary64)) =
      (value (parts x) * value (parts y)).toDouble
  have hx := canonical_parts x
  have hy := canonical_parts y
  generalize parts x = u at *
  generalize parts y = v at *
  by_cases hnumbers : (∃ p, value u = number p) ∧ ∃ q, value v = number q
  · obtain ⟨⟨p, hp⟩, q, hq⟩ := hnumbers
    obtain ⟨hvalue, hcanonical⟩ := value_mul hx hy hp hq
    rw [value_unpack_pack hcanonical hvalue, hp, hq, number_mul]
    rfl
  have hnan : value
    (UnpackedFloat.unpack Format.binary64 (UnpackedFloat.notANumber.pack Format.binary64)) =
      toDouble nan := value_unpack_pack_notANumber
  cases u with
  | notANumber => exact hnan.trans (congrArg toDouble (nan_mul (value v)).symm)
  | infinity s =>
      cases v with
      | notANumber => exact hnan.trans (congrArg toDouble (mul_nan _).symm)
      | infinity t => cases s <;> cases t <;> rfl
      | zero t =>
          refine hnan.trans (congrArg toDouble ?_)
          rw [value, (value_infinity_mul s 0).1, mul_zero, infinityOf_zero]
      | finite t m e hm =>
          refine (value_unpack_pack_infinity (s * t)).trans (congrArg toDouble ?_)
          rw [value_finite, (value_infinity_mul s _).1, infinityOf_sign s t hm]
  | zero s =>
      cases v with
      | notANumber => exact hnan
      | infinity t =>
          refine hnan.trans (congrArg toDouble ?_)
          rw [value, (value_infinity_mul t 0).2, mul_zero, infinityOf_zero]
      | zero t | finite t _ _ _ => exact absurd ⟨⟨_, rfl⟩, _, rfl⟩ hnumbers
  | finite s m e hm =>
      cases v with
      | notANumber => exact hnan
      | infinity t =>
          refine (value_unpack_pack_infinity (s * t)).trans (congrArg toDouble ?_)
          rw [value_finite, (value_infinity_mul t _).2, infinityOf_sign t s hm, sign_mul_comm]
      | zero t | finite t _ _ _ => exact absurd ⟨⟨_, rfl⟩, _, rfl⟩ hnumbers

theorem isNaN_exact (x : Float) : Scalar.isNaN (exact x) = Scalar.isNaN x := by
  change decide (exact x = nan) = x.isNaN
  cases h : x.isNaN with
  | true => exact decide_eq_true (isNaN_iff.mp h)
  | false => exact decide_eq_false (isNaN_eq_false_iff.mp h)

theorem exact_max (x y : Float) : exact (Scalar.max x y) = Scalar.max (exact x) (exact y) := by
  simp only [Scalar.max, isNaN_exact, ← lt_iff_exact]
  split_ifs <;> rfl

/-- The double of a count that needs no rounding. -/
theorem exact_one : exact (Scalar.decimal 1 false 0) = number 1 := by
  have hparts : parts (Scalar.decimal 1 false 0) = .finite .positive (2 ^ 52) (-52) (by norm_num) :=
    rfl
  rw [exact, hparts, value_finite]
  norm_num [Sign.apply]

/-- Doubles are equal if they stand for the same number. -/
theorem beq_iff_exact {x y : Float} : (x == y) = true ↔ exact x = exact y ∧ exact x ≠ nan := by
  rw [beq_iff]
  constructor
  · rintro ⟨hx, hy, hplace⟩
    exact ⟨value_eq hx hy hplace, isNaN_eq_false_iff.mp hx⟩
  · rintro ⟨heq, hx⟩
    have hy := heq ▸ hx
    have hle := Exact.le_refl hx
    have hxy := le_iff.mp (le_iff_exact.mpr (heq ▸ hle : exact x ≤ exact y))
    have hyx := le_iff.mp (le_iff_exact.mpr (heq ▸ hle : exact y ≤ exact x))
    exact ⟨hxy.1, hxy.2.1, le_antisymm hxy.2.2 hyx.2.2⟩

end Binary64

end BranchBound
