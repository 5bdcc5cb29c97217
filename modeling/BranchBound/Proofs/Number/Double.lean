import BranchBound.Number.Double
import BranchBound.Proofs.Number.Order
import BranchBound.Proofs.Tracking
import Mathlib

/-!
# Doubles as numbers of an order

Apart from the value which is not a number, doubles are compared by their signs, exponents and
significands, so they are linearly ordered up to the two zeros. A difference or a quotient is a
number only if its arguments are, and a double that is rounded to an integral one stays a number.
There are only finitely many doubles, so whatever makes bounds tighter comes to an end.
-/

namespace BranchBound.Binary64

open Float.Model (UnpackedFloat Format)

/-- The sign, the significand and the exponent of a double, as far as it has them. -/
def parts (x : Float) : UnpackedFloat := x.toModel.unpack

/-! ### The order -/

/-- Where a number stands among all numbers: by its sign, then by its exponent, then by its
significand. -/
def place : UnpackedFloat → ℤ ×ₗ ℤ ×ₗ ℤ
  | .infinity s => toLex (s.apply 2, toLex (0, 0))
  | .notANumber | .zero _ => toLex (0, toLex (0, 0))
  | .finite s m e _ => toLex (s.apply 1, toLex (s.apply e, s.apply m))

theorem compare_toLex (a b c a' b' c' : ℤ) :
    compare (toLex (a, toLex (b, c))) (toLex (a', toLex (b', c'))) =
      (compare a a').then ((compare b b').then (compare c c')) := by
  simp only [Prod.Lex.compare_def]
  rfl

theorem compare_neg (a b : ℤ) : compare (-a) (-b) = (compare a b).swap := by
  rw [← cmp_eq_compare, ← cmp_eq_compare, cmp_swap]
  exact StrictAnti.cmp_map_eq (f := fun z : ℤ => -z) (fun _ _ h => Int.neg_lt_neg h) a b

theorem compare_cast (m n : ℕ) : compare (m : ℤ) (n : ℤ) = compare m n := by
  rw [← cmp_eq_compare, ← cmp_eq_compare]
  exact (Nat.strictMono_cast (α := ℤ)).cmp_map_eq m n

/-- Numbers are compared by their places. -/
theorem compare_eq (u v : UnpackedFloat) :
    u.compare v = if u.isNaN || v.isNaN then none else some (compare (place u) (place v)) := by
  cases u with
  | notANumber => cases v <;> rfl
  | infinity s =>
      cases s <;> cases v with
      | notANumber => rfl
      | infinity t | zero t | finite t _ _ _ =>
          cases t <;> simp [UnpackedFloat.isNaN, compare_toLex, place] <;> rfl
  | zero s =>
      cases v with
      | notANumber => rfl
      | infinity t | zero t | finite t _ _ _ =>
          cases t <;> simp [UnpackedFloat.isNaN, compare_toLex, place] <;> rfl
  | finite s m e hm =>
      cases s <;> cases v with
      | notANumber => rfl
      | infinity t | zero t =>
          cases t <;> simp [UnpackedFloat.isNaN, compare_toLex, place] <;> rfl
      | finite t m' e' hm' =>
          cases t <;>
            simp [UnpackedFloat.isNaN, UnpackedFloat.compare, UnpackedFloat.Sign.apply, place,
              compare_toLex, compare_neg, compare_cast, Ordering.swap_then]
          rfl

theorem lt_iff {x y : Float} : x < y ↔ x.isNaN = false ∧ y.isNaN = false ∧
    place (parts x) < place (parts y) := by
  have hcompare : x < y ↔ ((parts x).compare (parts y) == some .lt) = true := decide_eq_true_iff
  rw [hcompare, compare_eq]
  change _ ↔ (parts x).isNaN = false ∧ (parts y).isNaN = false ∧ _
  cases (parts x).isNaN <;> cases (parts y).isNaN <;> simp [compare_lt_iff_lt]

theorem le_iff {x y : Float} : x ≤ y ↔ x.isNaN = false ∧ y.isNaN = false ∧
    place (parts x) ≤ place (parts y) := by
  have hcompare : x ≤ y ↔ ((parts x).compare (parts y)).any (·.isLE) = true := decide_eq_true_iff
  rw [hcompare, compare_eq]
  change _ ↔ (parts x).isNaN = false ∧ (parts y).isNaN = false ∧ _
  cases (parts x).isNaN <;> cases (parts y).isNaN <;>
    simp [Ordering.isLE_iff_ne_gt, compare_gt_iff_gt]

/-- No number stands after infinity. -/
theorem place_le (u : UnpackedFloat) : place u ≤ place (.infinity .positive) := by
  cases u with
  | infinity s =>
      cases s with
      | negative => exact (Prod.Lex.toLex_lt_toLex.mpr (.inl (by decide))).le
      | positive => exact le_rfl
  | notANumber | zero _ => exact (Prod.Lex.toLex_lt_toLex.mpr (.inl (by decide))).le
  | finite s m e hm =>
      refine (Prod.Lex.toLex_lt_toLex.mpr (.inl ?_)).le
      change s.apply 1 < 2
      cases s <;> decide

instance : Scalar.LinearlyOrdered Float where
  le_refl x hx := le_iff.mpr ⟨hx, hx, le_rfl⟩
  le_trans x y z hxy hyz := by
    obtain ⟨hx, -, hxy⟩ := le_iff.mp hxy
    obtain ⟨-, hz, hyz⟩ := le_iff.mp hyz
    exact le_iff.mpr ⟨hx, hz, hxy.trans hyz⟩
  le_of_lt x y h := by
    obtain ⟨hx, hy, hlt⟩ := lt_iff.mp h
    exact le_iff.mpr ⟨hx, hy, hlt.le⟩
  le_of_not_lt x y hx hy h :=
    le_iff.mpr ⟨hy, hx, not_lt.mp fun hlt => h (lt_iff.mpr ⟨hx, hy, hlt⟩)⟩
  number_of_le x y h := ⟨(le_iff.mp h).1, (le_iff.mp h).2.1⟩
  le_infinity x hx := le_iff.mpr ⟨hx, rfl, place_le _⟩
  number_neg_infinity := rfl
  not_lt_of_le x y h hlt := not_lt.mpr (le_iff.mp h).2.2 (lt_iff.mp hlt).2.2
  number_zero := rfl

/-- Doubles are equal if they are numbers that stand at the same place. -/
theorem beq_iff {x y : Float} : (x == y) = true ↔ x.isNaN = false ∧ y.isNaN = false ∧
    place (parts x) = place (parts y) := by
  have hcompare : (x == y) = ((parts x).compare (parts y) == some .eq) := rfl
  rw [hcompare, compare_eq]
  change _ ↔ (parts x).isNaN = false ∧ (parts y).isNaN = false ∧ _
  cases (parts x).isNaN <;> cases (parts y).isNaN <;> simp [compare_eq_iff_eq]

instance partialEquivBEq : PartialEquivBEq Float where
  symm h := by
    obtain ⟨hx, hy, hplace⟩ := beq_iff.mp h
    exact beq_iff.mpr ⟨hy, hx, hplace.symm⟩
  trans h h' := by
    obtain ⟨hx, -, hplace⟩ := beq_iff.mp h
    obtain ⟨-, hz, hplace'⟩ := beq_iff.mp h'
    exact beq_iff.mpr ⟨hx, hz, hplace.trans hplace'⟩

theorem isInf_iff {x : Float} : x.isInf = true ↔ ∃ s, parts x = .infinity s := by
  change (match parts x with | .infinity _ => true | _ => false) = true ↔ _
  cases parts x with
  | infinity s => simp
  | notANumber | zero _ | finite _ _ _ _ => simp

/-- Only the infinities stand where they stand. -/
theorem place_infinity {s : UnpackedFloat.Sign} {u : UnpackedFloat}
    (h : place u = place (.infinity s)) : ∃ s', u = .infinity s' := by
  have hfirst : (ofLex (place u)).1 = s.apply 2 := congrArg (fun p => (ofLex p).1) h
  cases u with
  | infinity s' => exact ⟨s', rfl⟩
  | notANumber | zero _ => cases s <;> cases hfirst
  | finite s' m e hm => cases s <;> cases s' <;> cases hfirst

/-- Equal doubles are infinite together, so what holds of all such numbers holds of doubles. -/
theorem equalInfinities : EqualInfinities Float := by
  intro x y h
  obtain ⟨-, -, hplace⟩ := beq_iff.mp h
  refine Bool.eq_iff_iff.mpr (isInf_iff.trans (Iff.trans ⟨?_, ?_⟩ isInf_iff.symm))
  · rintro ⟨s, hs⟩
    exact place_infinity (hs ▸ hplace.symm)
  · rintro ⟨s, hs⟩
    exact place_infinity (hs ▸ hplace)

/-! ### Numbers that are calculated -/

/-- Bits stand for no number if those of the exponent are all set, and one of the significand is. -/
theorem isNaN_unpack (b : BitVec 64) : (UnpackedFloat.unpack Format.binary64 b).isNaN =
    (decide (@UnpackedFloat.unpackExponent Format.binary64 b = -1#11) &&
      decide (@UnpackedFloat.unpackMantissa Format.binary64 b ≠ 0#52)) := by
  rw [UnpackedFloat.unpack]
  split
  · split <;> simp [*, UnpackedFloat.isNaN]
  · next hexponent =>
      rw [decide_eq_false hexponent, Bool.false_and]
      split
      · split <;> rfl
      · rfl

/-- What is packed into bits is a number if and only if it was one before. -/
theorem isNaN_unpack_pack (u : UnpackedFloat) :
    (UnpackedFloat.unpack Format.binary64 (u.pack Format.binary64)).isNaN = u.isNaN := by
  have hcomponents (s : UnpackedFloat.Sign) (e : BitVec 11) (m : BitVec 52) :
      (UnpackedFloat.unpack Format.binary64
        (UnpackedFloat.packComponents Format.binary64 s e m)).isNaN =
          (decide (e = -1#11) && decide (m ≠ 0#52)) := by
    rw [isNaN_unpack, UnpackedFloat.unpackExponent_packComponents,
      UnpackedFloat.unpackMantissa_packComponents]
  cases u with
  | infinity s | notANumber | zero s => exact hcomponents ..
  | finite s m e hm =>
      rw [UnpackedFloat.pack]
      dsimp only
      split
      · exact hcomponents ..
      · next hfits =>
          have hexponent (n : Nat) (hn : ¬2 ^ 11 ≤ n + 1) : BitVec.ofNat 11 n ≠ -1#11 := by
            intro heq
            have hnat := congrArg BitVec.toNat heq
            simp only [BitVec.toNat_ofNat, BitVec.neg_one_eq_allOnes, BitVec.toNat_allOnes] at hnat
            omega
          split
          · rw [hcomponents, decide_eq_false (hexponent _ hfits)]
            rfl
          · exact hcomponents ..

theorem isNaN_add (x y : Float) :
    (x + y).isNaN = ((parts x).add Format.binary64 (parts y)).isNaN := isNaN_unpack_pack _

theorem isNaN_sub (x y : Float) :
    (x - y).isNaN = ((parts x).sub Format.binary64 (parts y)).isNaN := isNaN_unpack_pack _

theorem isNaN_div (x y : Float) :
    (x / y).isNaN = ((parts x).div Format.binary64 (parts y)).isNaN := isNaN_unpack_pack _

theorem number_of_sub {x y : Float} (h : (x - y).isNaN = false) :
    x.isNaN = false ∧ y.isNaN = false := by
  rw [isNaN_sub] at h
  change (parts x).isNaN = false ∧ (parts y).isNaN = false
  cases hx : parts x with
  | notANumber =>
      rw [hx] at h
      cases h
  | infinity _ | zero _ | finite _ _ _ _ =>
      cases hy : parts y with
      | notANumber =>
          rw [hx, hy] at h
          cases h
      | infinity _ | zero _ | finite _ _ _ _ => exact ⟨rfl, rfl⟩

theorem number_of_div {x y : Float} (h : (x / y).isNaN = false) : x.isNaN = false := by
  rw [isNaN_div] at h
  change (parts x).isNaN = false
  cases hx : parts x with
  | notANumber =>
      rw [hx] at h
      cases h
  | infinity _ | zero _ | finite _ _ _ _ => rfl

/-- Rounding a dyadic number gives a number. -/
theorem isNaN_normalize (m e : ℤ) (s : UnpackedFloat.Sign) :
    (UnpackedFloat.normalize Format.binary64 m e s).isNaN = false := by
  have hround (s m e) : (UnpackedFloat.round Format.binary64 s m e).isNaN = false := by
    simp only [UnpackedFloat.round, UnpackedFloat.roundWithAccuracy]
    split <;> rfl
  unfold UnpackedFloat.normalize
  split
  · exact hround ..
  · rfl
  · exact hround ..

/-- The sum of a number and a finite one is a number. -/
theorem isNaN_add_finite (u : UnpackedFloat) {v : UnpackedFloat} (hv : v.isFinite = true) :
    (u.add Format.binary64 v).isNaN = u.isNaN := by
  cases v with
  | infinity _ | notANumber => cases hv
  | zero t =>
      cases u with
      | zero s => cases s <;> cases t <;> rfl
      | infinity _ | notANumber | finite _ _ _ _ => rfl
  | finite _ _ _ _ =>
      cases u with
      | finite _ _ _ _ => exact isNaN_normalize ..
      | infinity _ | notANumber | zero _ => rfl

/-- The difference of a number and a finite one is a number. -/
theorem isNaN_sub_finite (u : UnpackedFloat) {v : UnpackedFloat} (hv : v.isFinite = true) :
    (u.sub Format.binary64 v).isNaN = u.isNaN := by
  cases v with
  | infinity _ | notANumber => cases hv
  | zero t =>
      cases u with
      | zero s => cases s <;> cases t <;> rfl
      | infinity _ | notANumber | finite _ _ _ _ => rfl
  | finite _ _ _ _ =>
      cases u with
      | finite _ _ _ _ => exact isNaN_normalize ..
      | infinity _ | notANumber | zero _ => rfl

/-- The exponent and the significand are given by the bits below the one of the sign. -/
theorem unpackExponent_toNat (b : BitVec 64) :
    (@UnpackedFloat.unpackExponent Format.binary64 b).toNat = b.toNat / 2 ^ 52 % 2 ^ 11 := by
  simp [UnpackedFloat.unpackExponent, BitVec.extractLsb, BitVec.extractLsb'_toNat,
    Nat.shiftRight_eq_div_pow]

theorem unpackMantissa_toNat (b : BitVec 64) :
    (@UnpackedFloat.unpackMantissa Format.binary64 b).toNat = b.toNat % 2 ^ 52 := by
  simp [UnpackedFloat.unpackMantissa, BitVec.extractLsb, BitVec.extractLsb'_toNat]

theorem isNaN_ofBits (n : Nat) : (Float.ofBits (UInt64.ofNat n)).isNaN =
    (decide (n / 2 ^ 52 % 2 ^ 11 = 2 ^ 11 - 1) && decide (n % 2 ^ 52 ≠ 0)) := by
  have hexponent : @UnpackedFloat.unpackExponent Format.binary64
      (UInt64.ofNat n).toBitVec = -1#11 ↔ n / 2 ^ 52 % 2 ^ 11 = 2 ^ 11 - 1 := by
    rw [← BitVec.toNat_inj, unpackExponent_toNat]
    simp
    omega
  have hsignificand : @UnpackedFloat.unpackMantissa Format.binary64
      (UInt64.ofNat n).toBitVec = 0#52 ↔ n % 2 ^ 52 = 0 := by
    rw [← BitVec.toNat_inj, unpackMantissa_toNat]
    simp
  have hpacked : (Float.ofBits (UInt64.ofNat n)).isNaN =
      (UnpackedFloat.unpack Format.binary64 (UInt64.ofNat n).toBitVec).isNaN := isNaN_unpack_pack _
  rw [hpacked, isNaN_unpack]
  simp only [hexponent, ne_eq, hsignificand]

theorem encodeMagnitude_le (significand : Nat) (exponent : Int) :
    encodeMagnitude significand exponent ≤ 0x7ff * 2 ^ 52 := by
  simp only [encodeMagnitude]
  split
  · exact Nat.zero_le _
  · exact Nat.min_le_right ..

/-- What an exact value is rounded to is a number. -/
theorem isNaN_encode (x : Dyadic) : (encode x).isNaN = false := by
  have hmagnitude := encodeMagnitude_le x.significand x.exponent
  rw [encode, isNaN_ofBits]
  generalize encodeMagnitude x.significand x.exponent = magnitude at hmagnitude
  cases x.negative <;> simp <;> omega

theorem isNaN_toIntegral {x : Float} (hx : x.isNaN = false) (up : Bool → Nat → Nat → Bool) :
    (toIntegral up x).isNaN = false := by
  simp only [toIntegral]
  split
  · exact hx
  · exact isNaN_encode _

theorem isFinite_half : (parts (Scalar.decimal 5 true 1)).isFinite = true := rfl

instance : Scalar.Calculable Float where
  number_one := rfl
  number_of_sub _ _ := number_of_sub
  number_of_div _ _ := number_of_div
  number_floor x hx := by
    have hdifference : (x - Scalar.decimal 5 true 1).isNaN = false :=
      (isNaN_sub x _).trans ((isNaN_sub_finite (parts x) isFinite_half).trans hx)
    exact isNaN_toIntegral hdifference fun negative remainder _ => negative && remainder != 0
  number_ceil x hx := by
    have hsum : (x + Scalar.decimal 5 true 1).isNaN = false :=
      (isNaN_add x _).trans ((isNaN_add_finite (parts x) isFinite_half).trans hx)
    exact isNaN_toIntegral hsum fun negative remainder _ => !negative && remainder != 0

theorem isFinite_parts {x : Float} (hx : Scalar.isFinite x = true) : (parts x).isFinite = true := by
  rw [Scalar.isFinite, Bool.and_eq_true, Bool.not_eq_true', Bool.not_eq_true'] at hx
  change (parts x).isNaN = false ∧ (parts x).isInf = false at hx
  cases h : parts x with
  | infinity _ | notANumber => simp [h, UnpackedFloat.isNaN, UnpackedFloat.isInf] at hx
  | zero _ | finite _ _ _ _ => rfl

/-- The difference of a finite double to itself is a zero. -/
theorem sub_self_parts {u : UnpackedFloat} (hu : u.isFinite = true) :
    u.sub Format.binary64 u = .zero .positive := by
  cases u with
  | infinity _ | notANumber => cases hu
  | zero s => cases s <;> rfl
  | finite s m e hm =>
      simp only [UnpackedFloat.sub, sub_self]
      rfl

theorem parts_sub (x y : Float) : parts (x - y) = UnpackedFloat.unpack Format.binary64
    (((parts x).sub Format.binary64 (parts y)).pack Format.binary64) := rfl

instance : Scalar.Cancelling Float where
  lt_infinity x hx := by
    have hfinite := isFinite_parts hx
    rw [Scalar.isFinite, Bool.and_eq_true, Bool.not_eq_true'] at hx
    refine lt_iff.mpr ⟨hx.1, rfl, ?_⟩
    change place (parts x) < place (.infinity .positive)
    cases h : parts x with
    | infinity _ | notANumber =>
        rw [h] at hfinite
        cases hfinite
    | zero _ => exact Prod.Lex.toLex_lt_toLex.mpr (.inl (by decide))
    | finite s _ _ _ =>
        refine Prod.Lex.toLex_lt_toLex.mpr (.inl ?_)
        change s.apply 1 < 2
        cases s <;> decide
  le_of_beq x y h := by
    obtain ⟨hx, hy, hplace⟩ := beq_iff.mp h
    exact ⟨le_iff.mpr ⟨hx, hy, hplace.le⟩, le_iff.mpr ⟨hy, hx, hplace.ge⟩⟩
  sub_self_le x hx := by
    have hzero : parts (x - x) =
        UnpackedFloat.unpack Format.binary64
          (UnpackedFloat.pack Format.binary64 (.zero .positive)) := by
      rw [parts_sub, sub_self_parts (isFinite_parts hx)]
    have hnumber : (x - x).isNaN = false := by
      change (parts (x - x)).isNaN = false
      rw [hzero]
      rfl
    refine le_iff.mpr ⟨hnumber, rfl, ?_⟩
    rw [hzero]
    exact le_rfl

/-! ### The number of doubles -/

/-- There are only finitely many doubles. -/
instance finite_float : Finite Float := by
  refine .of_injective (fun x : Float => x.toBits.toFin) ?_
  rintro ⟨⟨a, ha⟩⟩ ⟨⟨b, hb⟩⟩ h
  cases UInt64.toFin_inj.mp (show a.toFin = b.toFin from h)
  rfl

/-! ### Whole doubles

Rounding down or up leaves a double which is whole already and encodes a natural number of at most
53 binary digits otherwise. Such a number is encoded without error, so what comes out is whole, or
infinite if the double was.
-/

/-- The rational number which a double stands for, as far as there is one. -/
def rational : UnpackedFloat → Option ℚ
  | .infinity _ | .notANumber => none
  | .zero _ => some 0
  | .finite s m e _ => some (s.apply m * 2 ^ e)

/-- A double that is infinite or stands for an integer. -/
def IsWhole (x : Float) : Prop :=
  x.isInf = true ∨ ∃ k : ℤ, rational (parts x) = some (k : ℚ)

/-! #### Reading the bits -/

theorem toNat_implicit (m : BitVec 52) : (1#1 ++ m).toNat = 2 ^ 52 + m.toNat := by
  have hor := Nat.two_pow_add_eq_or_of_lt m.isLt 1
  rw [Nat.mul_one] at hor
  rw [BitVec.toNat_append, hor]
  simp [Nat.shiftLeft_eq]

/-- Bits with an exponent between the least and the largest one stand for the significand with its
implicit leading bit, times a power of two. -/
theorem exists_rational_unpack {b : BitVec 64} (hpos : 0 < b.toNat / 2 ^ 52 % 2 ^ 11)
    (hlt : b.toNat / 2 ^ 52 % 2 ^ 11 < 2 ^ 11 - 1) : ∃ s : UnpackedFloat.Sign,
      rational (UnpackedFloat.unpack Format.binary64 b) =
        some ((s.apply (2 ^ 52 + b.toNat % 2 ^ 52 : ℕ) : ℚ) *
          2 ^ (((b.toNat / 2 ^ 52 % 2 ^ 11 : ℕ) : ℤ) - 1075)) := by
  have hlargest : ¬@UnpackedFloat.unpackExponent Format.binary64 b = -1#11 := by
    rw [← BitVec.toNat_inj, unpackExponent_toNat]
    simp only [BitVec.neg_one_eq_allOnes, BitVec.toNat_allOnes]
    omega
  have hleast : ¬@UnpackedFloat.unpackExponent Format.binary64 b = 0#11 := by
    rw [← BitVec.toNat_inj, unpackExponent_toNat]
    simp only [BitVec.toNat_ofNat]
    omega
  refine ⟨.ofBitVec (@UnpackedFloat.unpackSign Format.binary64 b), ?_⟩
  rw [UnpackedFloat.unpack]
  dsimp only
  rw [if_neg hlargest, if_neg hleast, rational, toNat_implicit, unpackExponent_toNat,
    unpackMantissa_toNat]
  rfl

/-- Bits that stand for a number are read back as they are. -/
theorem parts_ofBits {b : UInt64} (h : (Float.ofBits b).isNaN = false) :
    parts (Float.ofBits b) = UnpackedFloat.unpack Format.binary64 b.toBitVec := by
  have hnumber : @UnpackedFloat.isNaNBits Format.binary64 b.toBitVec = false := by
    have hpacked : (Float.ofBits b).isNaN =
        (UnpackedFloat.unpack Format.binary64 b.toBitVec).isNaN := isNaN_unpack_pack _
    rw [hpacked, isNaN_unpack] at h
    rw [UnpackedFloat.isNaNBits, ← h]
    simp
  change UnpackedFloat.unpack Format.binary64
    ((UnpackedFloat.unpack Format.binary64 b.toBitVec).pack Format.binary64) = _
  rw [UnpackedFloat.pack_unpack, hnumber]
  rfl

/-! #### Encoding whole numbers -/

/-- A natural number of at most 53 digits is shifted until it has 53 of them. -/
theorem shifted_digits {n : ℕ} (hpos : 0 < n) (hlt : n < 2 ^ 53) :
    n.log2 < 53 ∧ 2 ^ 52 ≤ n * 2 ^ (52 - n.log2) ∧ n * 2 ^ (52 - n.log2) < 2 ^ 53 := by
  have hlog : n.log2 < 53 := (Nat.log2_lt hpos.ne').mpr hlt
  have hlower : n.log2 + (52 - n.log2) = 52 := by omega
  have hupper : n.log2 + 1 + (52 - n.log2) = 53 := by omega
  refine ⟨hlog, ?_, ?_⟩
  · calc 2 ^ 52 = 2 ^ n.log2 * 2 ^ (52 - n.log2) := by rw [← pow_add, hlower]
      _ ≤ n * 2 ^ (52 - n.log2) := Nat.mul_le_mul_right _ (Nat.log2_self_le hpos.ne')
  · calc n * 2 ^ (52 - n.log2)
        < 2 ^ (n.log2 + 1) * 2 ^ (52 - n.log2) :=
          Nat.mul_lt_mul_of_pos_right Nat.lt_log2_self (Nat.two_pow_pos _)
      _ = 2 ^ 53 := by rw [← pow_add, hupper]

theorem encodeMagnitude_eq {n : ℕ} (hpos : 0 < n) (hlt : n < 2 ^ 53) :
    encodeMagnitude n 0 = (n.log2 + 1022) * 2 ^ 52 + n * 2 ^ (52 - n.log2) := by
  obtain ⟨hlog, -, hupper⟩ := shifted_digits hpos hlt
  have hlength : bitLength n = n.log2 + 1 := by simp [bitLength, hpos.ne']
  have hunit : max (-1074 : ℤ) (0 + (bitLength n : ℕ) - 53) = (n.log2 : ℤ) - 52 := by
    rw [hlength]
    omega
  have hle : (n.log2 : ℤ) - 52 ≤ 0 := by omega
  have hshift : (0 - ((n.log2 : ℤ) - 52)).toNat = 52 - n.log2 := by omega
  have hbiased : ((n.log2 : ℤ) - 52 + 1074).toNat = n.log2 + 1022 := by omega
  have hzero : ¬(n == 0) = true := by simpa using hpos.ne'
  rw [encodeMagnitude, if_neg hzero]
  dsimp only
  rw [hunit, if_pos hle, hshift, hbiased, Nat.shiftLeft_eq]
  have hpow : Nat.pow 2 52 = 2 ^ 52 := rfl
  rw [hpow]
  omega

theorem sign_apply_mul (s : UnpackedFloat.Sign) (a b : ℤ) : s.apply (a * b) = s.apply a * b := by
  cases s with
  | positive => rfl
  | negative => exact (neg_mul a b).symm

/-- A natural number of at most 53 digits is encoded without error. -/
theorem exists_rational_encode (negative : Bool) {n : ℕ} (hlt : n < 2 ^ 53) :
    ∃ k : ℤ, rational (parts (encode ⟨negative, n, 0⟩)) = some (k : ℚ) := by
  rcases Nat.eq_zero_or_pos n with rfl | hpos
  · exact ⟨0, by cases negative <;> rfl⟩
  · have hnumber := isNaN_encode ⟨negative, n, 0⟩
    obtain ⟨hlog, hlower, hupper⟩ := shifted_digits hpos hlt
    rw [encode] at hnumber ⊢
    rw [parts_ofBits hnumber]
    dsimp only
    rw [encodeMagnitude_eq hpos hlt]
    -- The sign is the topmost bit, so the exponent and the significand do not depend on it.
    generalize hbits : (if negative = true then Nat.pow 2 63 else 0) +
      ((n.log2 + 1022) * 2 ^ 52 + n * 2 ^ (52 - n.log2)) = bits
    have hsign : bits = 2 ^ 63 + ((n.log2 + 1022) * 2 ^ 52 + n * 2 ^ (52 - n.log2)) ∨
        bits = (n.log2 + 1022) * 2 ^ 52 + n * 2 ^ (52 - n.log2) := by
      rw [← hbits]
      cases negative
      · exact .inr (Nat.zero_add _)
      · exact .inl rfl
    have htoNat : (UInt64.ofNat bits).toBitVec.toNat = bits := by
      simp only [UInt64.toBitVec_ofNat', BitVec.toNat_ofNat]
      omega
    have hexponent : bits / 2 ^ 52 % 2 ^ 11 = n.log2 + 1023 := by omega
    have hsignificand : 2 ^ 52 + bits % 2 ^ 52 = n * 2 ^ (52 - n.log2) := by omega
    obtain ⟨s, hs⟩ := exists_rational_unpack (b := (UInt64.ofNat bits).toBitVec)
      (by rw [htoNat]; omega) (by rw [htoNat]; omega)
    rw [htoNat, hexponent, hsignificand] at hs
    have hpower : ((2 : ℚ) ^ (52 - n.log2)) * 2 ^ (((n.log2 + 1023 : ℕ) : ℤ) - 1075) = 1 := by
      rw [← zpow_natCast, ← zpow_add₀ two_ne_zero]
      have hexponents : ((52 - n.log2 : ℕ) : ℤ) + (((n.log2 + 1023 : ℕ) : ℤ) - 1075) = 0 := by
        omega
      rw [hexponents, zpow_zero]
    refine ⟨s.apply n, hs.trans (congrArg some ?_)⟩
    rw [Nat.cast_mul, sign_apply_mul, Int.cast_mul, mul_assoc, Int.cast_natCast, Nat.cast_pow,
      Nat.cast_ofNat, hpower, mul_one]

/-! #### Rounding -/

/-- A double with an exponent that is not negative is whole. -/
theorem isWhole_of_exponent {x : Float} (hx : x.isNaN = false) (h : 0 ≤ (decode x).exponent) :
    IsWhole x := by
  have hdecoded : (decode x).exponent = (if (x.toBits.toNat / 2 ^ 52 % 2 ^ 11 == 0) = true then 1
      else ((x.toBits.toNat / 2 ^ 52 % 2 ^ 11 : ℕ) : ℤ)) - 1075 := rfl
  have hexponent : 1075 ≤ x.toBits.toNat / 2 ^ 52 % 2 ^ 11 := by
    rw [hdecoded] at h
    split at h <;> omega
  have hbound : x.toBits.toNat / 2 ^ 52 % 2 ^ 11 < 2 ^ 11 := Nat.mod_lt _ (by decide)
  rcases Nat.lt_or_ge (x.toBits.toNat / 2 ^ 52 % 2 ^ 11) (2 ^ 11 - 1) with hlt | hge
  · obtain ⟨s, hs⟩ := exists_rational_unpack (b := x.toBits.toBitVec)
      (lt_of_lt_of_le (by decide) hexponent) hlt
    obtain ⟨e, he⟩ := Nat.exists_eq_add_of_le hexponent
    refine .inr ⟨s.apply (2 ^ 52 + x.toBits.toNat % 2 ^ 52 : ℕ) * 2 ^ e, hs.trans ?_⟩
    have hcast : ((x.toBits.toBitVec.toNat / 2 ^ 52 % 2 ^ 11 : ℕ) : ℤ) - 1075 = (e : ℤ) := by
      have : x.toBits.toBitVec.toNat = x.toBits.toNat := rfl
      omega
    rw [hcast, zpow_natCast]
    push_cast
    rfl
  · -- The largest exponent stands for infinity, since the double is a number.
    have hlargest : @UnpackedFloat.unpackExponent Format.binary64 x.toBits.toBitVec = -1#11 := by
      rw [← BitVec.toNat_inj, unpackExponent_toNat]
      have : x.toBits.toBitVec.toNat = x.toBits.toNat := rfl
      simp only [BitVec.neg_one_eq_allOnes, BitVec.toNat_allOnes]
      omega
    have hparts : (UnpackedFloat.unpack Format.binary64 x.toBits.toBitVec).isNaN = false := hx
    left
    change (UnpackedFloat.unpack Format.binary64 x.toBits.toBitVec).isInf = true
    rw [UnpackedFloat.unpack] at hparts ⊢
    dsimp only at hparts ⊢
    rw [if_pos hlargest] at hparts ⊢
    split at hparts
    · next hzero =>
      rw [if_pos hzero]
      rfl
    · cases hparts

theorem significand_lt (x : Float) : (decode x).significand < 2 ^ 53 := by
  have hdecoded : (decode x).significand = if (x.toBits.toNat / 2 ^ 52 % 2 ^ 11 == 0) = true
      then x.toBits.toNat % 2 ^ 52 else x.toBits.toNat % 2 ^ 52 + 2 ^ 52 := rfl
  have hfraction : x.toBits.toNat % 2 ^ 52 < 2 ^ 52 := Nat.mod_lt _ (by decide)
  rw [hdecoded]
  split <;> omega

/-- Rounding to an integral double gives a whole one. -/
theorem isWhole_toIntegral {x : Float} (hx : x.isNaN = false) (up : Bool → Nat → Nat → Bool) :
    IsWhole (toIntegral up x) := by
  simp only [toIntegral]
  split
  · next h => exact isWhole_of_exponent hx h
  · next h =>
    refine .inr (exists_rational_encode _ ?_)
    -- At least one digit is behind the point, so there is room for the carry.
    have hunit : 2 ≤ 1 <<< (-(decode x).exponent).toNat := by
      rw [Nat.one_shiftLeft]
      exact Nat.le_self_pow (by omega) 2
    have hquotient : (decode x).significand / (1 <<< (-(decode x).exponent).toNat) ≤
        (decode x).significand / 2 := Nat.div_le_div_left hunit (by decide)
    have := significand_lt x
    split <;> omega

theorem isWhole_ceil {x : Float} (hx : x.isNaN = false) : IsWhole (ceil x) :=
  isWhole_toIntegral hx _

theorem isWhole_floor {x : Float} (hx : x.isNaN = false) : IsWhole (floor x) :=
  isWhole_toIntegral hx _

end BranchBound.Binary64
