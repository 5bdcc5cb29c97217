/-!
# Doubles as exact numbers

A finite double is `± m * 2 ^ e` with natural `m`, so `a * b + c` is again an integer times a
power of two. It is computed without any error and rounded once, to the nearest double with ties
to the even one. If the exponent of a double is negative, its magnitude lies between two
neighbouring natural numbers, and an integral double near it takes one of them; otherwise the double
is integral already. Only `Float.toBits` and `Float.ofBits` connect the integers with the doubles.
-/

namespace BranchBound.Binary64

/-- The value `(-1) ^ negative * significand * 2 ^ exponent`. -/
structure Dyadic where
  negative : Bool
  significand : Nat
  exponent : Int
  deriving Repr, DecidableEq

/-- The exact value of a finite double. -/
def decode (x : Float) : Dyadic :=
  let bits : Nat := x.toBits.toNat
  let fraction : Nat := bits % Nat.pow 2 52
  let biased : Nat := bits / Nat.pow 2 52 % Nat.pow 2 11
  { negative := bits / Nat.pow 2 63 == 1
    significand := if biased == 0 then fraction else fraction + Nat.pow 2 52
    exponent := (if biased == 0 then 1 else (biased : Int)) - 1075 }

/-- The number of binary digits, zero for zero. -/
def bitLength (n : Nat) : Nat := if n == 0 then 0 else n.log2 + 1

/-- `n / 2 ^ shift` rounded to the nearest natural number, ties to the even one. -/
def shiftRightToEven (n shift : Nat) : Nat :=
  let quotient := n >>> shift
  let remainder := n - (quotient <<< shift)
  let twice := 2 * remainder
  let unit := 1 <<< shift
  if twice < unit then quotient
  else if unit < twice then quotient + 1
  else quotient + quotient % 2

/-- The magnitude bits of the double nearest to `significand * 2 ^ exponent`. The exponent of the
unit of the result is at least `-1074`, and it leaves at most 53 binary digits. A significand
which rounds up to the next power of two carries into the exponent field by itself. -/
def encodeMagnitude (significand : Nat) (exponent : Int) : Nat :=
  if significand == 0 then 0
  else
    let length : Int := bitLength significand
    let unit : Int := max (-1074) (exponent + length - 53)
    let rounded :=
      if unit ≤ exponent then significand <<< (exponent - unit).toNat
      else shiftRightToEven significand (unit - exponent).toNat
    let biased := (unit + 1074).toNat
    let bits := biased * Nat.pow 2 52 + rounded
    min bits (0x7ff * Nat.pow 2 52)

/-- The double nearest to an exact value, ties to the even one. -/
def encode (x : Dyadic) : Float :=
  let magnitude := encodeMagnitude x.significand x.exponent
  Float.ofBits (UInt64.ofNat ((if x.negative then Nat.pow 2 63 else 0) + magnitude))

/-- The exact product. -/
def Dyadic.mul (a b : Dyadic) : Dyadic :=
  { negative := a.negative != b.negative
    significand := a.significand * b.significand
    exponent := a.exponent + b.exponent }

/-- The numerator of a value over a common exponent which is not larger than its own. -/
def Dyadic.scaledTo (a : Dyadic) (exponent : Int) : Int :=
  let magnitude : Int := (a.significand <<< (a.exponent - exponent).toNat : Nat)
  if a.negative then -magnitude else magnitude

/-- The exact sum. A sum which vanishes is the positive zero, unless both summands are negative
zeros. -/
def Dyadic.add (a b : Dyadic) : Dyadic :=
  let exponent := min a.exponent b.exponent
  let total := a.scaledTo exponent + b.scaledTo exponent
  { negative := if total == 0 then a.negative && b.negative else decide (total < 0)
    significand := total.natAbs
    exponent := exponent }

/-- `a * b + c` with a single rounding. -/
def fusedMultiplyAdd (a b c : Float) : Float :=
  if !a.isFinite || !b.isFinite then a * b + c
  else if !c.isFinite then c
  else encode (((decode a).mul (decode b)).add (decode c))

/-- The place of a double in the order of all doubles by sign and bit pattern: negative numbers
that are not a number first, the negative zero before the positive one. -/
def rank (x : Float) : Int :=
  let bits := x.toBits.toNat
  if bits < Nat.pow 2 63 then (bits : Int) else Nat.pow 2 63 - 1 - (bits : Int)

/-- One of the two integral doubles next to a double: the one with the larger magnitude if the sign,
the part of the magnitude beyond the smaller one, and the unit in which that part is given say so. A
double without a fractional part, an infinity, and what is not a number stay as they are. -/
def toIntegral (up : Bool → Nat → Nat → Bool) (x : Float) : Float :=
  let exact := decode x
  if 0 ≤ exact.exponent then x
  else
    let unit := 1 <<< (-exact.exponent).toNat
    let quotient := exact.significand / unit
    let remainder := exact.significand % unit
    encode
      { negative := exact.negative
        significand := if up exact.negative remainder unit then quotient + 1 else quotient
        exponent := 0 }

/-- The largest integral double which is not larger. -/
def floor (x : Float) : Float :=
  toIntegral (fun negative remainder _ => negative && remainder != 0) x

/-- The least integral double which is not smaller. -/
def ceil (x : Float) : Float :=
  toIntegral (fun negative remainder _ => !negative && remainder != 0) x

/-- The nearest integral double, halves away from zero. -/
def round (x : Float) : Float :=
  toIntegral (fun _ remainder unit => unit ≤ 2 * remainder) x

end BranchBound.Binary64
