import BranchBound.Number.Binary64

/-!
# Doubles as decimals

A finite double `m * 2 ^ q` is the nearest double to every real number of a small interval around
it. `Decimal.shortest` finds the decimal fraction with the fewest digits in that interval and, of
those, one nearest to the double. Everything is computed with natural numbers: the double and the
ends of its interval are brought over one denominator, and for one digit, two digits, and so on
the two neighbours of the double on that decimal grid are tested. `Decimal.fixed` rounds a double to
a given number of decimal places instead: to the nearest decimal, a tie to the even last digit.
-/

namespace BranchBound.Decimal

/-- A decimal number `digits * 10 ^ exponent`. -/
structure Digits where
  digits : Nat
  exponent : Int
  deriving Repr, DecidableEq

/-- The ends of the interval of real numbers that read back as a double, and the double itself,
over one denominator. The ends belong to the interval exactly if the significand is even. -/
structure Neighbourhood where
  low : Nat
  value : Nat
  high : Nat
  denominator : Nat
  closed : Bool
  deriving Repr

/-- The neighbourhood of `m * 2 ^ q` for a positive significand. Just above a power of two the
double below is only half as far away. -/
def neighbourhood (m : Nat) (q : Int) : Neighbourhood :=
  let narrow := m == Nat.pow 2 52 && q > -1074
  let scale := Nat.pow 2 (q - 2).toNat
  { low := (4 * m - if narrow then 1 else 2) * scale
    value := 4 * m * scale
    high := (4 * m + 2) * scale
    denominator := Nat.pow 2 (2 - q).toNat
    closed := m % 2 == 0 }

/-- Whether the fraction `n / d` lies in the neighbourhood. -/
def Neighbourhood.contains (w : Neighbourhood) (n d : Nat) : Bool :=
  let x := n * w.denominator
  if w.closed then w.low * d ≤ x && x ≤ w.high * d else w.low * d < x && x < w.high * d

/-- The grid number of the neighbourhood's centre on the grid of multiples of `10 ^ exponent`,
if a neighbour on that grid lies in the neighbourhood: the nearer one, the upper one of two
equally near ones. -/
def Neighbourhood.onGrid? (w : Neighbourhood) (exponent : Int) : Option Nat :=
  let up := Nat.pow 10 exponent.toNat
  let down := Nat.pow 10 (-exponent).toNat
  let below := w.value * down / (w.denominator * up)
  let above := below + 1
  let lowFits := below != 0 && w.contains (below * up) down
  let highFits := w.contains (above * up) down
  if lowFits && highFits then
    let twice := 2 * w.value * down
    let middle := (below + above) * (w.denominator * up)
    some (if twice < middle then below else above)
  else if lowFits then some below
  else if highFits then some above
  else none

/-- The least `k` with `n < 10 ^ k * d`, searched up to a limit. -/
def magnitude (n d : Nat) : Int :=
  let digitsOf (x : Nat) : Int := (Nat.toDigits 10 x).length
  let guess := digitsOf n - digitsOf d
  let fits (k : Int) : Bool :=
    n * Nat.pow 10 (-k).toNat < d * Nat.pow 10 k.toNat
  if fits guess then guess else guess + 1

/-- Tries grids of one more digit each, starting at a given exponent. -/
def Neighbourhood.search (w : Neighbourhood) : Nat → Int → Digits
  | 0, exponent => ⟨0, exponent⟩
  | steps + 1, exponent =>
    match w.onGrid? exponent with
    | some n => ⟨n, exponent⟩
    | none => w.search steps (exponent - 1)

/-- The same number without trailing zeros. -/
def Digits.trimmed (fuel : Nat) (x : Digits) : Digits :=
  match fuel with
  | 0 => x
  | fuel + 1 =>
    if x.digits != 0 && x.digits % 10 == 0 then trimmed fuel ⟨x.digits / 10, x.exponent + 1⟩ else x

/-- The shortest decimal that reads back as `m * 2 ^ q`. Seventeen digits always suffice. -/
def shortest (m : Nat) (q : Int) : Digits :=
  if m == 0 then ⟨0, 0⟩
  else
    let w := neighbourhood m q
    (w.search 20 (magnitude w.value w.denominator)).trimmed 20

/-- A natural number times a power of ten in positional notation, without an exponent. -/
def Digits.positional (x : Digits) : String :=
  let ds := Nat.toDigits 10 x.digits
  if x.digits == 0 then "0"
  else if 0 ≤ x.exponent then String.ofList (ds ++ List.replicate x.exponent.toNat '0')
  else
    let places := (-x.exponent).toNat
    let padded := List.replicate (places + 1 - ds.length) '0' ++ ds
    let whole := padded.take (padded.length - places)
    let fraction := padded.drop (padded.length - places)
    String.ofList whole ++ "." ++ String.ofList fraction

/-- A double in positional notation with the fewest digits that read back. -/
def text (x : Float) : String :=
  if x.isNaN then "NaN"
  else
    let sign := if (Binary64.decode x).negative then "-" else ""
    if x.isInf then sign ++ "inf"
    else
      let d := Binary64.decode x
      sign ++ (shortest d.significand d.exponent).positional

/-- `n / d` rounded to the nearest natural number, ties to the even one. -/
def roundQuotientToEven (n d : Nat) : Nat :=
  let quotient := n / d
  let twice := 2 * (n % d)
  if twice < d then quotient
  else if d < twice then quotient + 1
  else quotient + quotient % 2

/-- A double with the given positive number of decimal places. -/
def fixed (places : Nat) (x : Float) : String :=
  if x.isNaN then "NaN"
  else
    let d := Binary64.decode x
    let sign := if d.negative then "-" else ""
    if x.isInf then sign ++ "inf"
    else
      let scaled := roundQuotientToEven
        (d.significand * Nat.pow 2 d.exponent.toNat * Nat.pow 10 places)
        (Nat.pow 2 (-d.exponent).toNat)
      let whole := Nat.toDigits 10 (scaled / Nat.pow 10 places)
      let fraction := Nat.toDigits 10 (scaled % Nat.pow 10 places)
      let padding := List.replicate (places - fraction.length) '0'
      sign ++ String.ofList whole ++ "." ++ String.ofList (padding ++ fraction)

end BranchBound.Decimal
