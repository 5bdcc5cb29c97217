/-!
# Numbers to calculate with

Every part of the library that calculates is written over a type of numbers `α` with an instance
of `Scalar`. The solver runs over double precision numbers; the same definitions, read over the
rationals with two infinities, say what it does when nothing is rounded.

The operations of the class are those which differ between the number types. What can be said
through them (the larger of two numbers, a sum from left to right, the order which puts
not-a-number last) is defined once below.
-/

namespace BranchBound

/-- A number type with infinities and a value which is not a number. Comparisons with the latter
are false. -/
class Scalar (α : Type) extends Add α, Sub α, Mul α, Div α, Neg α, LT α, LE α, BEq α where
  /-- The number nearest to the decimal fraction `m * 10 ^ e`, or `m / 10 ^ e` when the flag is
  set. -/
  decimal : Nat → Bool → Nat → α
  /-- The number above every finite one. -/
  infinity : α
  isNaN : α → Bool
  isInfinite : α → Bool
  /-- The largest integral number which is not larger. -/
  floor : α → α
  /-- The least integral number which is not smaller. -/
  ceil : α → α
  /-- The nearest integral number, halves away from zero. -/
  round : α → α
  abs : α → α
  sqrt : α → α
  /-- `fusedMultiplyAdd a b c` is `a * b + c` rounded once. -/
  fusedMultiplyAdd : α → α → α → α
  /-- An order on all values, in which only identical values are equal. -/
  totalOrder : α → α → Ordering
  decideLT : (a b : α) → Decidable (a < b)
  decideLE : (a b : α) → Decidable (a ≤ b)

namespace Scalar

variable {α : Type} [Scalar α]

instance (priority := low) : OfScientific α := ⟨decimal⟩

instance (priority := low) (n : Nat) : OfNat α n := ⟨decimal n false 0⟩

instance (a b : α) : Decidable (a < b) := decideLT a b

instance (a b : α) : Decidable (a ≤ b) := decideLE a b

/-- The number of things counted by `n`. -/
def ofCount (n : Nat) : α := decimal n false 0

/-- The zero which leaves every number as it is when added to it. -/
def negativeZero : α := -0

def isFinite (a : α) : Bool := !isNaN a && !isInfinite a

/-- The larger number; the other one if one is not a number. -/
def max (a b : α) : α :=
  if isNaN a then b else if isNaN b then a else if a < b then b else a

/-- The smaller number; the other one if one is not a number. -/
def min (a b : α) : α :=
  if isNaN a then b else if isNaN b then a else if b < a then b else a

/-- The sum of the entries, added from left to right. -/
def sum (xs : List α) : α := xs.foldl (· + ·) negativeZero

/-- Whether two values are identical, which tells the two zeros apart. -/
def identical (a b : α) : Bool := totalOrder a b == .eq

/-- The order of the numbers with not-a-number after all of them and equal to itself; the two
zeros are equal. -/
def sortOrder (a b : α) : Ordering :=
  if a < b then .lt
  else if b < a then .gt
  else match isNaN a, isNaN b with
    | true, true => .eq
    | true, false => .gt
    | false, true => .lt
    | false, false => .eq

/-- The order from the largest number to the smallest one, with not-a-number after all of them and
equal to itself. -/
def fallingOrder (a b : α) : Ordering :=
  match isNaN a, isNaN b with
  | true, true => .eq
  | true, false => .gt
  | false, true => .lt
  | false, false => totalOrder b a

/-- The comparison of two numbers, absent if one is not a number. -/
def compare? (a b : α) : Option Ordering :=
  if a < b then some .lt
  else if b < a then some .gt
  else if a == b then some .eq
  else none

/-- Whether a number is integral up to a tolerance. -/
def isIntegral (tolerance a : α) : Bool := abs (a - round a) ≤ tolerance

end Scalar

end BranchBound
