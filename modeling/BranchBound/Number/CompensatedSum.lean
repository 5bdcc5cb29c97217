import BranchBound.Number.Scalar

/-!
# Compensated sums

A sum of thousands of terms in plain floating point loses enough precision to report a feasible
row as infeasible. A `CompensatedSum` is an unevaluated sum `hi + lo`, where `lo` collects the
rounding errors of the operations on `hi`. When nothing is rounded, `lo` stays zero and the value
is the exact result.
-/

namespace BranchBound

/-- The unevaluated sum `hi + lo`. -/
structure CompensatedSum (α : Type) where
  hi : α
  lo : α
  deriving Repr

namespace CompensatedSum

variable {α : Type} [Scalar α]

/-- The rounded sum of two numbers together with its rounding error. -/
def twoSum (a b : α) : α × α :=
  let sum := a + b
  let bVirtual := sum - a
  let aVirtual := sum - bVirtual
  (sum, (a - aVirtual) + (b - bVirtual))

/-- The rounded product of two numbers together with its rounding error. -/
def twoProduct (a b : α) : α × α :=
  let product := a * b
  (product, Scalar.fusedMultiplyAdd a b (-product))

def ofScalar (a : α) : CompensatedSum α := ⟨a, 0⟩

def zero : CompensatedSum α := ofScalar 0

instance : Inhabited (CompensatedSum α) := ⟨zero⟩

def value (s : CompensatedSum α) : α := s.hi + s.lo

def isFinite (s : CompensatedSum α) : Bool := Scalar.isFinite s.hi

/-- The same sum with the rounding error of its two parts moved into `lo`. -/
def renormalized (s : CompensatedSum α) : CompensatedSum α :=
  let (hi, lo) := twoSum s.hi s.lo
  ⟨hi, lo⟩

def neg (s : CompensatedSum α) : CompensatedSum α := ⟨-s.hi, -s.lo⟩

/-- Adds a number. An infinite operand makes the sum what plain addition makes of it. -/
def add (s : CompensatedSum α) (a : α) : CompensatedSum α :=
  if !Scalar.isFinite a || !s.isFinite then ⟨s.hi + a, 0⟩
  else
    let (sum, error) := twoSum s.hi a
    ⟨sum, s.lo + error⟩

def sub (s : CompensatedSum α) (a : α) : CompensatedSum α := s.add (-a)

/-- Adds another compensated sum. -/
def addSum (s t : CompensatedSum α) : CompensatedSum α :=
  if !t.isFinite || !s.isFinite then ⟨s.hi + t.hi, 0⟩
  else
    let (sum, error) := twoSum s.hi t.hi
    renormalized ⟨sum, s.lo + (error + t.lo)⟩

def subSum (s t : CompensatedSum α) : CompensatedSum α := s.addSum t.neg

def mul (s : CompensatedSum α) (a : α) : CompensatedSum α :=
  if !Scalar.isFinite a || !s.isFinite then ⟨s.hi * a, 0⟩
  else
    let (product, error) := twoProduct s.hi a
    renormalized ⟨product, s.lo * a + error⟩

/-- Divides by a number; the remainder of the division of `hi` is divided once more. -/
def div (s : CompensatedSum α) (a : α) : CompensatedSum α :=
  let quotient := s.hi / a
  if !Scalar.isFinite quotient then ⟨quotient, 0⟩
  else
    let (product, error) := twoProduct quotient a
    let remainder := ((s.hi - product) - error) + s.lo
    renormalized ⟨quotient, remainder / a⟩

/-- The comparison through the sign of the difference, absent if that is not a number. -/
def compare? (s t : CompensatedSum α) : Option Ordering :=
  Scalar.compare? (s.subSum t).value 0

/-- Whether two sums have the same value. -/
def sameValue (s t : CompensatedSum α) : Bool := s.value == t.value

def lt (s t : CompensatedSum α) : Bool := s.compare? t == some .lt

def gt (s t : CompensatedSum α) : Bool := s.compare? t == some .gt

def ge (s t : CompensatedSum α) : Bool :=
  match s.compare? t with
  | some .gt | some .eq => true
  | _ => false

/-- The product of two numbers as a compensated sum. -/
def product (a b : α) : CompensatedSum α := (ofScalar a).mul b

end CompensatedSum

end BranchBound
