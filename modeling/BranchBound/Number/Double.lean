import BranchBound.Number.Binary64
import BranchBound.Number.Scalar

/-!
# Double precision numbers

The number type over which the solver runs. Its operations are those of IEEE 754 binary64; the
fused multiplication, rounding to integral values and the order of all values are exact integer
computations on the bit patterns.
-/

namespace BranchBound

instance : Scalar Float where
  decimal := Float.ofScientific
  infinity := 1.0 / 0.0
  isNaN := Float.isNaN
  isInfinite := Float.isInf
  floor := Binary64.floor
  ceil := Binary64.ceil
  round := Binary64.round
  abs := Float.abs
  sqrt := Float.sqrt
  fusedMultiplyAdd := Binary64.fusedMultiplyAdd
  totalOrder a b := compare (Binary64.rank a) (Binary64.rank b)
  decideLT a b := inferInstanceAs (Decidable (a < b))
  decideLE a b := inferInstanceAs (Decidable (a ≤ b))

end BranchBound
