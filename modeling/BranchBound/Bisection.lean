/-!
# Looking up by bisection

In a list of increasing numbers an entry is found by halving the part of the list that may hold
it. `Bisection.contains` then agrees with membership; in other lists it may miss an entry, but
never finds one that is not there.
-/

namespace BranchBound.Bisection

/-- The only position among the `size` ones from `base` onwards at which a number can be in an
increasing table. -/
def locate (table : Array Nat) (x base size : Nat) : Nat :=
  if size ≤ 1 then base
  else
    let half := size / 2
    let isAbove := table[base + half]?.any fun entry => decide (x < entry)
    locate table x (if isAbove then base else base + half) (size - half)
termination_by size
decreasing_by omega

/-- Whether bisection finds a number in a list. -/
def contains (xs : List Nat) (x : Nat) : Bool :=
  xs[locate xs.toArray x 0 xs.length]? == some x

theorem mem_of_contains {xs : List Nat} {x : Nat} (h : contains xs x = true) : x ∈ xs :=
  List.mem_of_getElem? (beq_iff_eq.1 h)

/-- The position of an entry of an increasing list stays within the part that is searched. -/
theorem locate_eq {xs : List Nat} (increasing : xs.Pairwise (· < ·)) (i base size : Nat)
    (hi : i < xs.length) (low : base ≤ i) (high : i < base + size)
    (fits : base + size ≤ xs.length) : locate xs.toArray xs[i] base size = i := by
  induction size using Nat.strongRecOn generalizing base with
  | ind size ih =>
    unfold locate
    split
    · omega
    · have inside : base + size / 2 < xs.length := by omega
      have ordered := List.pairwise_iff_getElem.1 increasing
      by_cases before : i < base + size / 2
      · have := ordered i (base + size / 2) hi inside before
        simpa [inside, this] using ih (size - size / 2) (by omega) base low (by omega) (by omega)
      · have : xs[base + size / 2] ≤ xs[i] := by
          by_cases same : base + size / 2 = i
          · simp [same]
          · exact Nat.le_of_lt (ordered (base + size / 2) i inside hi (by omega))
        simpa [inside, Nat.not_lt.2 this] using
          ih (size - size / 2) (by omega) (base + size / 2) (by omega) (by omega) (by omega)

/-- In an increasing list bisection finds exactly the entries. -/
theorem contains_iff {xs : List Nat} (increasing : xs.Pairwise (· < ·)) (x : Nat) :
    contains xs x = true ↔ x ∈ xs := by
  refine ⟨mem_of_contains, fun h => ?_⟩
  obtain ⟨i, hi, rfl⟩ := List.getElem_of_mem h
  simp [contains, locate_eq increasing i 0 xs.length hi (by omega) (by omega) (by omega)]

end BranchBound.Bisection
