import BranchBound.Domain.Change

/-!
# Symmetries and orbital fixing

Classes of columns that are joined one after the other are kept as trees: every column has a parent,
the roots are their own parents, and two columns are in one class if they have one root. A parent is
never above its column, so the root of a class is its smallest column and a search for it ends.
Searches shorten the paths that they follow.

A generator of a symmetry group of the model is a permutation of its columns. The orbits of the
group are the classes of columns that its generators connect. When one column of an orbit of
binary columns is fixed to zero in every node, every column of the orbit can be: a solution with
one of them at one would be mapped onto a solution with the fixed column at one.
-/

namespace BranchBound

/-! ## Forests of columns -/

/-- The parents of the first columns. The other columns are their own parents. -/
structure Forest where
  parents : Array ColumnId
  parent_le : ∀ c, parents.getD c c ≤ c

namespace Forest

def parent (f : Forest) (c : ColumnId) : ColumnId := f.parents.getD c c

/-- Every column in a class of its own. -/
def alone (columnCount : Nat) : Forest :=
  ⟨Array.range columnCount, fun c => by
    rw [Array.getD_eq_getD_getElem?, Array.getElem?_range]
    split <;> exact Nat.le_refl _⟩

/-- Gives a column another parent. -/
def attach (f : Forest) (c p : ColumnId) (h : p ≤ c) : Forest :=
  ⟨f.parents.setIfInBounds c p, fun x => by
    have hx := f.parent_le x
    rw [Array.getD_eq_getD_getElem?] at hx ⊢
    rw [Array.getElem?_setIfInBounds]
    split
    · next heq =>
        subst heq
        split
        · exact h
        · exact Nat.le_refl _
    · exact hx⟩

theorem parent_le_self (f : Forest) (c : ColumnId) : f.parent c ≤ c := f.parent_le c

/-- A step of a search for a root. It attaches a column to the parent of its parent and goes on
there; a root is the result. -/
def climb (position : Forest × ColumnId) : (Forest × ColumnId) ⊕ (Forest × ColumnId) :=
  let (f, c) := position
  if f.parent c = c then .inr (f, c)
  else
    let next := f.parent (f.parent c)
    .inl (f.attach c next (Nat.le_trans (f.parent_le_self _) (f.parent_le_self c)), next)

/-- A search goes on at a smaller column. -/
theorem climb_lt {f f' : Forest} {c c' : ColumnId} (h : climb (f, c) = .inl (f', c')) : c' < c := by
  unfold climb at h
  by_cases hroot : f.parent c = c
  · simp [hroot] at h
  · simp only [hroot, if_false, Sum.inl.injEq, Prod.mk.injEq] at h
    rw [← h.2]
    exact Nat.lt_of_le_of_lt (f.parent_le_self _) (Nat.lt_of_le_of_ne (f.parent_le_self c) hroot)

/-- Searches for the root of a column. -/
def find (f : Forest) (c : ColumnId) : Forest × ColumnId :=
  match _h : climb (f, c) with
  | .inl (f', c') => find f' c'
  | .inr result => result
termination_by c
decreasing_by exact climb_lt _h

/-- Joins the classes of two columns: the larger root is attached to the smaller one. -/
def join (f : Forest) (a b : ColumnId) : Forest :=
  let (f, first) := f.find a
  let (f, second) := f.find b
  if first = second then f
  else f.attach (max first second) (min first second)
    (Nat.le_trans (Nat.min_le_left ..) (Nat.le_max_left ..))

/-- Lists a column at the position of its root. -/
def place (state : Forest × Array (List ColumnId)) (c : ColumnId) :
    Forest × Array (List ColumnId) :=
  let (f, root) := state.1.find c
  (f, state.2.modify root (· ++ [c]))

/-- The columns of every class at the position of its root. -/
def classes (f : Forest) (columnCount : Nat) : List (List ColumnId) :=
  ((List.range columnCount).foldl place (f, Array.replicate columnCount [])).2.toList

end Forest

/-! ## Symmetries -/

/-- The generators of a symmetry group with the orbits of at least two columns. -/
structure Symmetry where
  generators : List (List ColumnId)
  orbits : List (List ColumnId)
  deriving Repr

namespace Symmetry

/-- Whether every image is a column that no image before it is. -/
def allNew (columnCount : Nat) (seen : Array Bool) : List ColumnId → Bool
  | [] => true
  | image :: rest =>
    image < columnCount && !seen.getD image false &&
      allNew columnCount (seen.setIfInBounds image true) rest

/-- Whether a list maps the first columns one to one onto themselves. -/
def isPermutation (columnCount : Nat) (generator : List ColumnId) : Bool :=
  generator.length == columnCount &&
    allNew columnCount (Array.replicate columnCount false) generator

/-- Joins every column with its image. -/
def joinAll (classes : Forest) (generator : List ColumnId) : Forest :=
  generator.zipIdx.foldl (fun classes (image, c) => classes.join c image) classes

/-- The symmetries of a list of generators. Lists which are not permutations of all columns are
left out. -/
def ofGenerators (columnCount : Nat) (generators : List (List ColumnId)) : Symmetry :=
  let kept := generators.filter (isPermutation columnCount)
  let classes := (kept.foldl joinAll (.alone columnCount)).classes columnCount
  ⟨kept, classes.filter fun orbit => 1 < orbit.length⟩

variable {α : Type} [Scalar α]

/-- Fixes the columns of an orbit to zero whose upper bound is positive, counting them. -/
def fixColumns (state : Nat × Domain α) (c : ColumnId) : Checked (Nat × Domain α) := do
  let (fixed, d) := state
  if 0 < (← d.boundValue .upper c) then
    return (fixed + 1, ← d.changeBound (.atMost c 0) .unknown)
  else return (fixed, d)

/-- Fixes the columns of an orbit of binary columns to zero if one of them is. -/
def fixOrbit (state : Nat × Domain α) (orbit : List ColumnId) : Checked (Nat × Domain α) := do
  let (_, d) := state
  if !(← allHold d.isBinary orbit) then return state
  let hasZero ← someHolds (fun c => do return (← d.boundValue .upper c) == 0) orbit
  if hasZero then orbit.foldlM fixColumns state else return state

/-- Fixes columns to zero that are symmetric to one at zero. Returns the number of columns for
which a change was made. -/
def orbitalFixing (s : Symmetry) (d : Domain α) : Checked (Nat × Domain α) :=
  s.orbits.foldlM fixOrbit (0, d)

end Symmetry

end BranchBound
