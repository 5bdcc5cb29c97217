import BranchBound.Iteration
import BranchBound.Symmetry
import Mathlib

/-!
# Orbits of generators

The forest that is made from the generators of a group keeps the classes of columns which the
generators connect. Searches shorten paths on the way, but they change no root: a column is attached
to an ancestor. A join attaches one root to another one, which merges their classes and no others.
So two columns have one root if and only if they are equivalent under all pairs that were joined,
and the classes are the orbits of the group that the generators generate.
-/

namespace BranchBound

open Relation

namespace Forest

variable {f : Forest} {a b c p x y : ColumnId}

/-- The root of the tree of a column. -/
def root (f : Forest) (c : ColumnId) : ColumnId :=
  if _h : f.parent c = c then c else root f (f.parent c)
termination_by c
decreasing_by exact Nat.lt_of_le_of_ne (f.parent_le_self c) _h

theorem root_eq_self (h : f.parent c = c) : f.root c = c := by
  rw [root, dif_pos h]

@[simp] theorem root_parent (f : Forest) (c : ColumnId) : f.root (f.parent c) = f.root c := by
  by_cases h : f.parent c = c
  · rw [h]
  · rw [root.eq_def f c, dif_neg h]

theorem root_le (f : Forest) (c : ColumnId) : f.root c ≤ c := by
  induction c using Nat.strong_induction_on with
  | _ c ih =>
      by_cases h : f.parent c = c
      · rw [root_eq_self h]
      · have hlt := Nat.lt_of_le_of_ne (f.parent_le_self c) h
        rw [← root_parent]
        exact (ih _ hlt).trans hlt.le

@[simp] theorem parent_root (f : Forest) (c : ColumnId) : f.parent (f.root c) = f.root c := by
  induction c using Nat.strong_induction_on with
  | _ c ih =>
      by_cases h : f.parent c = c
      · rw [root_eq_self h, h]
      · rw [← root_parent]
        exact ih _ (Nat.lt_of_le_of_ne (f.parent_le_self c) h)

@[simp] theorem root_root (f : Forest) (c : ColumnId) : f.root (f.root c) = f.root c :=
  root_eq_self (parent_root f c)

/-! ### Attaching a column -/

/-- The number of columns with a parent of their own. -/
def size (f : Forest) : Nat := f.parents.size

@[simp] theorem size_attach (h : p ≤ c) : (f.attach c p h).size = f.size :=
  Array.size_setIfInBounds ..

theorem parent_attach (hc : c < f.size) (h : p ≤ c) (x : ColumnId) :
    (f.attach c p h).parent x = if x = c then p else f.parent x := by
  unfold parent attach
  rw [Array.getD_eq_getD_getElem?, Array.getElem?_setIfInBounds, Array.getD_eq_getD_getElem?]
  by_cases hx : x = c
  · rw [if_pos hx.symm, if_pos hx, if_pos (show c < f.parents.size from hc)]
    rfl
  · rw [if_neg fun heq => hx heq.symm, if_neg hx]

theorem lt_size_of_parent_ne (h : f.parent c ≠ c) : c < f.size := by
  by_contra hge
  apply h
  unfold parent
  rw [Array.getD_eq_getD_getElem?, Array.getElem?_eq_none (Nat.le_of_not_lt hge)]
  rfl

/-- What is below a column has the root of the parent it is attached to; the other columns keep
their roots. -/
theorem root_attach (hc : c < f.size) (hp : p < c) (hroots : f.root p = f.root c ∨ f.parent c = c)
    (x : ColumnId) :
    (f.attach c p hp.le).root x = if f.root x = f.root c then f.root p else f.root x := by
  induction x using Nat.strong_induction_on with
  | _ x ih =>
      have hparent := parent_attach hc hp.le x
      by_cases hx : x = c
      · subst hx
        rw [if_pos rfl] at hparent
        rw [if_pos rfl, ← root_parent, hparent, ih p hp, ite_self]
      · rw [if_neg hx] at hparent
        by_cases hself : f.parent x = x
        · rw [root_eq_self (hparent.trans hself), root_eq_self hself]
          split
          · next hroot =>
              rcases hroots with hsame | hc
              · rw [hsame, ← hroot]
              · exact absurd (hroot.trans (root_eq_self hc)) hx
          · rfl
        · rw [← root_parent, hparent,
            ih _ (Nat.lt_of_le_of_ne (f.parent_le_self x) hself), root_parent]

/-! ### Searching and joining -/

/-- A step of a search keeps the roots and the columns. -/
theorem climb_inl {f' : Forest} {c' : ColumnId} (h : climb (f, c) = .inl (f', c')) :
    f'.root = f.root ∧ f'.size = f.size ∧ f'.root c' = f.root c := by
  unfold climb at h
  by_cases hself : f.parent c = c
  · simp [hself] at h
  · simp only [hself, if_false, Sum.inl.injEq, Prod.mk.injEq] at h
    obtain ⟨rfl, rfl⟩ := h
    have hlt : f.parent (f.parent c) < c :=
      (f.parent_le_self _).trans_lt (Nat.lt_of_le_of_ne (f.parent_le_self c) hself)
    have hroots : f.root (f.parent (f.parent c)) = f.root c := by rw [root_parent, root_parent]
    have hkept : (f.attach c (f.parent (f.parent c)) hlt.le).root = f.root := by
      funext x
      rw [root_attach (lt_size_of_parent_ne hself) hlt (.inl hroots), hroots]
      split
      · next h => exact h.symm
      · rfl
    refine ⟨hkept, size_attach _, ?_⟩
    rw [hkept, hroots]

theorem climb_inr {result : Forest × ColumnId} (h : climb (f, c) = .inr result) :
    result = (f, c) ∧ f.root c = c := by
  unfold climb at h
  by_cases hself : f.parent c = c
  · simp only [hself, if_true, Sum.inr.injEq] at h
    exact ⟨h.symm, root_eq_self hself⟩
  · simp [hself] at h

theorem find_of_inl {f' : Forest} {c' : ColumnId} (h : climb (f, c) = .inl (f', c')) :
    f.find c = f'.find c' := by
  rw [find.eq_def]
  split
  · next heq =>
      cases h.symm.trans heq
      rfl
  · next heq => cases h.symm.trans heq

theorem find_of_inr {result : Forest × ColumnId} (h : climb (f, c) = .inr result) :
    f.find c = result := by
  rw [find.eq_def]
  split
  · next heq => cases h.symm.trans heq
  · next heq =>
      cases h.symm.trans heq
      rfl

/-- A search is the repetition of its step, which ends on every forest. -/
theorem iterate?_climb (f : Forest) (c : ColumnId) : iterate? climb (f, c) = some (f.find c) := by
  induction c using Nat.strong_induction_on generalizing f with
  | _ c ih =>
      rw [iterate?]
      cases h : climb (f, c) with
      | inl next => rw [find_of_inl h, ← ih next.2 (climb_lt h)]
      | inr result => rw [find_of_inr h]

/-- A search returns the root, and leaves a forest with the same roots. -/
theorem find_spec (f : Forest) (c : ColumnId) :
    (f.find c).2 = f.root c ∧ (f.find c).1.root = f.root ∧ (f.find c).1.size = f.size := by
  induction c using Nat.strong_induction_on generalizing f with
  | _ c ih =>
      cases h : climb (f, c) with
      | inl next =>
          obtain ⟨hroot, hsize, hgoal⟩ := climb_inl h
          obtain ⟨hfound, hkept, hcount⟩ := ih next.2 (climb_lt h) next.1
          rw [find_of_inl h]
          exact ⟨hfound.trans hgoal, hkept.trans hroot, hcount.trans hsize⟩
      | inr result =>
          obtain ⟨rfl, hroot⟩ := climb_inr h
          rw [find_of_inr h]
          exact ⟨hroot.symm, rfl, rfl⟩

/-- The root of one of two joined columns is attached to the root of the other one. -/
theorem join_spec (ha : a < f.size) (hb : b < f.size) :
    (f.join a b).size = f.size ∧ ∀ x, (f.join a b).root x =
      if f.root x = f.root a ∨ f.root x = f.root b then min (f.root a) (f.root b) else f.root
        x := by
  obtain ⟨hfirst, hroots, hsize⟩ := f.find_spec a
  obtain ⟨hsecond, hroots', hsize'⟩ := (f.find a).1.find_spec b
  rw [hroots] at hsecond hroots'
  rw [hsize] at hsize'
  have hjoin : f.join a b = if f.root a = f.root b then ((f.find a).1.find b).1 else
      ((f.find a).1.find b).1.attach (max (f.root a) (f.root b)) (min (f.root a) (f.root b))
        ((min_le_left ..).trans (le_max_left ..)) := by
    unfold join
    simp only [hfirst, hsecond]
  rw [hjoin]
  split
  · next hsame =>
      refine ⟨hsize', fun x => ?_⟩
      rw [hroots', ← hsame, min_self]
      split
      · next h => exact h.elim id id
      · rfl
  · next hne =>
      have hlt : min (f.root a) (f.root b) < max (f.root a) (f.root b) := min_lt_max.mpr hne
      have hmax : max (f.root a) (f.root b) < ((f.find a).1.find b).1.size := by
        rw [hsize']
        exact max_lt ((f.root_le a).trans_lt ha) ((f.root_le b).trans_lt hb)
      have hmaxRoot : f.root (max (f.root a) (f.root b)) = max (f.root a) (f.root b) := by
        rcases max_choice (f.root a) (f.root b) with h | h <;> rw [h, root_root]
      have hminRoot : f.root (min (f.root a) (f.root b)) = min (f.root a) (f.root b) := by
        rcases min_choice (f.root a) (f.root b) with h | h <;> rw [h, root_root]
      have hself := parent_root ((f.find a).1.find b).1 (max (f.root a) (f.root b))
      rw [hroots', hmaxRoot] at hself
      refine ⟨(size_attach _).trans hsize', fun x => ?_⟩
      rw [root_attach hmax hlt (.inr hself), hroots', hmaxRoot, hminRoot]
      rcases le_total (f.root a) (f.root b) with hle | hle
      · rw [max_eq_right hle, min_eq_left hle]
        by_cases hx : f.root x = f.root a <;> simp [hx]
      · rw [max_eq_left hle, min_eq_right hle]
        by_cases hx : f.root x = f.root b <;> simp [hx]

/-! ### Classes of joined columns -/

/-- Two columns have one root if and only if they are equivalent under a relation. -/
structure Connects (f : Forest) (n : Nat) (R : ColumnId → ColumnId → Prop) : Prop where
  size : f.size = n
  root_eq_iff : ∀ x y, f.root x = f.root y ↔ EqvGen R x y

variable {n : Nat} {R : ColumnId → ColumnId → Prop}

theorem alone_connects (n : Nat) : (alone n).Connects n fun _ _ => False := by
  have hparent (x : ColumnId) : (alone n).parent x = x := by
    unfold parent alone
    rw [Array.getD_eq_getD_getElem?, Array.getElem?_range]
    split <;> rfl
  refine ⟨Array.size_range, fun x y => ?_⟩
  rw [root_eq_self (hparent x), root_eq_self (hparent y)]
  constructor
  · rintro rfl
    exact .refl x
  · intro h
    induction h with
    | rel x y h => exact h.elim
    | refl x => rfl
    | symm x y _ ih => exact ih.symm
    | trans x y z _ _ ih ih' => exact ih.trans ih'

/-- Joining two columns adds their pair to the relation. -/
theorem Connects.join (h : f.Connects n R) (ha : a < n) (hb : b < n) :
    (f.join a b).Connects n fun x y => R x y ∨ x = a ∧ y = b := by
  obtain ⟨hsize, hroot⟩ := join_spec (h.size.symm ▸ ha) (h.size.symm ▸ hb)
  refine ⟨hsize.trans h.size, fun x y => ⟨fun hxy => ?_, fun hxy => ?_⟩⟩
  · have hold {x y : ColumnId} (hxy : f.root x = f.root y) :
        EqvGen (fun x y => R x y ∨ x = a ∧ y = b) x y :=
      EqvGen.mono (fun _ _ => Or.inl) x y ((h.root_eq_iff x y).mp hxy)
    have hmerged {x : ColumnId} (hx : f.root x = f.root a ∨ f.root x = f.root b) :
        EqvGen (fun x y => R x y ∨ x = a ∧ y = b) x a := by
      rcases hx with hx | hx
      · exact hold hx
      · exact (hold hx).trans _ _ _ (.symm _ _ (.rel a b (.inr ⟨rfl, rfl⟩)))
    have hmin : min (f.root a) (f.root b) = f.root a ∨ min (f.root a) (f.root b) = f.root b :=
      min_choice _ _
    rw [hroot, hroot] at hxy
    split at hxy
    · next hx =>
        split at hxy
        · next hy => exact (hmerged hx).trans _ _ _ (.symm _ _ (hmerged hy))
        · next hy => exact absurd (hxy ▸ hmin) hy
    · next hx =>
        split at hxy
        · next hy => exact absurd (hxy ▸ hmin) hx
        · exact hold hxy
  · induction hxy with
    | rel x y hxy =>
        rcases hxy with hxy | ⟨rfl, rfl⟩
        · rw [hroot, hroot, (h.root_eq_iff x y).mpr (.rel x y hxy)]
        · rw [hroot, hroot, if_pos (.inl rfl), if_pos (.inr rfl)]
    | refl x => rfl
    | symm x y _ ih => exact ih.symm
    | trans x y z _ _ ih ih' => exact ih.trans ih'

/-- Steps that each add to the relation add all of it. -/
theorem Connects.foldl {β : Type} {step : Forest → β → Forest}
    {P : β → ColumnId → ColumnId → Prop} {items : List β}
    (hstep : ∀ item ∈ items, ∀ (f : Forest) (R : ColumnId → ColumnId → Prop), f.Connects n R →
      (step f item).Connects n fun x y => R x y ∨ P item x y) (h : f.Connects n R) :
    (items.foldl step f).Connects n fun x y => R x y ∨ ∃ item ∈ items, P item x y := by
  induction items generalizing f R with
  | nil => simpa using h
  | cons item rest ih =>
      have hrest := ih (fun other hother => hstep other (List.mem_cons_of_mem _ hother))
        (hstep item (List.mem_cons_self ..) f R h)
      simpa only [List.foldl_cons, List.exists_mem_cons_iff, or_assoc] using hrest

/-- Placing columns appends each of them to the list at its root. -/
theorem foldl_place (columns : List ColumnId) (state : Forest × Array (List ColumnId))
    (i : ColumnId) :
    (columns.foldl place state).2[i]? =
      state.2[i]?.map (· ++ columns.filter fun c => state.1.root c = i) := by
  induction columns generalizing state with
  | nil => simp
  | cons c rest ih =>
      obtain ⟨hfound, hroots, -⟩ := state.1.find_spec c
      have hplace : place state c =
        ((state.1.find c).1, state.2.modify (state.1.root c) (· ++ [c])) := by
        rw [← hfound]
        rfl
      rw [List.foldl_cons, ih, hplace, hroots, Array.getElem?_modify]
      by_cases hi : state.1.root c = i
      · rw [if_pos hi, List.filter_cons_of_pos (by simpa using hi), Option.map_map]
        congr 1
        funext list
        simp
      · rw [if_neg hi, List.filter_cons_of_neg (by simpa using hi)]

/-- The columns with a root. -/
def members (f : Forest) (n : Nat) (i : ColumnId) : List ColumnId :=
  (List.range n).filter fun c => f.root c = i

theorem mem_members {i : ColumnId} : x ∈ f.members n i ↔ x < n ∧ f.root x = i := by
  simp [members]

theorem members_increasing (i : ColumnId) : (f.members n i).Pairwise (· < ·) :=
  List.pairwise_lt_range.filter _

theorem classes_eq (f : Forest) (n : Nat) : f.classes n = (List.range n).map (f.members n) := by
  apply List.ext_getElem?
  intro i
  rw [classes, Array.getElem?_toList, foldl_place, Array.getElem?_replicate, List.getElem?_map]
  by_cases hi : i < n
  · rw [if_pos hi, List.getElem?_range hi]
    rfl
  · rw [if_neg hi, List.getElem?_eq_none (by simpa using hi)]
    rfl

/-- A column of no class of the forest is its own root. -/
theorem root_of_size_le (h : f.size ≤ x) : f.root x = x := by
  apply root_eq_self
  by_contra hne
  exact absurd (lt_size_of_parent_ne hne) (Nat.not_lt.mpr h)

end Forest

namespace Symmetry

open Forest

variable {n : Nat} {f : Forest} {R : ColumnId → ColumnId → Prop} {g : List ColumnId}

/-- Joining every column with its image adds the pairs of a generator. -/
theorem joinAll_connects (h : f.Connects n R) (hlength : g.length = n)
    (himages : ∀ image ∈ g, image < n) :
    (joinAll f g).Connects n fun x y => R x y ∨ g[x]? = some y := by
  have hstep : ∀ item ∈ g.zipIdx, ∀ (f : Forest) (R : ColumnId → ColumnId → Prop), f.Connects n R →
      (f.join item.2 item.1).Connects n fun x y => R x y ∨ (x = item.2 ∧ y = item.1) := by
    rintro ⟨image, c⟩ hitem f R hf
    obtain ⟨hc, himage⟩ := List.mem_zipIdx' hitem
    exact hf.join (hlength ▸ hc) (himages image (himage ▸ List.getElem_mem hc))
  have hpairs := Connects.foldl hstep h
  have hentries (x y : ColumnId) :
      (∃ item ∈ g.zipIdx, x = item.2 ∧ y = item.1) ↔ g[x]? = some y := by
    have hmem : (y, x) ∈ g.zipIdx ↔ g[x]? = some y := List.mem_zipIdx_iff_getElem?
    rw [← hmem]
    constructor
    · rintro ⟨⟨_, _⟩, hitem, rfl, rfl⟩
      exact hitem
    · intro hitem
      exact ⟨_, hitem, rfl, rfl⟩
  simp only [hentries] at hpairs
  exact hpairs

/-! ### Generators -/

theorem allNew_eq_true {seen : Array Bool} (hseen : seen.size = n) (images : List ColumnId) :
    allNew n seen images = true ↔
      images.Nodup ∧ ∀ image ∈ images, image < n ∧ seen.getD image false = false := by
  induction images generalizing seen with
  | nil => simp [allNew]
  | cons image rest ih =>
      have hset : (seen.setIfInBounds image true).size = n := by
        rw [Array.size_setIfInBounds, hseen]
      have hgetD (x : ColumnId) (himage : image < n) : (seen.setIfInBounds image true).getD x
        false =
          if x = image then true else seen.getD x false := by
        rw [Array.getD_eq_getD_getElem?, Array.getElem?_setIfInBounds, Array.getD_eq_getD_getElem?]
        by_cases hx : x = image
        · rw [if_pos hx.symm, if_pos hx, if_pos (hseen.symm ▸ himage)]
          rfl
        · rw [if_neg fun heq => hx heq.symm, if_neg hx]
      rw [allNew, Bool.and_eq_true, Bool.and_eq_true, decide_eq_true_eq, Bool.not_eq_true', ih hset,
        List.nodup_cons, List.forall_mem_cons]
      constructor
      · rintro ⟨⟨himage, hnew⟩, hrest, hall⟩
        refine ⟨⟨fun hmem => ?_, hrest⟩, ⟨himage, hnew⟩, fun x hx => ⟨(hall x hx).1, ?_⟩⟩
        · have hagain := (hall image hmem).2
          rw [hgetD image himage, if_pos rfl] at hagain
          cases hagain
        · have hx := (hall x hx).2
          rw [hgetD x himage] at hx
          split at hx
          · cases hx
          · exact hx
      · rintro ⟨⟨hfresh, hrest⟩, ⟨himage, hnew⟩, hall⟩
        refine ⟨⟨himage, hnew⟩, hrest, fun x hx => ⟨(hall x hx).1, ?_⟩⟩
        have hne : x ≠ image := by
          rintro rfl
          exact hfresh hx
        rw [hgetD x himage, if_neg hne]
        exact (hall x hx).2

/-- The check accepts the permutations of all columns. -/
theorem isPermutation_iff (n : Nat) (g : List ColumnId) :
    isPermutation n g = true ↔ g.Perm (List.range n) := by
  have hunseen (image : ColumnId) : (Array.replicate n false).getD image false = false := by
    rw [Array.getD_eq_getD_getElem?, Array.getElem?_replicate]
    split <;> rfl
  rw [isPermutation, Bool.and_eq_true, beq_iff_eq, allNew_eq_true Array.size_replicate]
  constructor
  · rintro ⟨hlength, hnodup, hall⟩
    have hsubset : g ⊆ List.range n := fun image himage => List.mem_range.mpr (hall image himage).1
    apply (hnodup.subperm hsubset).perm_of_length_le
    rw [List.length_range, hlength]
  · intro hperm
    refine ⟨hperm.length_eq.trans List.length_range, hperm.nodup_iff.mpr List.nodup_range,
      fun image himage => ⟨List.mem_range.mp (hperm.mem_iff.mp himage), hunseen image⟩⟩

/-! ### Orbits -/

/-- The equivalence of columns that is generated by every column and its images. -/
def Connected (generators : List (List ColumnId)) : ColumnId → ColumnId → Prop :=
  EqvGen fun x y => ∃ g ∈ generators, g[x]? = some y

variable {generators : List (List ColumnId)}

/-- Joining all columns with their images connects what the generators connect. -/
theorem joined_connects (hperms : ∀ g ∈ generators, g.Perm (List.range n)) :
    (generators.foldl joinAll (.alone n)).Connects n
      fun x y => ∃ g ∈ generators, g[x]? = some y := by
  have hstep : ∀ g ∈ generators, ∀ (f : Forest) (R : ColumnId → ColumnId → Prop), f.Connects n R →
      (joinAll f g).Connects n fun x y => R x y ∨ g[x]? = some y := fun g hg f R hf =>
    joinAll_connects hf ((hperms g hg).length_eq.trans List.length_range) fun image himage =>
      List.mem_range.mp ((hperms g hg).mem_iff.mp himage)
  simpa only [false_or] using Connects.foldl hstep (alone_connects n)

/-- A class of at least two connected columns, in increasing order. -/
structure IsOrbit (n : Nat) (generators : List (List ColumnId)) (orbit : List ColumnId) : Prop where
  several : 2 ≤ orbit.length
  increasing : orbit.Pairwise (· < ·)
  class_eq : ∃ c < n, ∀ x, x ∈ orbit ↔ Connected generators c x

/-- The columns with one root are the class of any of them. -/
theorem mem_members_iff (h : f.Connects n R) {c x : ColumnId} (hc : c < n) :
    x ∈ f.members n (f.root c) ↔ EqvGen R c x := by
  rw [mem_members, ← h.root_eq_iff]
  constructor
  · exact fun hx => hx.2.symm
  · intro hroot
    refine ⟨?_, hroot.symm⟩
    by_contra hge
    have hx := root_of_size_le (h.size.symm ▸ Nat.le_of_not_lt hge)
    have hlt : f.root c < n := (f.root_le c).trans_lt hc
    rw [hroot, hx] at hlt
    exact hge hlt

theorem mem_classes_iff (h : f.Connects n fun x y => ∃ g ∈ generators, g[x]? = some y)
    (orbit : List ColumnId) :
    orbit ∈ (f.classes n).filter (fun orbit => 1 < orbit.length) ↔ IsOrbit n generators orbit := by
  rw [List.mem_filter, classes_eq, List.mem_map, decide_eq_true_eq]
  constructor
  · rintro ⟨⟨i, -, rfl⟩, hlength⟩
    obtain ⟨c, hc⟩ := List.exists_mem_of_length_pos (Nat.zero_lt_of_lt hlength)
    obtain ⟨hcn, rfl⟩ := mem_members.mp hc
    exact ⟨hlength, members_increasing _, c, hcn, fun x => mem_members_iff h hcn⟩
  · rintro ⟨hlength, hincreasing, c, hc, hclass⟩
    have hroot : f.root c < n := (f.root_le c).trans_lt hc
    refine ⟨⟨f.root c, List.mem_range.mpr hroot, ?_⟩, hlength⟩
    apply (members_increasing _).eq_of_mem_iff hincreasing
    intro x
    rw [mem_members_iff h hc, hclass]
    rfl

/-- The classes are in the order of their smallest columns, so each is listed once. -/
theorem classes_ordered (f : Forest) (n : Nat) :
    ((f.classes n).filter fun orbit => 1 < orbit.length).Pairwise
      fun orbit later => ∃ x ∈ orbit, ∀ y ∈ later, x < y := by
  rw [List.pairwise_filter, classes_eq, List.pairwise_map]
  refine List.pairwise_lt_range.imp_of_mem fun {i j} hi hj hlt hsome _ => ?_
  obtain ⟨c, hc⟩ := List.exists_mem_of_length_pos (Nat.zero_lt_of_lt (of_decide_eq_true hsome))
  obtain ⟨-, rfl⟩ := mem_members.mp hc
  refine ⟨f.root c, mem_members.mpr ⟨List.mem_range.mp hi, f.root_root c⟩, fun y hy => ?_⟩
  obtain ⟨-, rfl⟩ := mem_members.mp hy
  exact hlt.trans_le (f.root_le y)

/-! ### The generated group -/

/-- The permutations of the columns that generators are. -/
def actions (n : Nat) (generators : List (List ColumnId)) : Set (Equiv.Perm (Fin n)) :=
  {σ | ∃ g ∈ generators, ∀ c : Fin n, g[(c : Nat)]? = some (σ c : Nat)}

/-- A list of all columns is a permutation of them. -/
theorem exists_action (hperm : g.Perm (List.range n)) :
    ∃ σ : Equiv.Perm (Fin n), ∀ c : Fin n, g[(c : Nat)]? = some (σ c : Nat) := by
  have hlength : g.length = n := hperm.length_eq.trans List.length_range
  have hin (c : Fin n) : (c : Nat) < g.length := hlength.symm ▸ c.isLt
  have hlt (c : Fin n) : g.get ⟨c, hin c⟩ < n :=
    List.mem_range.mp (hperm.mem_iff.mp (List.getElem_mem _))
  let image (c : Fin n) : Fin n := ⟨g.get ⟨c, hin c⟩, hlt c⟩
  have hinjective : Function.Injective image := by
    intro c c' h
    have hnodup : g.Nodup := hperm.nodup_iff.mpr List.nodup_range
    exact Fin.ext ((hnodup.getElem_inj_iff).mp (Fin.mk.inj h))
  refine ⟨.ofBijective image (Finite.injective_iff_bijective.mp hinjective), fun c => ?_⟩
  exact List.getElem?_eq_getElem (hin c)

/-- The classes of connected columns are the orbits of the group that the generators generate. -/
theorem connected_iff_mem_orbit (hperms : ∀ g ∈ generators, g.Perm (List.range n)) (x y : Fin n) :
    Connected generators x y ↔
      y ∈ MulAction.orbit (Subgroup.closure (actions n generators)) x := by
  constructor
  · intro h
    have hmoved {c c' : ColumnId} (h : Connected generators c c') : c = c' ∨
        ∃ (hc : c < n) (hc' : c' < n), ∃ σ ∈ Subgroup.closure (actions n generators),
          σ ⟨c, hc⟩ = ⟨c', hc'⟩ := by
      induction h with
      | rel c c' h =>
          obtain ⟨g, hg, himage⟩ := h
          obtain ⟨σ, hσ⟩ := exists_action (hperms g hg)
          obtain ⟨hlt, hvalue⟩ := List.getElem?_eq_some_iff.mp himage
          have hc : c < n := by rwa [(hperms g hg).length_eq, List.length_range] at hlt
          have hc' : (σ ⟨c, hc⟩ : Nat) = c' :=
            Option.some.inj ((hσ ⟨c, hc⟩).symm.trans himage)
          exact .inr ⟨hc, hc' ▸ (σ ⟨c, hc⟩).isLt, σ,
            Subgroup.subset_closure ⟨g, hg, hσ⟩, Fin.ext hc'⟩
      | refl c => exact .inl rfl
      | symm c c' _ ih =>
          rcases ih with rfl | ⟨hc, hc', σ, hσ, hvalue⟩
          · exact .inl rfl
          · refine .inr ⟨hc', hc, σ⁻¹, inv_mem hσ, ?_⟩
            rw [← hvalue, ← Equiv.Perm.mul_apply, inv_mul_cancel, Equiv.Perm.one_apply]
      | trans c c' c'' _ _ ih ih' =>
          rcases ih with rfl | ⟨hc, hc', σ, hσ, hvalue⟩
          · exact ih'
          · rcases ih' with rfl | ⟨_, hc'', τ, hτ, hvalue'⟩
            · exact .inr ⟨hc, hc', σ, hσ, hvalue⟩
            · refine .inr ⟨hc, hc'', τ * σ, mul_mem hτ hσ, ?_⟩
              rw [Equiv.Perm.mul_apply, hvalue, hvalue']
    rcases hmoved h with heq | ⟨_, _, σ, hσ, hvalue⟩
    · rw [Fin.ext heq]
      exact MulAction.mem_orbit_self y
    · exact ⟨⟨σ, hσ⟩, hvalue⟩
  · rintro ⟨⟨σ, hσ⟩, rfl⟩
    change Connected generators x (σ x)
    induction hσ using Subgroup.closure_induction generalizing x with
    | mem σ hσ =>
        obtain ⟨g, hg, himages⟩ := hσ
        exact .rel _ _ ⟨g, hg, himages x⟩
    | one => exact .refl _
    | mul σ τ _ _ ihσ ihτ => exact (ihτ x).trans _ _ _ (ihσ (τ x))
    | inv σ _ ih =>
        have hback := ih (σ⁻¹ x)
        rw [← Equiv.Perm.mul_apply, mul_inv_cancel, Equiv.Perm.one_apply] at hback
        exact .symm _ _ hback

/-- Lists are kept if they are permutations of all columns. -/
theorem generators_ofGenerators (n : Nat) (generators : List (List ColumnId)) :
    (ofGenerators n generators).generators = generators.filter fun g => g.Perm (List.range n) := by
  apply List.filter_congr
  intro g _
  rw [Bool.eq_iff_iff, isPermutation_iff, decide_eq_true_eq]

theorem perm_of_mem_generators (hg : g ∈ (ofGenerators n generators).generators) :
    g.Perm (List.range n) := by
  rw [generators_ofGenerators] at hg
  exact of_decide_eq_true (List.mem_filter.mp hg).2

theorem mem_orbits_iff {orbit : List ColumnId} : orbit ∈ (ofGenerators n generators).orbits ↔
    IsOrbit n (ofGenerators n generators).generators orbit :=
  mem_classes_iff (joined_connects fun _ hg => perm_of_mem_generators hg) orbit

/-- The columns of an orbit are columns that the generators permute. -/
theorem lt_of_mem_orbits {orbit : List ColumnId}
    (horbit : orbit ∈ (ofGenerators n generators).orbits)
    {c : ColumnId} (hc : c ∈ orbit) : c < n := by
  have hclass := (List.mem_filter.mp horbit).1
  rw [classes_eq] at hclass
  obtain ⟨i, -, rfl⟩ := List.mem_map.mp hclass
  exact (mem_members.mp hc).1

/-- **Orbits are the orbits of the generated group.** Of any lists those are kept which are
permutations of all columns. The orbits are exactly the classes of at least two columns that the
kept generators connect, each in increasing order, and in the order of their smallest columns; these
classes are the orbits of the group which the kept generators generate. The searches in the forest
of the classes end on every forest. -/
theorem orbits_of_generated_group (n : Nat) (generators : List (List ColumnId)) :
    (ofGenerators n generators).generators =
      generators.filter (fun g => g.Perm (List.range n)) ∧
    (∀ orbit, orbit ∈ (ofGenerators n generators).orbits ↔
      IsOrbit n (ofGenerators n generators).generators orbit) ∧
    (ofGenerators n generators).orbits.Pairwise
      (fun orbit later => ∃ x ∈ orbit, ∀ y ∈ later, x < y) ∧
    (∀ x y : Fin n, Connected (ofGenerators n generators).generators x y ↔
      y ∈ MulAction.orbit
        (Subgroup.closure (actions n (ofGenerators n generators).generators)) x) ∧
    ∀ f c, iterate? Forest.climb (f, c) = some (f.find c) := by
  refine ⟨generators_ofGenerators n generators, fun orbit => mem_orbits_iff,
    classes_ordered _ n, ?_,
    iterate?_climb⟩
  exact connected_iff_mem_orbit fun _ hg => perm_of_mem_generators hg

example : (ofGenerators 5 [[1, 0, 2, 3, 4], [0, 2, 1, 3, 4], [0, 1, 2, 3, 3]]).orbits =
    [[0, 1, 2]] := by
  decide +kernel

end Symmetry

end BranchBound
