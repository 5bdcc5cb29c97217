import BranchBound.Activity
import BranchBound.Bound
import BranchBound.Proofs.Checked
import Mathlib.Algebra.BigOperators.Group.Multiset.Basic
import Mathlib.Data.Multiset.Filter

/-!
# Partial sums that follow the bounds

The activity of a constraint is never computed anew while bounds move: terms are replaced one at a
time. What it means for a partial sum to stand for a multiset of terms depends on the numbers. Over
any numbers at all the infinite terms are counted correctly; over exact numbers the finite part is
the exact sum as well. A `Tracking` is such a meaning with the laws which the operations of a
partial sum obey, so that the bookkeeping of rows, cuts and the objective is followed only once for
all of them.
-/

namespace BranchBound

open Checked

/-- What partial sums stand for: a multiset of terms, each a coefficient with a bound, and a
multiset of constants. -/
structure Tracking (α : Type) [Scalar α] where
  /-- The numbers that may be coefficients. -/
  coefficient : α → Prop
  /-- The numbers that may be bounds. -/
  value : α → Prop
  /-- The numbers that may be constants. -/
  constant : α → Prop
  tracks : PartialSum α → Multiset (α × α) → Multiset α → Prop
  zero : tracks .zero 0 0
  addTerm : ∀ {s terms constants a b}, coefficient a → value b → tracks s terms constants →
    tracks (s.addTerm a b) ((a, b) ::ₘ terms) constants
  moveTerm : ∀ {s terms constants a old new}, coefficient a → value old → value new →
    tracks s ((a, old) ::ₘ terms) constants →
    Returns (s.moveTerm a old new) fun s' => tracks s' ((a, new) ::ₘ terms) constants
  same : ∀ {s terms constants a old new}, value old → value new → (old != new) = false →
    tracks s ((a, old) ::ₘ terms) constants → tracks s ((a, new) ::ₘ terms) constants
  addConstant : ∀ {s terms constants k}, constant k → tracks s terms constants →
    tracks { s with finite := s.finite.add k } terms (k ::ₘ constants)
  moveConstant : ∀ {s terms constants k k'}, constant k → constant k' →
    tracks s terms (k ::ₘ constants) →
    tracks { s with finite := (s.finite.sub k).add k' } terms (k' ::ₘ constants)
  zero_value : value 0
  zero_constant : constant 0
  min_constant : ∀ {a}, coefficient a → constant (Scalar.min a 0)
  sum_constant : ∀ {xs}, (∀ x ∈ xs, coefficient x) → constant (Scalar.sum xs)

/-- The values of all bounds. -/
abbrev BoundValues (α : Type) := Side → ColumnId → α

namespace BoundValues

variable {α : Type}

/-- The values after one bound moved. -/
def set (β : BoundValues α) (side : Side) (c : ColumnId) (value : α) : BoundValues α :=
  fun side' c' => if side' = side ∧ c' = c then value else β side' c'

@[simp] theorem set_self (β : BoundValues α) (side : Side) (c : ColumnId) (value : α) :
    β.set side c value side c = value := by
  simp [set]

theorem set_of_ne (β : BoundValues α) {side side' : Side} {c c' : ColumnId} (value : α)
    (h : ¬(side' = side ∧ c' = c)) : β.set side c value side' c' = β side' c' := by
  simp [set, h]

end BoundValues

section Terms

variable {α : Type}

/-- The terms of some entries, each at the bound that a rule picks by the coefficient. -/
def termsAt (β : BoundValues α) (pick : α → Side) (entries : List (ColumnId × α)) :
    Multiset (α × α) :=
  (entries : Multiset (ColumnId × α)).map fun e => (e.2, β (pick e.2) e.1)

/-- The coefficients of the entries whose term is at a given bound. -/
def coefficientsAt (pick : α → Side) (c : ColumnId) (side : Side) (entries : List (ColumnId × α)) :
    Multiset α :=
  ((entries : Multiset (ColumnId × α)).filter fun e => e.1 = c ∧ pick e.2 = side).map Prod.snd

/-- The terms of the entries whose term is not at a given bound. -/
def termsElsewhere (β : BoundValues α) (pick : α → Side) (c : ColumnId) (side : Side)
    (entries : List (ColumnId × α)) : Multiset (α × α) :=
  ((entries : Multiset (ColumnId × α)).filter fun e => ¬(e.1 = c ∧ pick e.2 = side)).map
    fun e => (e.2, β (pick e.2) e.1)

@[simp] theorem termsAt_nil (β : BoundValues α) (pick : α → Side) :
    termsAt β pick [] = 0 := rfl

theorem termsAt_cons (β : BoundValues α) (pick : α → Side) (e : ColumnId × α)
    (entries : List (ColumnId × α)) :
    termsAt β pick (e :: entries) = (e.2, β (pick e.2) e.1) ::ₘ termsAt β pick entries := by
  rw [termsAt, ← Multiset.cons_coe, Multiset.map_cons, termsAt]

/-- The terms at one bound and the others make up all terms. -/
theorem termsAt_eq (β : BoundValues α) (pick : α → Side) (c : ColumnId) (side : Side)
    (entries : List (ColumnId × α)) :
    termsAt β pick entries = termsElsewhere β pick c side entries +
      (coefficientsAt pick c side entries).map fun a => (a, β side c) := by
  have hat : ((entries : Multiset (ColumnId × α)).filter fun e => e.1 = c ∧ pick e.2 = side).map
      (fun e => (e.2, β (pick e.2) e.1)) =
        (coefficientsAt pick c side entries).map fun a => (a, β side c) := by
    rw [coefficientsAt, Multiset.map_map]
    refine Multiset.map_congr rfl fun e he => ?_
    obtain ⟨hc, hside⟩ := (Multiset.mem_filter.mp he).2
    simp [hc, hside]
  rw [termsElsewhere, ← hat, ← Multiset.map_add, add_comm, Multiset.filter_add_not, termsAt]

/-- The terms elsewhere do not follow a bound that moves. -/
theorem termsElsewhere_set (β : BoundValues α) (pick : α → Side) (c : ColumnId) (side : Side)
    (value : α) (entries : List (ColumnId × α)) :
    termsElsewhere (β.set side c value) pick c side entries =
      termsElsewhere β pick c side entries := by
  refine Multiset.map_congr rfl fun e he => ?_
  have hne := (Multiset.mem_filter.mp he).2
  rw [BoundValues.set_of_ne]
  exact fun h => hne ⟨h.2, h.1⟩

/-- The terms of some entries in columns up to a number are those in smaller columns and those in
the last one. -/
theorem termsAt_filter_succ (β : BoundValues α) (pick : α → Side)
    (entries : List (ColumnId × α)) (k : Nat) :
    termsAt β pick (entries.filter fun e => e.1 < k + 1) =
      termsAt β pick (entries.filter fun e => e.1 = k) +
        termsAt β pick (entries.filter fun e => e.1 < k) := by
  induction entries with
  | nil => rfl
  | cons e rest ih =>
      simp only [List.filter_cons, decide_eq_true_eq]
      rcases Nat.lt_trichotomy e.1 k with hlt | heq | hgt
      · rw [if_pos (Nat.lt_succ_of_lt hlt), if_neg (Nat.ne_of_lt hlt), if_pos hlt, termsAt_cons,
          termsAt_cons, ih, Multiset.add_cons]
      · rw [if_pos (heq ▸ Nat.lt_succ_self e.1), if_pos heq, if_neg (heq ▸ Nat.lt_irrefl e.1),
          termsAt_cons, termsAt_cons, ih, Multiset.cons_add]
      · rw [if_neg (Nat.not_lt_of_le hgt), if_neg (Nat.ne_of_gt hgt), if_neg (Nat.not_lt_of_lt hgt),
          ih]

/-- The coefficients at one bound, read off a list of those of a column under their keys. -/
def pendingAt (pick : α → Side) (side : Side) (key : Nat) (found : List (Nat × α)) : Multiset α :=
  ((found : Multiset (Nat × α)).filter fun o => o.1 = key ∧ pick o.2 = side).map Prod.snd

@[simp] theorem pendingAt_nil (pick : α → Side) (side : Side) (key : Nat) :
    pendingAt pick side key [] = 0 := rfl

theorem pendingAt_cons_of_mem {pick : α → Side} {side : Side} {key : Nat} {o : Nat × α}
    (found : List (Nat × α)) (h : o.1 = key ∧ pick o.2 = side) :
    pendingAt pick side key (o :: found) = o.2 ::ₘ pendingAt pick side key found := by
  rw [pendingAt, ← Multiset.cons_coe, Multiset.filter_cons_of_pos, Multiset.map_cons, pendingAt]
  exact h

theorem pendingAt_cons_of_notMem {pick : α → Side} {side : Side} {key : Nat} {o : Nat × α}
    (found : List (Nat × α)) (h : ¬(o.1 = key ∧ pick o.2 = side)) :
    pendingAt pick side key (o :: found) = pendingAt pick side key found := by
  rw [pendingAt, ← Multiset.cons_coe, Multiset.filter_cons_of_neg, pendingAt]
  exact h

theorem coefficientsAt_eq (pick : α → Side) (c : ColumnId) (side : Side)
    (entries : List (ColumnId × α)) :
    coefficientsAt pick c side entries =
      (((entries.filter fun e => e.1 = c).map Prod.snd).filter fun a =>
        pick a = side : List α) := by
  simp [coefficientsAt, List.filter_map, List.filter_filter, Function.comp_def, Bool.and_comm]

/-- A column that lists the coefficients of some entries under their key lists those at each of
its bounds. -/
theorem pendingAt_eq {pick : α → Side} {c : ColumnId} {side : Side} {key : Nat}
    {found : List (Nat × α)} {entries : List (ColumnId × α)}
    (h : (found.filter fun o => o.1 = key).map Prod.snd =
      (entries.filter fun e => e.1 = c).map Prod.snd) :
    pendingAt pick side key found = coefficientsAt pick c side entries := by
  rw [coefficientsAt_eq, ← h]
  simp [pendingAt, List.filter_map, List.filter_filter, Function.comp_def, Bool.and_comm]

variable [Scalar α]

/-- The bound of a column at which its term is smallest. -/
def minSide (a : α) : Side := if 0 < a then .lower else .upper

/-- The bound of a column at which its term is largest. -/
def maxSide (a : α) : Side := (minSide a).opposite

end Terms

theorem minSide_eq_iff {α : Type} [Scalar α] {a : α} {side : Side} :
    (decide (0 < a) == (side == .lower)) = true ↔ minSide a = side := by
  unfold minSide
  by_cases h : 0 < a
  · cases side <;> simp [h]
  · cases side <;> simp [h]

theorem minSide_ne_iff {α : Type} [Scalar α] {a : α} {side : Side} :
    (decide (0 < a) != (side == .lower)) = true ↔ minSide a ≠ side := by
  rw [Ne, ← minSide_eq_iff, bne, Bool.not_eq_true', Bool.not_eq_true]

namespace Tracking

variable {α : Type} [Scalar α] (T : Tracking α)

/-- All values of bounds may be bounds. -/
def Admissible (β : BoundValues α) : Prop := ∀ side c, T.value (β side c)

variable {T}

theorem Admissible.set {β : BoundValues α} (hβ : T.Admissible β) {side : Side} {c : ColumnId}
    {value : α} (hvalue : T.value value) : T.Admissible (β.set side c value) := by
  intro side' c'
  by_cases h : side' = side ∧ c' = c
  · obtain ⟨rfl, rfl⟩ := h
    rw [BoundValues.set_self]
    exact hvalue
  · rw [BoundValues.set_of_ne _ _ h]
    exact hβ side' c'

/-- A sum of terms added one by one stands for them. -/
theorem tracks_foldl_addTerm {β : BoundValues α} (hβ : T.Admissible β) (pick : α → Side)
    {entries : List (ColumnId × α)} (hentries : ∀ e ∈ entries, T.coefficient e.2)
    {s : PartialSum α} {terms : Multiset (α × α)} {constants : Multiset α}
    (h : T.tracks s terms constants) :
    T.tracks (entries.foldl (fun s e => s.addTerm e.2 (β (pick e.2) e.1)) s)
      (termsAt β pick entries + terms) constants := by
  induction entries generalizing s terms with
  | nil =>
      rw [termsAt_nil, zero_add]
      exact h
  | cons e rest ih =>
      have hadd := T.addTerm (hentries e (List.mem_cons_self ..)) (hβ (pick e.2) e.1) h
      have hrest := ih (fun e' he' => hentries e' (List.mem_cons_of_mem _ he')) hadd
      rw [termsAt_cons, Multiset.cons_add, ← Multiset.add_cons]
      exact hrest

section Moving

variable (T) (β : BoundValues α) (pick : α → Side) (c : ColumnId) (side : Side) (old new : α)

/-- A partial sum stands for the terms of some entries while a bound moves from one value to
another one: of the terms at that bound, the pending ones are still at the old value. -/
def Moving (entries : List (ColumnId × α)) (s : PartialSum α) (pending : Multiset α) : Prop :=
  ∃ moved, pending + moved = coefficientsAt pick c side entries ∧
    T.tracks s (termsElsewhere β pick c side entries + (pending.map fun a => (a, old)) +
      moved.map fun a => (a, new)) 0

variable {T β pick c side old new}

/-- Before a bound moves, all its terms are pending. -/
theorem Moving.start {entries : List (ColumnId × α)} {s : PartialSum α}
    (hold : β side c = old) (h : T.tracks s (termsAt β pick entries) 0) :
    T.Moving β pick c side old new entries s (coefficientsAt pick c side entries) := by
  refine ⟨0, add_zero _, ?_⟩
  rw [Multiset.map_zero, add_zero, ← hold, ← termsAt_eq]
  exact h

/-- Once no term is pending, the sum stands for the terms at the values after the move. -/
theorem Moving.finish {entries : List (ColumnId × α)} {s : PartialSum α}
    (h : T.Moving β pick c side old new entries s 0) :
    T.tracks s (termsAt (β.set side c new) pick entries) 0 := by
  obtain ⟨moved, hmoved, htracks⟩ := h
  rw [zero_add] at hmoved
  rw [Multiset.map_zero, add_zero, hmoved] at htracks
  rw [termsAt_eq _ pick c side, termsElsewhere_set, BoundValues.set_self]
  exact htracks

/-- Replacing a pending term moves it. -/
theorem Moving.step {entries : List (ColumnId × α)} {s : PartialSum α} {a : α}
    {pending : Multiset α} (ha : T.coefficient a) (hold : T.value old) (hnew : T.value new)
    (h : T.Moving β pick c side old new entries s (a ::ₘ pending)) :
    Returns (s.moveTerm a old new) fun s' =>
      T.Moving β pick c side old new entries s' pending := by
  obtain ⟨moved, hmoved, htracks⟩ := h
  rw [Multiset.map_cons, Multiset.add_cons, Multiset.cons_add] at htracks
  refine (T.moveTerm ha hold hnew htracks).mono fun s' _ hs' => ?_
  refine ⟨a ::ₘ moved, ?_, ?_⟩
  · rw [Multiset.add_cons, ← Multiset.cons_add]
    exact hmoved
  · rw [Multiset.map_cons, Multiset.add_cons]
    exact hs'

/-- The coefficient of a pending term is that of an entry. -/
theorem Moving.coefficient {entries : List (ColumnId × α)} {s : PartialSum α} {a : α}
    {pending : Multiset α} (hentries : ∀ e ∈ entries, T.coefficient e.2)
    (h : T.Moving β pick c side old new entries s (a ::ₘ pending)) : T.coefficient a := by
  obtain ⟨moved, hmoved, -⟩ := h
  have hmem : a ∈ coefficientsAt pick c side entries := by
    rw [← hmoved, Multiset.cons_add]
    exact Multiset.mem_cons_self ..
  obtain ⟨e, he, rfl⟩ := Multiset.mem_map.mp hmem
  exact hentries e (Multiset.mem_coe.mp (Multiset.mem_of_mem_filter he))

/-- A bound that moves to an equal value leaves every sum as it is. -/
theorem tracks_set_of_same {entries : List (ColumnId × α)} {s : PartialSum α}
    {constants : Multiset α}
    (hβ : T.Admissible β) (hnew : T.value new) (hsame : (β side c != new) = false)
    (h : T.tracks s (termsAt β pick entries) constants) :
    T.tracks s (termsAt (β.set side c new) pick entries) constants := by
  have hreplace : ∀ (as : Multiset α) (rest : Multiset (α × α)),
      T.tracks s (rest + as.map fun a => (a, β side c)) constants →
      T.tracks s (rest + as.map fun a => (a, new)) constants := by
    intro as
    induction as using Multiset.induction_on with
    | empty => exact fun rest h => h
    | cons a as ih =>
        intro rest h
        rw [Multiset.map_cons, Multiset.add_cons] at h ⊢
        have hmoved := T.same (hβ side c) hnew hsame h
        rw [← Multiset.cons_add] at hmoved ⊢
        exact ih _ hmoved
  rw [termsAt_eq _ pick c side, termsElsewhere_set, BoundValues.set_self]
  rw [termsAt_eq _ pick c side] at h
  exact hreplace _ _ h

end Moving

end Tracking

/-- Whether a term is infinite is decided by its bound. -/
def infiniteTerms {α : Type} [Scalar α] (terms : Multiset (α × α)) : Nat :=
  terms.countP fun t => Scalar.isInfinite t.2 = true

theorem infiniteTerms_cons {α : Type} [Scalar α] (t : α × α) (terms : Multiset (α × α)) :
    infiniteTerms (t ::ₘ terms) = infiniteTerms terms + if Scalar.isInfinite t.2 then 1 else 0 :=
  Multiset.countP_cons ..

/-- The number of infinite terms of a sum follows a term that moves. -/
theorem moveTerm_infinite {α : Type} [Scalar α] {s : PartialSum α} {terms : Multiset (α × α)}
    {a old new : α} (h : s.infinite = infiniteTerms ((a, old) ::ₘ terms)) :
    Returns (s.moveTerm a old new) fun s' =>
      s'.infinite = infiniteTerms ((a, new) ::ₘ terms) := by
  rw [infiniteTerms_cons] at h ⊢
  unfold PartialSum.moveTerm
  cases hold : Scalar.isInfinite old with
  | true =>
      cases hnew : Scalar.isInfinite new with
      | true => exact .ok (by simpa [hold] using h)
      | false =>
          simp only [hold, if_true] at h
          have hcount : uncount s.infinite 1 = .ok (s.infinite - 1) := if_pos (by omega)
          simp only [hcount, ok_bind]
          exact .pure (by simp [h])
  | false =>
      cases hnew : Scalar.isInfinite new with
      | true => exact .ok (by simpa [hold] using h)
      | false => exact .ok (by simpa [hold] using h)

/-- Numbers of which equal ones are infinite together. -/
def EqualInfinities (α : Type) [Scalar α] : Prop :=
  ∀ a b : α, (a == b) = true → Scalar.isInfinite a = Scalar.isInfinite b

/-- Over any numbers the infinite terms of a sum are counted. -/
def Tracking.counting {α : Type} [Scalar α] (h : EqualInfinities α) : Tracking α where
  coefficient _ := True
  value _ := True
  constant _ := True
  tracks s terms _ := s.infinite = infiniteTerms terms
  zero := rfl
  addTerm := by
    intro s terms constants a b _ _ hs
    rw [infiniteTerms_cons, ← hs]
    unfold PartialSum.addTerm
    split <;> simp
  moveTerm := fun _ _ _ hs => moveTerm_infinite hs
  same := by
    intro s terms constants a old new _ _ hsame hs
    rw [bne, Bool.not_eq_false'] at hsame
    have hequal := h old new hsame
    rw [infiniteTerms_cons] at hs ⊢
    rw [← hequal]
    exact hs
  addConstant := fun _ hs => hs
  moveConstant := fun _ _ hs => hs
  zero_value := trivial
  zero_constant := trivial
  min_constant := fun _ => trivial
  sum_constant := fun _ => trivial

end BranchBound
