import BranchBound.Domain.Change
import BranchBound.Proofs.Number.Order

/-!
# Bounds as numbers of an order

Among numbers that are ordered, how tight bounds of one side are is an order too. What
`Domain.acceptedValue` makes of a change in a box that is not empty is never less tight than the
bound it replaces. Nothing else is used of the numbers than their order, so this holds for floating
point numbers as it does for exact ones.
-/

namespace BranchBound

variable {α : Type} [Scalar α]

namespace Side

variable [Scalar.LinearlyOrdered α] {side : Side} {a b c : α}

theorem tightOrEqual_refl (side : Side) (ha : Scalar.isNaN a = false) :
    side.tightOrEqual a a = true := by
  cases side <;> exact decide_eq_true (Scalar.Ordered.le_refl a ha)

theorem tightOrEqual_trans (hab : side.tightOrEqual a b = true)
    (hbc : side.tightOrEqual b c = true) : side.tightOrEqual a c = true := by
  cases side with
  | lower =>
      exact decide_eq_true (Scalar.Ordered.le_trans _ _ _ (of_decide_eq_true hbc)
        (of_decide_eq_true hab))
  | upper =>
      exact decide_eq_true (Scalar.Ordered.le_trans _ _ _ (of_decide_eq_true hab)
        (of_decide_eq_true hbc))

theorem number_of_tightOrEqual (h : side.tightOrEqual a b = true) :
    Scalar.isNaN a = false ∧ Scalar.isNaN b = false := by
  cases side with
  | lower => exact (Scalar.Ordered.number_of_le _ _ (of_decide_eq_true h)).symm
  | upper => exact Scalar.Ordered.number_of_le _ _ (of_decide_eq_true h)

theorem number_of_tighter (h : side.tighter a b = true) :
    Scalar.isNaN a = false ∧ Scalar.isNaN b = false := by
  cases side with
  | lower => exact (Scalar.number_of_lt (of_decide_eq_true h)).symm
  | upper => exact Scalar.number_of_lt (of_decide_eq_true h)

theorem tightOrEqual_of_tighter (h : side.tighter a b = true) : side.tightOrEqual a b = true := by
  cases side <;> exact decide_eq_true (Scalar.Ordered.le_of_lt _ _ (of_decide_eq_true h))

theorem not_tightOrEqual_of_tighter (h : side.tighter a b = true) :
    side.tightOrEqual b a = false := by
  cases side <;> exact decide_eq_false (Scalar.not_le_of_lt (of_decide_eq_true h))

theorem tighter_of_not_tightOrEqual (ha : Scalar.isNaN a = false) (hb : Scalar.isNaN b = false)
    (h : side.tightOrEqual a b = false) : side.tighter b a = true := by
  cases side with
  | lower => exact decide_eq_true (Scalar.lt_of_not_le hb ha (of_decide_eq_false h))
  | upper => exact decide_eq_true (Scalar.lt_of_not_le ha hb (of_decide_eq_false h))

theorem tighter_irrefl (side : Side) (a : α) : side.tighter a a = false := by
  by_contra htighter
  rw [Bool.not_eq_false] at htighter
  have htight := tightOrEqual_of_tighter htighter
  rw [not_tightOrEqual_of_tighter htighter] at htight
  cases htight

theorem tighter_trans (hab : side.tighter a b = true) (hbc : side.tighter b c = true) :
    side.tighter a c = true := by
  by_contra hac
  have htight : side.tightOrEqual c a = true := by
    by_contra hnot
    exact hac (tighter_of_not_tightOrEqual (number_of_tighter hbc).2 (number_of_tighter hab).1
      (Bool.not_eq_true _ ▸ hnot))
  have hback := tightOrEqual_trans (tightOrEqual_of_tighter hbc) htight
  rw [not_tightOrEqual_of_tighter hab] at hback
  cases hback

omit [Scalar.LinearlyOrdered α] in
/-- Of two equal bounds either is as tight as the other. -/
theorem same_iff : Scalar.Same a b ↔ side.tightOrEqual a b = true ∧
    side.tightOrEqual b a = true := by
  cases side with
  | lower => simp [Scalar.Same, tightOrEqual, and_comm]
  | upper => simp [Scalar.Same, tightOrEqual]

omit [Scalar.LinearlyOrdered α] in
/-- What is less tight for one side is tighter for the other one. -/
theorem tightOrEqual_opposite (a b : α) :
    side.opposite.tightOrEqual a b = side.tightOrEqual b a := by
  cases side <;> rfl

end Side

namespace Domain

variable {side : Side} {feastol current opposite value accepted : α} {isBranching crossing : Bool}

/-- What is accepted in a box that is not empty: a bound at least as tight as the current one, and
a tighter one unless it is a decision. It leaves the box not empty unless it crosses. -/
structure Tightens (side : Side) (current opposite : α) (isBranching : Bool) (accepted : α)
    (crossing : Bool) : Prop where
  tight : side.tightOrEqual accepted current = true
  tighter : isBranching = false → side.tighter accepted current = true
  ordered : crossing = false → side.tightOrEqual opposite accepted = true

variable [Scalar.LinearlyOrdered α]

/-- What is not a number is not compared with anything: it is accepted as it is. -/
theorem acceptedValue_nan (hvalue : Scalar.isNaN value = true) :
    acceptedValue side feastol current opposite value isBranching = some (value, false) := by
  have hstays : side.tightOrEqual current value = false := by
    by_contra htight
    have hnumber := (Side.number_of_tightOrEqual (Bool.not_eq_false _ ▸ htight)).2
    rw [hvalue] at hnumber
    cases hnumber
  have hinside : side.tighter value opposite = false := by
    by_contra htighter
    have hnumber := (Side.number_of_tighter (Bool.not_eq_false _ ▸ htighter)).1
    rw [hvalue] at hnumber
    cases hnumber
  simp [acceptedValue, hstays, hinside]

/-- A change to a bound within the opposite one is not altered, except that a decision which is not
tighter than the current bound repeats that bound. -/
theorem acceptedValue_of_inside (hcurrent : side.tightOrEqual opposite current = true)
    (hvalue : side.tightOrEqual opposite value = true) :
    acceptedValue side feastol current opposite value isBranching =
      if side.tightOrEqual current value then if isBranching then some (current, false) else none
      else some (value, false) := by
  have hinside {v : α} (hv : side.tightOrEqual opposite v = true) :
      side.tighter v opposite = false := by
    by_contra htighter
    rw [Side.not_tightOrEqual_of_tighter (Bool.not_eq_false _ ▸ htighter)] at hv
    cases hv
  cases hstays : side.tightOrEqual current value with
  | true => cases isBranching <;> simp [acceptedValue, hstays, hinside hcurrent]
  | false => simp [acceptedValue, hstays, hinside hvalue]

/-- A number that is accepted was a number before. -/
theorem number_of_acceptedValue
    (h : acceptedValue side feastol current opposite value isBranching = some (accepted, crossing))
    (haccepted : Scalar.isNaN accepted = false) : Scalar.isNaN value = false := by
  by_contra hnan
  rw [Bool.not_eq_false] at hnan
  rw [acceptedValue_nan hnan] at h
  cases h
  rw [hnan] at haccepted
  cases haccepted

/-- A change that is not a decision is only accepted if it makes the bound tighter, also in an empty
box. -/
theorem acceptedValue_tighter (hcurrent : Scalar.isNaN current = false)
    (hopposite : Scalar.isNaN opposite = false) (hvalue : Scalar.isNaN value = false)
    (h : acceptedValue side feastol current opposite value false = some (accepted, crossing)) :
    side.tighter accepted current = true := by
  simp only [acceptedValue, Bool.not_false, Bool.and_true] at h
  cases hstays : side.tightOrEqual current value with
  | true =>
      rw [hstays, if_pos rfl] at h
      cases h
  | false =>
      have htighter := Side.tighter_of_not_tightOrEqual hcurrent hvalue hstays
      simp only [hstays, Bool.false_eq_true, if_false] at h
      split at h
      · split at h
        · split at h
          · cases h
          · next hkept =>
              obtain ⟨rfl, -⟩ := Prod.mk.inj (Option.some.inj h)
              exact Side.tighter_of_not_tightOrEqual hcurrent hopposite (Bool.not_eq_true _ ▸ hkept)
        · obtain ⟨rfl, -⟩ := Prod.mk.inj (Option.some.inj h)
          exact htighter
      · obtain ⟨rfl, -⟩ := Prod.mk.inj (Option.some.inj h)
        exact htighter

theorem acceptedValue_tightens (hcurrent : Scalar.isNaN current = false)
    (hopposite : Scalar.isNaN opposite = false) (hvalue : Scalar.isNaN value = false)
    (hordered : side.tightOrEqual opposite current = true)
    (h : acceptedValue side feastol current opposite value isBranching =
      some (accepted, crossing)) :
    Tightens side current opposite isBranching accepted crossing := by
  have htighter : isBranching = false → side.tighter accepted current = true := by
    rintro rfl
    exact acceptedValue_tighter hcurrent hopposite hvalue h
  simp only [acceptedValue] at h
  cases hstays : side.tightOrEqual current value with
  | true =>
      simp only [hstays, Bool.true_and, if_true] at h
      have hbranching : isBranching = true := by
        by_contra hnot
        simp [hnot] at h
      have hnot : side.tighter current opposite = false := by
        by_contra htighter
        rw [Bool.not_eq_false] at htighter
        rw [Side.not_tightOrEqual_of_tighter htighter] at hordered
        cases hordered
      simp only [hbranching, hnot, Bool.not_true, Bool.false_eq_true, if_false, Option.some.injEq,
        Prod.mk.injEq] at h
      obtain ⟨rfl, rfl⟩ := h
      exact ⟨Side.tightOrEqual_refl side hcurrent, htighter, fun _ => hordered⟩
  | false =>
      have hvalueTight := Side.tightOrEqual_of_tighter
        (Side.tighter_of_not_tightOrEqual hcurrent hvalue hstays)
      simp only [hstays, Bool.false_and, Bool.false_eq_true, if_false] at h
      split at h
      · split at h
        · split at h
          · cases h
          · obtain ⟨rfl, rfl⟩ := Prod.mk.inj (Option.some.inj h)
            exact ⟨hordered, htighter, fun _ => Side.tightOrEqual_refl side hopposite⟩
        · obtain ⟨rfl, rfl⟩ := Prod.mk.inj (Option.some.inj h)
          exact ⟨hvalueTight, htighter, fun hfalse => by cases hfalse⟩
      · next hinside =>
          obtain ⟨rfl, rfl⟩ := Prod.mk.inj (Option.some.inj h)
          refine ⟨hvalueTight, htighter, fun _ => ?_⟩
          by_contra hcross
          rw [Bool.not_eq_true] at hcross
          exact hinside (Side.tighter_of_not_tightOrEqual hopposite hvalue hcross)

end Domain

end BranchBound
