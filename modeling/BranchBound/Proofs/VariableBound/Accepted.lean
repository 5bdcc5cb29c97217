import BranchBound.Model.Draft
import BranchBound.Proofs.Assignment
import BranchBound.Proofs.Number.Exact
import BranchBound.Proofs.VariableBound.Index

/-!
# The accepted variable bounds

Every request to a table of variable bounds is answered: to add a bound of a column over another
one, to restate the bounds of a column after it was replaced, and to remove what mentions a column.
Which bounds were accepted for a pair of columns is kept in a record beside the table; there they
are restated and removed as the table does it. In exact arithmetic the bound in the table is, at
both values of the binary column, the tightest one of this record.
-/

namespace BranchBound

open Checked Exact

namespace VariableBounds

section Requests

variable {α : Type} [Scalar α]

/-- What is asked of a table of variable bounds. A bound is added with respect to a domain. -/
inductive Request (α : Type)
  | add (d : Domain α) (side : Side) (x y : ColumnId) (bound : VariableBound α)
  | transform (c : ColumnId) (scale constant : α)
  | substitute (c : ColumnId)

/-- The table after a request. -/
def Request.perform (t : VariableBounds α) : Request α → Checked (VariableBounds α)
  | .add d side x y bound => do return (← (VariableBounds.add d side x y bound).finish t).2
  | .transform c scale constant => t.transform c scale constant
  | .substitute c => do return (← (VariableBounds.substitute c).finish t).2

/-- Whether a bound is accepted: it is over a binary column other than the bounded one, and the box
does not imply it for both values. -/
def accepts (d : Domain α) (side : Side) (x y : ColumnId) (bound : VariableBound α) : Bool :=
  x != y && passes (d.isBinary y) id && passes (d.boundValue side x) fun current =>
    !(side.tightOrEqual current (bound.evaluate false) &&
      side.tightOrEqual current (bound.evaluate true))

/-- For every side and every pair of columns the bounds that were accepted. -/
abbrev Accepted (α : Type) := Side → ColumnId → ColumnId → List (VariableBound α)

/-- The accepted bounds after a request. With a column that is replaced its bounds are restated, and
those that mention a substituted column are dropped. -/
def Request.note (accepted : Accepted α) : Request α → Accepted α
  | .add d side x y bound => fun side' x' y' =>
      if accepts d side x y bound ∧ side' = side ∧ x' = x ∧ y' = y then accepted side x y ++ [bound]
      else accepted side' x' y'
  | .transform c scale constant => fun side x y =>
      if x = c then (accepted (if scale < 0 then side.opposite else side) c y).map
        (restated scale constant)
      else accepted side x y
  | .substitute c => fun side x y => if x = c ∨ y = c then [] else accepted side x y

/-- The bounds that are accepted in the course of some requests. -/
def acceptedIn (requests : List (Request α)) : Accepted α :=
  requests.foldl Request.note fun _ _ _ => []

/-- A request about the first columns, with a domain that has them. -/
def Request.Fits (n : Nat) : Request α → Prop
  | .add d _ x y _ => x < n ∧ y < n ∧ n ≤ d.model.columns.size ∧ ∀ side, n ≤ (d.bounds side).size
  | .transform c _ _ => c < n
  | .substitute c => c < n

variable {n : Nat} {t : VariableBounds α}

/-- What adding a bound does: it is recorded if it is accepted, and nothing is changed otherwise. -/
theorem Indexed.add (h : t.Indexed n) {d : Domain α} {side : Side} {x y : ColumnId}
    {bound : VariableBound α} (hfits : (Request.add d side x y bound).Fits n) :
    Returns ((Request.add d side x y bound).perform t) fun t' => t'.Indexed n ∧
      ∀ side' x', t'.lines side' x' =
        if accepts d side x y bound ∧ side' = side ∧ x' = x then
          (mergeInto side y bound (t.lines side x)).2 else t.lines side' x' := by
  obtain ⟨hx, hy, hmodel, hbounds⟩ := hfits
  obtain ⟨isBinary, hbinary⟩ : ∃ isBinary, d.isBinary y = .ok isBinary := by
    have hcolumn := Array.getElem?_eq_getElem (Nat.lt_of_lt_of_le hy hmodel)
    exact ⟨_, bind_eq_ok.mpr ⟨_, fetch_eq_ok.mpr hcolumn, rfl⟩⟩
  obtain ⟨current, hcurrent⟩ : ∃ current, d.boundValue side x = .ok current := by
    have hbound := Array.getElem?_eq_getElem (Nat.lt_of_lt_of_le hx (hbounds side))
    exact ⟨_, bind_eq_ok.mpr ⟨_, fetch_eq_ok.mpr hbound, rfl⟩⟩
  have hadd : (VariableBounds.add d side x y bound).perform t =
      if accepts d side x y bound then (VariableBounds.record side x y bound).perform t
      else (.ok false, t) := by
    rw [VariableBounds.add, accepts, hbinary, hcurrent]
    by_cases hxy : x = y
    · simp [hxy]
    · simp only [beq_eq_false_iff_ne.mpr hxy, bne, Bool.false_eq_true, if_false,
        Action.perform_bind,
        Action.perform_lift, passes, id_eq, Bool.not_false, Bool.true_and]
      cases isBinary with
      | false => rfl
      | true =>
          simp only [Bool.not_true, Bool.false_eq_true, if_false, Action.perform_bind,
            Action.perform_lift, Bool.true_and]
          cases side.tightOrEqual current (bound.evaluate false) &&
            side.tightOrEqual current (bound.evaluate true) with
          | false => rfl
          | true => rfl
  cases haccepts : accepts d side x y bound with
  | false =>
      rw [haccepts, if_neg Bool.false_ne_true] at hadd
      refine ⟨t, ?_, h, fun side' x' => by simp⟩
      exact bind_eq_ok.mpr ⟨_, Action.finish_eq_ok.mpr hadd, rfl⟩
  | true =>
      rw [haccepts, if_pos rfl] at hadd
      obtain ⟨⟨changed, u⟩, hrun, hu, hlines⟩ := h.record side hx hy bound
      refine ⟨u, ?_, hu, fun side' x' => by simpa using hlines side' x'⟩
      exact bind_eq_ok.mpr ⟨_, Action.finish_eq_ok.mpr
        (hadd.trans (Action.finish_eq_ok.mp hrun)), rfl⟩

/-- The bounds of a table go with those that were accepted: where there is a bound, it is related to
the accepted ones, and where there is none, none was accepted. -/
structure Represents (R : Side → List (VariableBound α) → VariableBound α → Prop)
    (t : VariableBounds α) (accepted : Accepted α) : Prop where
  present : ∀ side x y bound, (y, bound) ∈ t.lines side x → R side (accepted side x y) bound
  absent : ∀ side x y, y ∉ (t.lines side x).map Prod.fst → accepted side x y = []

/-- A request respects a relation between accepted bounds and the one that stands for them. -/
def Request.Respects (R : Side → List (VariableBound α) → VariableBound α → Prop) :
    Request α → Prop
  | .add _ side _ _ bound => R side [bound] bound ∧ ∀ accepted existing,
      R side accepted existing → R side (accepted ++ [bound]) (merge side existing bound)
  | .transform _ scale constant => ∀ side accepted bound,
      R (if scale < 0 then side.opposite else side) accepted bound →
        R side (accepted.map (restated scale constant)) (restated scale constant bound)
  | .substitute _ => True

variable {R : Side → List (VariableBound α) → VariableBound α → Prop} {accepted : Accepted α}

theorem Represents.perform (hrep : Represents R t accepted) (h : t.Indexed n) {request : Request α}
    (hfits : request.Fits n) (hrespects : request.Respects R) :
    Returns (request.perform t) fun t' => t'.Indexed n ∧
    Represents R t' (request.note accepted) := by
  cases request with
  | add d side x y bound =>
      obtain ⟨hnew, hmerge⟩ := hrespects
      refine (h.add hfits).mono fun t' _ ⟨ht', hlines⟩ => ⟨ht', ?_, ?_⟩
      · intro side' x' y' b hline
        rw [hlines] at hline
        simp only [Request.note]
        split at hline
        · next hhere =>
            obtain ⟨haccepts, rfl, rfl⟩ := hhere
            rcases (mem_mergeInto (h.single side' x')).mp hline with
              ⟨hne, hold⟩ | ⟨rfl, ⟨existing, hexisting, rfl⟩ | ⟨hnone, rfl⟩⟩
            · rw [if_neg fun hall => hne hall.2.2.2]
              exact hrep.present side' x' y' b hold
            · rw [if_pos ⟨haccepts, rfl, rfl, rfl⟩]
              exact hmerge _ _ (hrep.present side' x' y' existing hexisting)
            · rw [if_pos ⟨haccepts, rfl, rfl, rfl⟩, hrep.absent side' x' y' hnone]
              exact hnew
        · next helsewhere =>
            rw [if_neg fun hall => helsewhere ⟨hall.1, hall.2.1, hall.2.2.1⟩]
            exact hrep.present side' x' y' b hline
      · intro side' x' y' hnone
        rw [hlines] at hnone
        simp only [Request.note]
        split at hnone
        · next hhere =>
            obtain ⟨haccepts, rfl, rfl⟩ := hhere
            have hkeys : y' ≠ y ∧ y' ∉ (t.lines side' x').map Prod.fst := by
              rw [map_fst_mergeInto] at hnone
              split at hnone
              · next hold => exact ⟨fun heq => hnone (heq ▸ hold), hnone⟩
              · rw [List.mem_append, List.mem_singleton, not_or] at hnone
                exact hnone.symm
            rw [if_neg fun hall => hkeys.1 hall.2.2.2]
            exact hrep.absent side' x' y' hkeys.2
        · next helsewhere =>
            rw [if_neg fun hall => helsewhere ⟨hall.1, hall.2.1, hall.2.2.1⟩]
            exact hrep.absent side' x' y' hnone
  | transform c scale constant =>
      refine (h.transform hfits scale constant).mono fun t' _ ⟨ht', hlines⟩ => ⟨ht', ?_, ?_⟩
      · intro side x y b hline
        rw [hlines] at hline
        simp only [Request.note]
        split
        · next hx =>
            rw [if_pos hx] at hline
            obtain ⟨⟨y', b'⟩, hline', heq⟩ := List.mem_map.mp hline
            obtain ⟨rfl, rfl⟩ := Prod.mk.inj heq
            exact hrespects side _ b' (hrep.present _ c y' b' hline')
        · next hx =>
            rw [if_neg hx] at hline
            exact hrep.present side x y b hline
      · intro side x y hnone
        rw [hlines] at hnone
        simp only [Request.note]
        split
        · next hx =>
            rw [if_pos hx, List.map_map] at hnone
            rw [hrep.absent _ c y hnone, List.map_nil]
        · next hx =>
            rw [if_neg hx] at hnone
            exact hrep.absent side x y hnone
  | substitute c =>
      refine Returns.bind (h.substitute hfits) fun r _ ⟨hindexed, hlines⟩ =>
        .pure ⟨hindexed, ?_, ?_⟩
      · intro side x y b hline
        obtain ⟨hx, hy, hline⟩ := (hlines side x y b).mp hline
        simp only [Request.note, hx, hy, or_self, if_false]
        exact hrep.present side x y b hline
      · intro side x y hnone
        simp only [Request.note]
        split
        · rfl
        · next hneither =>
            obtain ⟨hx, hy⟩ := not_or.mp hneither
            refine hrep.absent side x y fun hmem => hnone ?_
            obtain ⟨b, hline⟩ := mem_map_fst.mp hmem
            exact mem_map_fst.mpr ⟨b, (hlines side x y b).mpr ⟨hx, hy, hline⟩⟩

/-- All requests are answered, whatever they are. -/
theorem Represents.performAll (hrep : Represents R t accepted) (h : t.Indexed n)
    {requests : List (Request α)} (hfits : ∀ request ∈ requests, request.Fits n)
    (hrespects : ∀ request ∈ requests, request.Respects R) :
    Returns (requests.foldlM Request.perform t) fun t' => t'.Indexed n ∧
      Represents R t' (requests.foldl Request.note accepted) := by
  induction requests generalizing t accepted with
  | nil => exact .pure ⟨h, hrep⟩
  | cons request rest ih =>
      rw [List.foldlM_cons, List.foldl_cons]
      refine (hrep.perform h (hfits request (List.mem_cons_self ..))
        (hrespects request (List.mem_cons_self ..))).bind fun u _ ⟨hu, hurep⟩ => ?_
      exact ih hurep hu (fun r hr => hfits r (List.mem_cons_of_mem _ hr)) fun r hr =>
        hrespects r (List.mem_cons_of_mem _ hr)

omit [Scalar α] in
theorem empty_represents (n : Nat) : Represents R (empty n : VariableBounds α) fun _ _ _ => [] where
  present := fun side x y bound hline => by
    rw [lines_empty] at hline
    cases hline
  absent := fun _ _ _ _ => rfl

/-- A table of the bounds of the first columns is a faithful index of those that were accepted. -/
structure Faithful (n : Nat) (t : VariableBounds α) (accepted : Accepted α) : Prop where
  /-- A column has at most one bound over another one on each side. -/
  single : ∀ side x, ((t.lines side x).map Prod.fst).Nodup
  /-- The columns that are listed under another one are listed once, and have a bound over it. -/
  listed : ∀ x y, (t.under y).Nodup ∧ (x ∈ t.under y ↔ ∃ side bound, (y, bound) ∈ t.lines side x)
  /-- There is a bound exactly where one was accepted. -/
  held : ∀ side x y, (∃ bound, (y, bound) ∈ t.lines side x) ↔ accepted side x y ≠ []
  /-- From a value of a column follow exactly the bounds over it at that value, each once. -/
  implied : ∀ y value, y < n → Returns (t.impliedBy y value) fun changes =>
    (changes.map fun change => (change.column, change.side)).Nodup ∧
    ∀ change, change ∈ changes ↔ ∃ bound, (y, bound) ∈ t.lines change.side change.column ∧
      change.value = bound.evaluate value
  /-- Once a column is substituted, no bound mentions it on either side of a pair. -/
  substituted : ∀ c, c < n → Returns ((Request.substitute c).perform t) fun t' =>
    t'.under c = [] ∧ (∀ y, c ∉ t'.under y) ∧
    ∀ side x y bound, (y, bound) ∈ t'.lines side x → x ≠ c ∧ y ≠ c

omit [Scalar α] in
theorem Indexed.mem_under_iff (h : t.Indexed n) (x y : ColumnId) :
    x ∈ t.under y ↔ ∃ side bound, (y, bound) ∈ t.lines side x := by
  rw [h.listed, mem_binaries]
  simp only [mem_map_fst]

theorem Indexed.substituted (h : t.Indexed n) {c : ColumnId} (hc : c < n) :
    Returns ((Request.substitute c).perform t) fun t' => t'.under c = [] ∧ (∀ y, c ∉ t'.under y) ∧
      ∀ side x y bound, (y, bound) ∈ t'.lines side x → x ≠ c ∧ y ≠ c := by
  refine Returns.bind (h.substitute hc) fun r _ ⟨hr, hlines⟩ => ?_
  have hunmentioned : ∀ side x y bound, (y, bound) ∈ r.2.lines side x → x ≠ c ∧ y ≠ c :=
    fun side x y bound hline => ⟨((hlines side x y bound).mp hline).1,
      ((hlines side x y bound).mp hline).2.1⟩
  refine .pure ⟨List.eq_nil_iff_forall_not_mem.mpr fun x hx => ?_, fun y hc' => ?_, hunmentioned⟩
  · obtain ⟨side, bound, hline⟩ := (hr.mem_under_iff x c).mp hx
    exact (hunmentioned side x c bound hline).2 rfl
  · obtain ⟨side, bound, hline⟩ := (hr.mem_under_iff c y).mp hc'
    exact (hunmentioned side c y bound hline).1 rfl

theorem Indexed.faithful (h : t.Indexed n)
    (hrep : Represents (fun _ accepted _ => accepted ≠ []) t accepted) : t.Faithful n accepted where
  single := h.single
  listed := fun x y => ⟨h.once y, h.mem_under_iff x y⟩
  held := fun side x y => by
    refine ⟨fun ⟨bound, hline⟩ => hrep.present side x y bound hline, fun hsome => ?_⟩
    by_contra hnone
    exact hsome (hrep.absent side x y fun hmem => hnone (mem_map_fst.mp hmem))
  implied := fun y value hy => h.impliedBy_returns hy value
  substituted := fun c hc => h.substituted hc

end Requests

/-- The tighter one of two numbers is one of them and as tight as the other one. -/
theorem tightest_cases {α : Type} [Scalar α] [Scalar.LinearlyOrdered α] (side : Side) {a b : α}
    (ha : Scalar.isNaN a = false) (hb : Scalar.isNaN b = false) :
    tightest side a b = a ∧ side.tightOrEqual a b = true ∨
      tightest side a b = b ∧ side.tightOrEqual b a = true := by
  cases side with
  | lower =>
      by_cases hlt : a < b
      · refine .inr ⟨?_, decide_eq_true (Scalar.Ordered.le_of_lt _ _ hlt)⟩
        simp [tightest, Scalar.max, ha, hb, hlt]
      · refine .inl ⟨?_, decide_eq_true (Scalar.Ordered.le_of_not_lt _ _ ha hb hlt)⟩
        simp [tightest, Scalar.max, ha, hb, hlt]
  | upper =>
      by_cases hlt : b < a
      · refine .inr ⟨?_, decide_eq_true (Scalar.Ordered.le_of_lt _ _ hlt)⟩
        simp [tightest, Scalar.min, ha, hb, hlt]
      · refine .inl ⟨?_, decide_eq_true (Scalar.Ordered.le_of_not_lt _ _ hb ha hlt)⟩
        simp [tightest, Scalar.min, ha, hb, hlt]

end VariableBounds

/-! ### Exact bounds -/

namespace Exact

variable {a b : Exact} {k s : ℚ}

theorem sub_add_number (a : Exact) (k : ℚ) : a - number k + number k = a := by
  cases a with
  | number q => rw [number_sub, number_add, sub_add_cancel]
  | plus | minus | nan => rfl

/-- A value in terms of a column that was replaced by `s` times itself plus `k`. -/
theorem restate_number (hs : s ≠ 0) (q : ℚ) :
    (number q - number k) / number s = number ((q - k) / s) := by
  rw [number_sub, number_div hs]

theorem restate_plus : (plus - number k) / number s = if s < 0 then minus else plus := rfl

theorem restate_minus : (minus - number k) / number s = if s < 0 then plus else minus := rfl

/-- Replacing a column by a positive multiple of it keeps the order of values. -/
theorem restate_le_of_pos (hs : 0 < s) (h : a ≤ b) :
    (a - number k) / number s ≤ (b - number k) / number s := by
  have hnot : ¬s < 0 := not_lt.mpr hs.le
  cases a <;> cases b <;>
    first
    | exact absurd h Bool.false_ne_true
    | (rw [restate_number hs.ne', restate_number hs.ne', number_le]
       exact div_le_div_of_nonneg_right (sub_le_sub_right (number_le.mp h) k) hs.le)
    | (simp only [restate_number hs.ne', restate_plus, restate_minus, if_neg hnot]; rfl)

/-- Replacing a column by a negative multiple of it reverses the order of values. -/
theorem restate_le_of_neg (hs : s < 0) (h : b ≤ a) :
    (a - number k) / number s ≤ (b - number k) / number s := by
  cases a <;> cases b <;>
    first
    | exact absurd h Bool.false_ne_true
    | (rw [restate_number hs.ne, restate_number hs.ne, number_le]
       exact div_le_div_of_nonpos_of_le hs.le (sub_le_sub_right (number_le.mp h) k))
    | (simp only [restate_number hs.ne, restate_plus, restate_minus, if_pos hs]; rfl)

end Exact

/-- A line with a rational value at zero, and a number or an infinity at one. -/
structure VariableBound.Proper (b : VariableBound Exact) : Prop where
  constant : ∃ q, b.constant = number q
  coefficient : b.coefficient ≠ nan

namespace VariableBounds

variable {side : Side} {b b' : VariableBound Exact} {k s : ℚ}

theorem evaluate_not_nan (hb : b.Proper) (value : Bool) : b.evaluate value ≠ nan := by
  obtain ⟨q, hq⟩ := hb.constant
  have hcoefficient := hb.coefficient
  obtain ⟨coefficient, constant⟩ := b
  dsimp only at hq hcoefficient
  subst hq
  cases value with
  | false => exact Exact.noConfusion
  | true =>
      change coefficient + number q ≠ nan
      cases coefficient with
      | number _ | plus | minus => exact Exact.noConfusion
      | nan => exact absurd rfl hcoefficient

theorem merge_evaluate (side : Side) (b b' : VariableBound Exact) (value : Bool)
    (hconstant : ∃ q, (merge side b b').constant = number q) :
    (merge side b b').evaluate value = tightest side (b.evaluate value) (b'.evaluate value) := by
  obtain ⟨q, hq⟩ := hconstant
  cases value with
  | false => rfl
  | true =>
      change tightest side _ _ - (merge side b b').constant + (merge side b b').constant = _
      rw [hq, Exact.sub_add_number]

theorem merge_proper (side : Side) (hb : b.Proper) (hb' : b'.Proper) :
    (merge side b b').Proper := by
  have hnumber {v : Exact} (hv : v ≠ nan) : Scalar.isNaN v = false := isNaN_eq_false.mpr hv
  have hconstant : ∃ q, (merge side b b').constant = number q := by
    change ∃ q, tightest side b.constant b'.constant = number q
    obtain ⟨q, hq⟩ := hb.constant
    obtain ⟨q', hq'⟩ := hb'.constant
    rcases tightest_cases side (hnumber (hq ▸ Exact.noConfusion : b.constant ≠ nan))
      (hnumber (hq' ▸ Exact.noConfusion : b'.constant ≠ nan)) with ⟨heq, -⟩ | ⟨heq, -⟩
    · exact ⟨q, heq.trans hq⟩
    · exact ⟨q', heq.trans hq'⟩
  refine ⟨hconstant, ?_⟩
  obtain ⟨q, hq⟩ := hconstant
  change tightest side (b.evaluate true) (b'.evaluate true) - (merge side b b').constant ≠ nan
  have hone : tightest side (b.evaluate true) (b'.evaluate true) ≠ nan := by
    rcases tightest_cases side (hnumber (evaluate_not_nan hb true))
      (hnumber (evaluate_not_nan hb' true)) with ⟨heq, -⟩ | ⟨heq, -⟩
    · rw [heq]
      exact evaluate_not_nan hb true
    · rw [heq]
      exact evaluate_not_nan hb' true
  rw [hq]
  intro hnan
  apply hone
  rw [← Exact.sub_add_number (tightest side _ _) q, hnan]
  rfl

theorem restated_evaluate (hs : s ≠ 0) (hb : b.Proper) (value : Bool) :
    (restated (number s) (number k) b).evaluate value =
      (b.evaluate value - number k) / number s := by
  obtain ⟨q, hq⟩ := hb.constant
  have hcoefficient := hb.coefficient
  obtain ⟨coefficient, constant⟩ := b
  dsimp only at hq hcoefficient
  subst hq
  cases value with
  | false => rfl
  | true =>
      change coefficient / number s + (number q - number k) / number s =
        (coefficient + number q - number k) / number s
      cases coefficient with
      | number a =>
          rw [number_div hs, restate_number hs, number_add, number_add, restate_number hs]
          congr 1
          ring
      | plus =>
          rw [restate_number hs]
          change (if s < 0 then minus else plus) + _ = if s < 0 then minus else plus
          split <;> rfl
      | minus =>
          rw [restate_number hs]
          change (if s < 0 then plus else minus) + _ = if s < 0 then plus else minus
          split <;> rfl
      | nan => exact absurd rfl hcoefficient

theorem restated_proper (hs : s ≠ 0) (hb : b.Proper) :
    (restated (number s) (number k) b).Proper := by
  obtain ⟨q, hq⟩ := hb.constant
  have hcoefficient := hb.coefficient
  refine ⟨⟨(q - k) / s, ?_⟩, ?_⟩
  · change (b.constant - number k) / number s = _
    rw [hq, restate_number hs]
  · change b.coefficient / number s ≠ nan
    cases hc : b.coefficient with
    | number a =>
        rw [number_div hs]
        exact Exact.noConfusion
    | plus =>
        change (if s < 0 then minus else plus) ≠ nan
        split <;> exact Exact.noConfusion
    | minus =>
        change (if s < 0 then plus else minus) ≠ nan
        split <;> exact Exact.noConfusion
    | nan => exact absurd hc hcoefficient

/-- A value is the tightest one of some bounds at a value of the binary column. -/
def Tightest (side : Side) (bounds : List (VariableBound Exact)) (value : Bool) (v : Exact) :
    Prop :=
  (∀ b ∈ bounds, side.tightOrEqual v (b.evaluate value) = true) ∧ ∃ b ∈ bounds, v = b.evaluate value

/-- A bound stands for some bounds: at both values of the binary column it is the tightest one. -/
structure StandsFor (side : Side) (bounds : List (VariableBound Exact)) (b : VariableBound Exact) :
    Prop where
  proper : b.Proper
  all_proper : ∀ other ∈ bounds, other.Proper
  tightest : ∀ value, Tightest side bounds value (b.evaluate value)

theorem standsFor_singleton (side : Side) (hb : b.Proper) : StandsFor side [b] b := by
  refine ⟨hb, List.forall_mem_singleton.mpr hb, fun value =>
    ⟨List.forall_mem_singleton.mpr ?_, b, List.mem_singleton_self b, rfl⟩⟩
  exact Side.tightOrEqual_refl side (isNaN_eq_false.mpr (evaluate_not_nan hb value))

variable {bounds : List (VariableBound Exact)}

/-- Merged with another bound, it stands for that one too. -/
theorem StandsFor.merge (h : StandsFor side bounds b) (hb' : b'.Proper) :
    StandsFor side (bounds ++ [b']) (merge side b b') := by
  have hproper := merge_proper side h.proper hb'
  refine ⟨hproper, List.forall_mem_append.mpr ⟨h.all_proper, List.forall_mem_singleton.mpr hb'⟩,
    fun value => ?_⟩
  obtain ⟨hall, first, hfirst, hvalue⟩ := h.tightest value
  have hold := isNaN_eq_false.mpr (evaluate_not_nan h.proper value)
  have hnew := isNaN_eq_false.mpr (evaluate_not_nan hb' value)
  rw [merge_evaluate side b b' value hproper.constant]
  rcases tightest_cases side hold hnew with ⟨heq, htight⟩ | ⟨heq, htight⟩
  · rw [heq]
    exact ⟨List.forall_mem_append.mpr ⟨hall, List.forall_mem_singleton.mpr htight⟩, first,
      List.mem_append_left _ hfirst, hvalue⟩
  · rw [heq]
    refine ⟨List.forall_mem_append.mpr
      ⟨fun other hother => ?_, List.forall_mem_singleton.mpr ?_⟩, b',
      List.mem_append_right _ (List.mem_singleton_self _), rfl⟩
    · exact Side.tightOrEqual_trans htight (hall other hother)
    · exact Side.tightOrEqual_refl side hnew

/-- Restated with a replaced column, it stands for the restated bounds. -/
theorem StandsFor.restated (hs : s ≠ 0) (k : ℚ)
    (h : StandsFor (if number s < 0 then side.opposite else side) bounds b) :
    StandsFor side (bounds.map (restated (number s) (number k)))
      (restated (number s) (number k) b) := by
  have hnegative : number s < 0 ↔ s < 0 := by rw [ofNat_eq, number_lt, Nat.cast_zero]
  have htight : ∀ v w : Exact,
    (if number s < 0 then side.opposite else side).tightOrEqual v w = true →
      side.tightOrEqual ((v - number k) / number s) ((w - number k) / number s) = true := by
    intro v w hvw
    rcases lt_or_gt_of_ne hs with hneg | hpos
    · rw [if_pos (hnegative.mpr hneg), Side.tightOrEqual_opposite] at hvw
      cases side with
      | lower => exact decide_eq_true (restate_le_of_neg hneg (of_decide_eq_true hvw))
      | upper => exact decide_eq_true (restate_le_of_neg hneg (of_decide_eq_true hvw))
    · rw [if_neg fun hlt => not_lt.mpr hpos.le (hnegative.mp hlt)] at hvw
      cases side with
      | lower => exact decide_eq_true (restate_le_of_pos hpos (of_decide_eq_true hvw))
      | upper => exact decide_eq_true (restate_le_of_pos hpos (of_decide_eq_true hvw))
  refine ⟨restated_proper hs h.proper, fun other hother => ?_, fun value => ?_⟩
  · obtain ⟨before, hbefore, rfl⟩ := List.mem_map.mp hother
    exact restated_proper hs (h.all_proper before hbefore)
  · obtain ⟨hall, first, hfirst, hvalue⟩ := h.tightest value
    refine ⟨fun other hother => ?_, _, List.mem_map.mpr ⟨first, hfirst, rfl⟩, ?_⟩
    · obtain ⟨before, hbefore, rfl⟩ := List.mem_map.mp hother
      rw [restated_evaluate hs h.proper, restated_evaluate hs (h.all_proper before hbefore)]
      exact htight _ _ (hall before hbefore)
    · rw [restated_evaluate hs h.proper, restated_evaluate hs (h.all_proper first hfirst), hvalue]

/-- The numbers of a request which exact arithmetic takes: lines with a rational value at zero, and
replacements by rational multiples other than zero. -/
def Request.Rational : Request Exact → Prop
  | .add _ _ _ _ bound => bound.Proper
  | .transform _ scale constant => ∃ s k, scale = number s ∧ s ≠ 0 ∧ constant = number k
  | .substitute _ => True

/-- **The variable bounds are a faithful index.** Answer any requests to add bounds, to restate
those of a replaced column and to remove what mentions a substituted one. Then the table is a
faithful index of what was accepted and not removed since, in floating-point numbers too. If the
numbers are exact and rational, the bound of a column over another one is, at either value of the
binary column, the tightest of all those that were accepted, restated where the column was replaced
since. -/
theorem variable_bounds_faithful (n : Nat) :
    (∀ (α : Type) [Scalar α] (requests : List (Request α)),
      (∀ request ∈ requests, request.Fits n) →
      Returns (requests.foldlM Request.perform (empty n)) fun t =>
        t.Faithful n (acceptedIn requests)) ∧
    ∀ requests : List (Request Exact),
      (∀ request ∈ requests, request.Fits n ∧ request.Rational) →
      Returns (requests.foldlM Request.perform (empty n)) fun t =>
        ∀ side x y bound, (y, bound) ∈ t.lines side x → ∀ value,
          Tightest side (acceptedIn requests side x y) value (bound.evaluate value) := by
  refine ⟨fun α _ requests hfits => ?_, fun requests hall => ?_⟩
  · have hrespects : ∀ request ∈ requests,
        request.Respects fun _ (accepted : List (VariableBound α)) _ => accepted ≠ [] := by
      intro request _
      cases request with
      | add d side x y bound =>
          exact ⟨List.cons_ne_nil _ _, fun _ _ _ => List.append_ne_nil_of_right_ne_nil _ (by simp)⟩
      | transform c scale constant => exact fun side accepted b h => by simpa using h
      | substitute c => trivial
    exact ((empty_represents n).performAll (empty_indexed n) hfits hrespects).mono
      fun t _ ⟨ht, hrep⟩ => ht.faithful hrep
  · have hrespects : ∀ request ∈ requests, request.Respects StandsFor := by
      intro request hrequest
      have hrational := (hall request hrequest).2
      cases request with
      | add d side x y bound =>
          exact ⟨standsFor_singleton side hrational, fun _ _ h => h.merge hrational⟩
      | transform c scale constant =>
          obtain ⟨s, k, rfl, hs, rfl⟩ := hrational
          exact fun side accepted b h => h.restated hs k
      | substitute c => trivial
    refine ((empty_represents n).performAll (empty_indexed n)
      (fun request hrequest => (hall request hrequest).1) hrespects).mono fun t _ ⟨_, hrep⟩ => ?_
    exact fun side x y bound hline => (hrep.present side x y bound hline).tightest

/-- A continuous column and two binary ones. -/
def boundedColumns : Draft Exact :=
  ⟨#[⟨0, 0, 10, .continuous⟩, .binary 0, .binary 0], #[], 0⟩

/-- Two upper bounds over one binary column, a replacement by a negative multiple of the bounded
column, and a lower bound over the other binary column. -/
def mixedRequests (d : Domain Exact) : List (Request Exact) :=
  [.add d .upper 0 1 ⟨-3, 8⟩, .add d .upper 0 1 ⟨2, 5⟩, .transform 0 (-2) 1,
    .add d .lower 0 2 ⟨1, 1⟩]

/-- The two upper bounds become one lower bound, the tighter one of them at either value. -/
theorem restated_bounds_tightest :
    ∃ (d : Domain Exact) (t : VariableBounds Exact),
      (∀ request ∈ mixedRequests d, request.Fits 3 ∧ request.Rational) ∧
      (mixedRequests d).foldlM Request.perform (empty 3) = .ok t ∧
      t.lines .lower 0 = [(1, ⟨0, -2⟩), (2, ⟨1, 1⟩)] ∧
      acceptedIn (mixedRequests d) .lower 0 1 = [⟨3 / 2, -7 / 2⟩, ⟨-1, -2⟩] ∧
      t.Faithful 3 (acceptedIn (mixedRequests d)) ∧
      ∀ value, Tightest .lower [⟨3 / 2, -7 / 2⟩, ⟨-1, -2⟩] value (-2) := by
  have hrun : passes boundedColumns.build (fun model => passes (Domain.ofModel model 1e-6) fun d =>
      passes ((mixedRequests d).foldlM Request.perform (empty 3)) fun t =>
        decide (t.lines .lower 0 = [(1, ⟨0, -2⟩), (2, ⟨1, 1⟩)] ∧
          acceptedIn (mixedRequests d) .lower 0 1 = [⟨3 / 2, -7 / 2⟩, ⟨-1, -2⟩] ∧
          d.model.columns.size = 3 ∧ d.lower.size = 3 ∧ d.upper.size = 3)) = true := by
    decide +kernel
  obtain ⟨model, -, hrun⟩ := passes_eq_true.mp hrun
  obtain ⟨d, -, hrun⟩ := passes_eq_true.mp hrun
  obtain ⟨t, ht, hrun⟩ := passes_eq_true.mp hrun
  obtain ⟨hlines, haccepted, hcolumns, hlower, hupper⟩ := of_decide_eq_true hrun
  have hsides (side : Side) : 3 ≤ (d.bounds side).size := by
    cases side with
    | lower => exact hlower.ge
    | upper => exact hupper.ge
  have hrequests : ∀ request ∈ mixedRequests d, request.Fits 3 ∧ request.Rational := by
    simp only [mixedRequests, List.forall_mem_cons, List.not_mem_nil, false_imp_iff, implies_true,
      and_true]
    exact ⟨⟨⟨by decide, by decide, hcolumns.ge, hsides⟩, ⟨_, rfl⟩, Exact.noConfusion⟩,
      ⟨⟨by decide, by decide, hcolumns.ge, hsides⟩, ⟨_, rfl⟩, Exact.noConfusion⟩,
      ⟨show 0 < 3 by decide, -2, 1, by decide +kernel, by decide, by decide +kernel⟩,
      ⟨⟨by decide, by decide, hcolumns.ge, hsides⟩, ⟨_, rfl⟩, Exact.noConfusion⟩⟩
  obtain ⟨hindex, htightest⟩ := variable_bounds_faithful 3
  refine ⟨d, t, hrequests, ht, hlines, haccepted, ?_, fun value => ?_⟩
  · exact (hindex Exact _ fun request hrequest => (hrequests request hrequest).1).of_eq_ok ht
  · have hvalue := (htightest _ hrequests).of_eq_ok ht .lower 0 1 ⟨0, -2⟩ (by simp [hlines]) value
    have hlevel : (⟨0, -2⟩ : VariableBound Exact).evaluate value = -2 := by
      cases value <;> decide +kernel
    rwa [haccepted, hlevel] at hvalue

end VariableBounds

/-! ### Assignments that satisfy variable bounds

A line has a value for every value of the binary column, not only for zero and one. An assignment
satisfies a table of variable bounds if every bounded column is on its side of the line over the
binary column. A column can be bounded and bound others in one table, so the two roles are read at
two assignments, and the table is satisfied by one of them if they are the same. -/

namespace VariableBound

variable {b : VariableBound Exact} {k s : ℚ}

/-- The value of the line at any value of the column which it is over. -/
def valueAt (b : VariableBound Exact) (y : ℚ) : Exact :=
  if y = 0 then b.constant else b.coefficient * number y + b.constant

/-- At zero and at one this is the value which the table takes. -/
theorem valueAt_binary (b : VariableBound Exact) (value : Bool) :
    b.valueAt (if value then 1 else 0) = b.evaluate value := by
  cases value with
  | false => rfl
  | true =>
      have hone : b.coefficient * number 1 = b.coefficient := by
        cases b.coefficient with
        | number q => rw [number_mul, mul_one]
        | plus | minus | nan => rfl
      simp [valueAt, evaluate, hone]

/-- Restating a line restates its value everywhere. -/
theorem valueAt_restated (hs : s ≠ 0) (b : VariableBound Exact) (y : ℚ) :
    (VariableBounds.restated (number s) (number k) b).valueAt y =
      (b.valueAt y - number k) / number s := by
  unfold valueAt VariableBounds.restated
  split
  · rfl
  · rw [div_mul_number hs, ← add_div_number hs, add_sub_number]

end VariableBound

namespace VariableBounds

/-- The lines bound the columns of one assignment at the values which the binary columns have in
another one. -/
def HoldsBetween (t : VariableBounds Exact) (bounded binary : Assignment) : Prop :=
  ∀ side x y b, (y, b) ∈ t.lines side x → bounded.reading.Holds ⟨x, side, b.valueAt (binary y)⟩

/-- An assignment satisfies all bounds. -/
def SatisfiedBy (t : VariableBounds Exact) (a : Assignment) : Prop := t.HoldsBetween a a

end VariableBounds

end BranchBound
