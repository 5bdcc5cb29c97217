import BranchBound.Proofs.Domain.WholeColumns
import Mathlib.Algebra.Order.BigOperators.Group.List

/-!
# The width of a box

The width of a box is the sum, over the integer columns, of the differences between their bounds. A
box of whole numbers that is not empty has a width that is not negative. It does not grow while
bounds are tightened, and setting a bound to a whole number strictly inside takes at least one off.
So the width at the beginning limits how often that can be done.
-/

namespace BranchBound

open Checked Exact

namespace Trail

variable {α : Type} {allowed allowed' : Trail α → BoundChange α → Reason → Prop}
  {start t t' : Trail α}

/-- A trail is known from where it started and from its log. -/
theorem Built.unique (hstart : start.Fresh) (h : Built allowed start t)
    (h' : Built allowed' start t') (hlog : t.log = t'.log) : t = t' := by
  induction h generalizing t' with
  | start =>
      cases h' with
      | start => rfl
      | append => simp [hstart.log] at hlog
  | append _ _ _ ih =>
      cases h' with
      | start => simp [hstart.log] at hlog
      | append h' _ _ =>
          rw [append_log, append_log, Array.push_eq_push] at hlog
          obtain ⟨hentry, hlog⟩ := hlog
          cases hentry
          rw [ih h' hlog]

/-- What a log was before is found again by rewinding any trail whose log goes on from there. -/
theorem Built.rewindTo_eq (hstart : start.Fresh) (h : Built allowed start t)
    (h' : Built allowed' start t') (hlog : t.log.toList <+: t'.log.toList) {q : Nat}
    (hq : q ≤ t.log.size) : t'.rewindTo q = t.rewindTo q := by
  have hback : t'.rewindTo t.log.size = t := by
    refine (h'.rewindTo hstart _).unique hstart h ?_
    have htake := (List.prefix_iff_eq_take.mp hlog).symm
    rw [rewindTo_log, ← Array.toList_inj]
    simpa using htake
  rw [← rewindTo_rewindTo t' hq, hback]

end Trail

namespace Model

variable {m : Model Exact} {β β' : BoundValues Exact}

/-- The sum of the differences between the bounds of the integer columns. -/
def width (m : Model Exact) (β : BoundValues Exact) : ℚ :=
  (m.integerColumns.map fun c => (β .upper c).toRat - (β .lower c).toRat).sum

/-- Setting the bound cuts the box: the column is an integer column, and the bound is a whole number
strictly inside the present bound and not beyond the opposite one. -/
structure Cuts (m : Model Exact) (β : BoundValues Exact) (x : BoundChange Exact) : Prop where
  integer : m.IsIntegerColumn x.column
  whole : IsWhole x.value
  tighter : x.side.tighter x.value (β x.side x.column) = true
  inside : x.side.tightOrEqual (β x.side.opposite x.column) x.value = true

/-- The bounds of the integer columns are whole numbers in order. -/
def Whole (m : Model Exact) (β : BoundValues Exact) : Prop :=
  ∀ c, m.IsIntegerColumn c →
    ∃ k l : ℤ, β .lower c = number k ∧ β .upper c = number l ∧ k ≤ l

theorem nodup_integerColumns (m : Model Exact) : m.integerColumns.Nodup :=
  List.nodup_range.filter _

theorem Whole.width_nonneg (h : m.Whole β) : 0 ≤ m.width β := by
  refine List.sum_nonneg fun x hx => ?_
  obtain ⟨c, hc, rfl⟩ := List.mem_map.mp hx
  obtain ⟨k, l, hk, hl, hkl⟩ := h c (mem_integerColumns.mp hc)
  simpa [hk, hl] using hkl

/-- A box inside of another one is not wider. -/
theorem Whole.width_le (h : m.Whole β) (h' : m.Whole β')
    (hinside : ∀ (side : Side) c, m.IsIntegerColumn c →
      side.tightOrEqual (β' side c) (β side c) = true) :
    m.width β' ≤ m.width β := by
  refine List.sum_le_sum fun c hc => ?_
  have hc := mem_integerColumns.mp hc
  obtain ⟨k, l, hk, hl, -⟩ := h c hc
  obtain ⟨k', l', hk', hl', -⟩ := h' c hc
  have hlower : β .lower c ≤ β' .lower c := of_decide_eq_true (hinside .lower c hc)
  have hupper : β' .upper c ≤ β .upper c := of_decide_eq_true (hinside .upper c hc)
  rw [hk, hk', number_le] at hlower
  rw [hl, hl', number_le] at hupper
  simp only [hk, hl, hk', hl', toRat_number]
  linarith

/-- A cut leaves a box of whole numbers. -/
theorem Cuts.whole_set {x : BoundChange Exact} (h : m.Cuts β x) (hβ : m.Whole β) :
    m.Whole (β.set x.side x.column x.value) := by
  intro c hc
  obtain ⟨k, l, hk, hl, hkl⟩ := hβ c hc
  by_cases hcolumn : c = x.column
  · subst hcolumn
    obtain ⟨c, side, value⟩ := x
    have htighter := h.tighter
    have hinside := h.inside
    cases side with
    | lower =>
        have hup : value ≤ number l := hl ▸ of_decide_eq_true hinside
        have hlow : number k < value := hk ▸ of_decide_eq_true htighter
        obtain ⟨z, rfl⟩ := h.whole.exists_int
          (exists_number_of_between (Exact.le_of_lt hlow) hup)
        refine ⟨z, l, BoundValues.set_self .., ?_, by exact_mod_cast number_le.mp hup⟩
        rw [BoundValues.set_of_ne _ _ fun hset => by cases hset.1]
        exact hl
    | upper =>
        have hlow : number k ≤ value := hk ▸ of_decide_eq_true hinside
        have hup : value < number l := hl ▸ of_decide_eq_true htighter
        obtain ⟨z, rfl⟩ := h.whole.exists_int
          (exists_number_of_between hlow (Exact.le_of_lt hup))
        refine ⟨k, z, ?_, BoundValues.set_self .., by exact_mod_cast number_le.mp hlow⟩
        rw [BoundValues.set_of_ne _ _ fun hset => by cases hset.1]
        exact hk
  · refine ⟨k, l, ?_, ?_, hkl⟩
    · rw [BoundValues.set_of_ne _ _ fun hset => hcolumn hset.2]
      exact hk
    · rw [BoundValues.set_of_ne _ _ fun hset => hcolumn hset.2]
      exact hl

/-- A cut takes at least one off the width. -/
theorem Cuts.width_set {x : BoundChange Exact} (h : m.Cuts β x) (hβ : m.Whole β) :
    m.width (β.set x.side x.column x.value) + 1 ≤ m.width β := by
  have hmem : x.column ∈ m.integerColumns := mem_integerColumns.mpr h.integer
  have hrest : (m.integerColumns.erase x.column).map (fun c =>
        (β.set x.side x.column x.value .upper c).toRat -
          (β.set x.side x.column x.value .lower c).toRat) =
      (m.integerColumns.erase x.column).map fun c => (β .upper c).toRat - (β .lower c).toRat := by
    refine List.map_congr_left fun c hc => ?_
    have hne := (m.nodup_integerColumns.mem_erase_iff.mp hc).1
    rw [BoundValues.set_of_ne _ _ fun hset => hne hset.2,
      BoundValues.set_of_ne _ _ fun hset => hne hset.2]
  rw [width, width, ← List.sum_map_erase _ hmem, ← List.sum_map_erase (l := m.integerColumns) _
    hmem,
    hrest]
  obtain ⟨k, l, hk, hl, -⟩ := hβ x.column h.integer
  obtain ⟨k', l', hk', hl', -⟩ := h.whole_set hβ x.column h.integer
  have hcut : (l' - k' : ℤ) + 1 ≤ l - k := by
    obtain ⟨c, side, value⟩ := x
    have htighter := h.tighter
    cases side with
    | lower =>
        simp only [BoundValues.set, and_self, if_true, reduceCtorEq, false_and, if_false] at hk' hl'
        have hlt : number k < number k' := hk' ▸ hk ▸ of_decide_eq_true htighter
        have hsame : l = l' := by exact_mod_cast Exact.number.inj (hl.symm.trans hl')
        have hlt : k < k' := by exact_mod_cast number_lt.mp hlt
        omega
    | upper =>
        simp only [BoundValues.set, and_self, if_true, reduceCtorEq, false_and, if_false] at hk' hl'
        have hlt : number l' < number l := hl' ▸ hl ▸ of_decide_eq_true htighter
        have hsame : k = k' := by exact_mod_cast Exact.number.inj (hk.symm.trans hk')
        have hlt : l' < l := by exact_mod_cast number_lt.mp hlt
        omega
  have hcut : (l' - k' : ℚ) + 1 ≤ l - k := by exact_mod_cast hcut
  simp only [hk, hl, hk', hl', toRat_number]
  linarith

end Model

namespace Trail.Narrowed

variable {m : Model Exact} {t : Trail Exact}

theorem box_whole (h : Narrowed m t) (hm : m.Boxed) (hordered : t.OrderedOn m) :
    m.Whole t.values :=
  fun _ hc => h.exists_int hm hordered hc

theorem narrowed_rewindTo (h : Narrowed m t) (p : Nat) : Narrowed m (t.rewindTo p) :=
  Built.rewindTo (fresh_ofModel m) h p

/-- The box was not empty before. -/
theorem orderedOn_rewindTo (h : Narrowed m t) (hordered : t.OrderedOn m) (p : Nat) :
    (t.rewindTo p).OrderedOn m := by
  have hstart := fresh_ofModel m
  by_cases hp : p < t.log.size
  · exact h.of_rewindTo hstart (fun _ _ _ hallowed => hallowed.ordered) hp
  · rw [rewindTo_of_le (h.decisionsLogged hstart) (Nat.le_of_not_lt hp)]
    exact hordered

/-- No bound of an integer column was tighter before. -/
theorem tightOrEqual_rewindTo (h : Narrowed m t) (hm : m.Boxed) (p : Nat) (side : Side)
    {c : ColumnId} (hc : m.IsIntegerColumn c) :
    side.tightOrEqual (t.values side c) ((t.rewindTo p).values side c) = true := by
  have hstart := fresh_ofModel m
  have hkept {t : Trail Exact} (h : Narrowed m t) (hp : t.log.size ≤ p) :
      side.tightOrEqual (t.values side c) ((t.rewindTo p).values side c) = true := by
    rw [rewindTo_of_le (h.decisionsLogged hstart) hp]
    exact Side.tightOrEqual_refl side (isNaN_eq_false.mpr (whole h hm hc side).not_nan)
  induction h with
  | start => exact hkept .start (Nat.zero_le p)
  | @append t change reason previous h hprevious hallowed ih =>
      by_cases hp : p ≤ t.log.size
      · rw [rewindTo_append t change reason previous hprevious hp, values_append hprevious]
        refine Side.tightOrEqual_trans ?_ ih
        by_cases hset : side = change.side ∧ c = change.column
        · obtain ⟨rfl, rfl⟩ := hset
          rw [BoundValues.set_self]
          exact hallowed.tight hc
        · rw [BoundValues.set_of_ne _ _ hset]
          exact Side.tightOrEqual_refl side (isNaN_eq_false.mpr (whole h hm hc side).not_nan)
      · refine hkept (h.append hprevious hallowed) ?_
        rw [append_log, Array.size_push]
        omega

/-- The box was not less wide before. -/
theorem width_le_rewindTo (h : Narrowed m t) (hm : m.Boxed) (hordered : t.OrderedOn m) (p : Nat) :
    m.width t.values ≤ m.width (t.rewindTo p).values :=
  Model.Whole.width_le
    ((h.narrowed_rewindTo p).box_whole hm (h.orderedOn_rewindTo hordered p))
    (h.box_whole hm hordered) fun side _ hc => h.tightOrEqual_rewindTo hm p side hc

/-- The box is not wider than that of any trail from which the log goes on. -/
theorem width_le (h : Narrowed m t) (hm : m.Boxed) (hordered : t.OrderedOn m) {t₀ : Trail Exact}
    (h₀ : Narrowed m t₀) (hlog : t₀.log.toList <+: t.log.toList) :
    m.width t.values ≤ m.width t₀.values := by
  have hstart := fresh_ofModel m
  have hle := h.width_le_rewindTo hm hordered t₀.log.size
  rwa [h₀.rewindTo_eq hstart h hlog (Nat.le_refl _),
    rewindTo_size _ (h₀.decisionsLogged hstart)] at hle

end Trail.Narrowed

namespace Domain

variable {m : Model Exact} {d d' : Domain Exact}

/-- A bound strictly inside the present one and not beyond the opposite one is accepted as it is. -/
theorem acceptedValue_inside {side : Side} {feastol current opposite value : Exact}
    {isBranching : Bool} (htighter : side.tighter value current = true)
    (hinside : side.tightOrEqual opposite value = true) :
    acceptedValue side feastol current opposite value isBranching = some (value, false) := by
  have hstays := Side.not_tightOrEqual_of_tighter htighter
  have hbefore : side.tighter value opposite = false := by
    by_contra hbeyond
    rw [Side.not_tightOrEqual_of_tighter (Bool.not_eq_false _ ▸ hbeyond)] at hinside
    cases hinside
  simp [acceptedValue, hstays, hbefore]

/-- A cut of a feasible domain is logged as it is. -/
theorem changeBound_of_cuts {change : BoundChange Exact} {reason : Reason}
    (hcut : m.Cuts d.trail.values change) (hfeasible : d.infeasible = none)
    (hchange : d.changeBound change reason = .ok d') :
    ∃ previous, (d.trail.bounds change.side)[change.column]? = some previous ∧
      d'.trail = d.trail.append change reason previous := by
  rcases changeBound_eq_ok hchange with ⟨hsome, -⟩ |
    ⟨-, current, opposite, hcurrent, hopposite, haccepted⟩
  · rw [hfeasible] at hsome
    cases hsome
  have htighter := hcut.tighter
  have hinside := hcut.inside
  rw [trail_values, values_eq hcurrent] at htighter
  rw [trail_values, values_eq hopposite] at hinside
  rw [acceptedValue_inside htighter hinside] at haccepted
  rcases haccepted with ⟨hnone, -⟩ | ⟨value, crossing, hsome, happly⟩
  · cases hnone
  · cases hsome
    obtain ⟨previous, hprevious, hfollows⟩ := applyChange_trail happly
    refine ⟨previous, trail_bounds d _ ▸ hprevious, ?_⟩
    have htrail : d'.trail = _ := hfollows.trail
    rwa [withTrail_trail] at htrail

/-- A cut takes at least one off the width of a feasible domain. -/
theorem Narrow.cut_width (h : d.Narrow m) (hm : m.Boxed) {change : BoundChange Exact}
    {reason : Reason} (hcut : m.Cuts d.trail.values change) (hfeasible : d.infeasible = none)
    (hchange : d.changeBound change reason = .ok d') :
    0 ≤ m.width d'.trail.values ∧ m.width d'.trail.values + 1 ≤ m.width d.trail.values := by
  obtain ⟨previous, hprevious, htrail⟩ := changeBound_of_cuts hcut hfeasible hchange
  have hwhole := h.built.box_whole hm (h.ordered hfeasible)
  rw [htrail, Trail.values_append hprevious]
  exact ⟨(hcut.whole_set hwhole).width_nonneg, hcut.width_set hwhole⟩

end Domain

end BranchBound
