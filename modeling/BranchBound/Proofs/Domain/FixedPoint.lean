import BranchBound.Proofs.Domain.Growth
import BranchBound.Proofs.Domain.Level
import BranchBound.Proofs.Domain.Progress
import BranchBound.Proofs.Domain.Unrolling
import Mathlib

/-!
# Propagation ends where a point is allowed

Every bound is a whole distance away from a point of the box, or infinitely far from it. A change
that is derived puts a whole value between a bound and the point, so the distances go down with
every round that changes a bound; and after a round that changes none no row waits. So propagation
ends, the point is still in the box, and the domain is feasible.
-/

namespace BranchBound

open Checked Exact

variable {x : Point} {f : ℚ} {a : Domain.Anchor}

/-- How far a bound is from a value, rounded up. -/
def Side.distance (side : Side) (bound : Exact) (v : ℤ) : WithTop ℕ :=
  match bound, side with
  | number q, .lower => (⌈(v : ℚ) - q⌉.toNat : ℕ)
  | number q, .upper => (⌈q - (v : ℚ)⌉.toNat : ℕ)
  | _, _ => ⊤

/-- A tighter bound with a whole value that still holds is closer. -/
theorem Side.distance_lt {side : Side} {c : ColumnId} {k : ℤ} {bound : Exact}
    (htighter : side.tighter (number (k : ℚ)) bound = true)
    (hholds : (⟨c, side, number (k : ℚ)⟩ : BoundChange Exact).HoldsAt x) :
    side.distance (number (k : ℚ)) (x c) < side.distance bound (x c) := by
  have hgap : ∀ (n : ℤ) (r : ℚ), 0 ≤ n → (n : ℚ) < r → (⌈(n : ℚ)⌉.toNat : ℕ) < ⌈r⌉.toNat := by
    intro n r hn hlt
    have hceil : n < ⌈r⌉ := Int.lt_ceil.mpr hlt
    rw [Int.ceil_intCast]
    omega
  cases bound with
  | plus | minus | nan => cases side <;> exact WithTop.coe_lt_top (_ : ℕ)
  | number q =>
      cases side with
      | lower =>
          have hq : q < k := number_lt.mp (of_decide_eq_true htighter)
          have hle : k ≤ x c := Int.cast_le.mp (number_le.mp hholds)
          have hlt := hgap (x c - k) (x c - q) (by omega) (by push_cast; linarith)
          rw [Int.cast_sub] at hlt
          exact WithTop.coe_lt_coe.mpr hlt
      | upper =>
          have hq : (k : ℚ) < q := number_lt.mp (of_decide_eq_true htighter)
          have hle : x c ≤ k := Int.cast_le.mp (number_le.mp hholds)
          have hlt := hgap (k - x c) (q - x c) (by omega) (by push_cast; linarith)
          rw [Int.cast_sub] at hlt
          exact WithTop.coe_lt_coe.mpr hlt

instance : Finite Side :=
  Finite.of_surjective (fun lower : Bool => if lower then Side.lower else .upper) fun side => by
    cases side with
    | lower => exact ⟨true, rfl⟩
    | upper => exact ⟨false, rfl⟩

/-- How far every bound of the first columns is from a point. -/
def BoundValues.distance (β : BoundValues Exact) (columnCount : Nat) (x : Point) :
    Side × Fin columnCount → WithTop ℕ :=
  fun i => i.1.distance (β i.1 i.2) (x i.2)

theorem BoundValues.distance_set_lt {β : BoundValues Exact} {columnCount : Nat} {side : Side}
    {c : ColumnId} {k : ℤ} (hc : c < columnCount)
    (htighter : side.tighter (number (k : ℚ)) (β side c) = true)
    (hholds : (⟨c, side, number (k : ℚ)⟩ : BoundChange Exact).HoldsAt x) :
    (β.set side c (number k)).distance columnCount x < β.distance columnCount x := by
  have hcloser := Side.distance_lt htighter hholds
  refine Pi.lt_def.mpr ⟨fun i => ?_, (side, ⟨c, hc⟩), ?_⟩
  · by_cases hset : i.1 = side ∧ (i.2 : Nat) = c
    · simp only [distance]
      rw [hset.1, hset.2, set_self]
      exact hcloser.le
    · simp only [distance]
      rw [set_of_ne _ _ hset]
  · simp only [distance]
    rw [set_self]
    exact hcloser

namespace Domain

variable {d d' : Domain Exact} {change : BoundChange Exact} {reason : Reason}

theorem impliedChange_isWhole (h : d.Sound a f) {rhs : Exact} {min : PartialSum Exact}
    {entry : ColumnId × Exact} (hchange : d.impliedChange rhs min entry = .ok (some change)) :
    ∃ k : ℤ, change.value = number k := by
  simp only [impliedChange, bind_eq_ok] at hchange
  obtain ⟨_, -, hchange⟩ := hchange
  split at hchange
  · cases hchange
  · obtain ⟨q, hvalue, -⟩ :=
      (acceptedBound_accepted h.integer h.feastol h.positive hchange).value
    exact ⟨_, hvalue⟩

/-- Every change that is derived has a whole value. -/
theorem Sound.derived_isWhole (h : d.Sound a f) (hderived : d.Derived change reason) :
    ∃ k : ℤ, change.value = number k := by
  cases hderived with
  | implication _ _ _ _ haccepted =>
      obtain ⟨q, hvalue, -⟩ :=
        (acceptedBound_accepted h.integer h.feastol h.positive haccepted).value
      exact ⟨_, hvalue⟩
  | rowUpper _ _ _ _ hchange => exact impliedChange_isWhole h hchange
  | rowLower _ _ _ _ hchange => exact impliedChange_isWhole h hchange
  | cut _ _ _ hchange => exact impliedChange_isWhole h hchange
  | objective _ _ _ hchange => exact impliedChange_isWhole h hchange
  | @conflict index p id literals literal _ hpool hknown hinactive hchange =>
      have hmem := (mem_keepIf hinactive (List.mem_singleton_self _)).1
      have hnegatable := h.wellMade.conflicts index id literals
        (by rw [conflict?, hpool, Option.bind_some, hknown])
      obtain ⟨k, hk⟩ := (hnegatable _ hmem).2
      rw [flip_eq_negated h.integer hk hchange]
      cases literal.side with
      | lower => exact ⟨k - 1, rfl⟩
      | upper => exact ⟨k + 1, rfl⟩
  | partition _ _ _ _ hchange =>
      rcases partitionChanges_value hchange with hvalue | hvalue
      · exact ⟨0, by simp [hvalue]⟩
      · exact ⟨1, by simp [hvalue]⟩

/-- What is accepted of a change that holds at a point of the box and is not a decision is the
change itself. -/
theorem acceptedValue_eq {c : ColumnId} {side : Side}
    {feastol current opposite value accepted : Exact} {crossing : Bool}
    (hvalue : (⟨c, side, value⟩ : BoundChange Exact).HoldsAt x)
    (hopposite : (⟨c, side.opposite, opposite⟩ : BoundChange Exact).HoldsAt x)
    (h : acceptedValue side feastol current opposite value false = some (accepted, crossing)) :
    accepted = value := by
  simp only [acceptedValue, Bool.not_false, Bool.and_true] at h
  split at h
  · cases h
  · rw [Assignment.tighter_opposite_eq_false (a := x.assignment) hvalue hopposite,
      if_neg Bool.false_ne_true] at h
    exact (Prod.mk.inj (Option.some.inj h)).1.symm

/-- The bounds stay as they are, with the log, or come closer to a point. -/
def Closes (columnCount : Nat) (x : Point) (d d' : Domain Exact) : Prop :=
  d'.trail = d.trail ∨ d'.values.distance columnCount x < d.values.distance columnCount x

theorem Closes.trans {columnCount : Nat} {d'' : Domain Exact} (h : Closes columnCount x d d')
    (h' : Closes columnCount x d' d'') : Closes columnCount x d d'' := by
  rcases h with hsame | hcloser
  · have hvalues : d'.values = d.values := by rw [← trail_values, hsame, trail_values]
    exact h'.imp (fun hsame' => hsame'.trans hsame) fun hcloser => hvalues ▸ hcloser
  · refine .inr (lt_of_le_of_lt ?_ hcloser)
    rcases h' with hsame' | hcloser'
    · rw [← trail_values, hsame', trail_values]
    · exact hcloser'.le

/-- A change to a whole value which holds at a point is ignored or brings the bound closer. -/
theorem Sound.changeBound_closes (h : d.Sound a f) (hx : d.Allows x) (hholds : change.HoldsAt x)
    (hwhole : ∃ k : ℤ, change.value = number k) (hreason : reason ≠ .branching)
    (hchange : d.changeBound change reason = .ok d') :
    Closes d.model.columns.size x d d' := by
  obtain ⟨-, heffect⟩ := changeBound_settled h.settled hholds.not_nan hchange
  rcases heffect with rfl | ⟨hfeasible, value, crossing, haccepted, hchanged⟩
  · exact .inl rfl
  · have hc : change.column < d.model.columns.size := (hchanged.column_lt h.settled :)
    have hdecision : (reason == .branching) = false := by simpa using hreason
    have htightens := h.shrinking.tightens h.numeric hfeasible
      (Exact.isNaN_eq_false.mpr hholds.not_nan) hc haccepted
    rw [hdecision] at haccepted htightens
    obtain rfl := acceptedValue_eq hholds (hx.box _ _ hc) haccepted
    obtain ⟨k, hk⟩ := hwhole
    have htighter := htightens.tighter rfl
    have hvalues : d'.values = d.values.set change.side change.column change.value :=
      hchanged.values
    rw [hk] at htighter
    rw [Closes, hvalues, hk]
    exact .inr (BoundValues.distance_set_lt hc htighter (hk ▸ hholds))

end Domain

section Advances

variable {s s' : PropagationState Exact}

theorem Advance.closes (h : s.Sound a f) (hx : s.Allows x) (hadvance : Advance s s') :
    Domain.Closes s.domain.model.columns.size x s.domain s'.domain := by
  cases hadvance with
  | requeue hrequeued => exact .inl hrequeued.trail
  | refresh hrefresh =>
      rw [Domain.refreshActivity_eq_ok hrefresh]
      exact .inl rfl
  | readCuts _ _ _ | readConflicts _ _ _ => exact .inl rfl
  | @change pools d d' changes hderived hchanges =>
      refine (Domain.changeBounds_keeps (P := fun e : Domain Exact => e.Sound a f ∧ e.Allows x ∧
        e.model = d.model ∧ Domain.Closes d.model.columns.size x d e)
        (fun e e' y hy he hchange => ?_) hchanges
        ⟨h.domain, hx.domain, rfl, .inl rfl⟩).2.2.2
      obtain ⟨hsound, hallowed, hmodel, hcloses⟩ := he
      have hholds := h.domain.holds hx.domain (hderived y hy)
      have hstep := hsound.changeBound_closes hallowed hholds
        (h.domain.derived_isWhole (hderived y hy)) (hderived y hy).not_branching hchange
      exact ⟨hsound.changeBound hholds.not_nan hchange,
        hsound.allows_changeBound hallowed hholds hchange,
        (Domain.changeBound_sameSetting hchange).model.trans hmodel,
        hcloses.trans (hmodel ▸ hstep)⟩
  | refute _ => exact .inl (Domain.markInfeasible_still ..).trail
  | renew _ => exact .inl rfl

/-- Propagation brings the bounds closer to an allowed point, or leaves them as they are. -/
theorem Advances.closes (h : s.Sound a f) (hx : s.Allows x) (hadvances : Advances s s') :
    Domain.Closes s.domain.model.columns.size x s.domain s'.domain := by
  induction hadvances with
  | refl => exact .inl rfl
  | tail hbefore hadvance ih =>
      have hlast := hadvance.closes (Advances.sound h hbefore) (Advances.allows h hbefore hx)
      rw [(Advances.setting hbefore).model] at hlast
      exact ih.trans hlast

end Advances

section Quiet

variable {α : Type} [Scalar α] {s s' : PropagationState α}

theorem Advances.grows (h : Advances s s') : Domain.Grows s.domain s'.domain := by
  induction h with
  | refl => exact .refl
  | tail _ hlast ih => exact ih.trans hlast.grows

/-- Changes that are made are logged. -/
theorem Domain.changeBounds_same_or_longer {d d' : Domain α}
    {changes : List (BoundChange α × Reason)} (h : d.changeBounds changes = .ok d') :
    d' = d ∨ d.log.size < d'.log.size := by
  refine changeBounds_keeps (P := fun e => e = d ∨ d.log.size < e.log.size)
    (fun e e' y _ he hchange => ?_) h (.inl rfl)
  rcases changeBound_trail hchange with rfl | ⟨-, value, previous, -, hfollows⟩
  · exact he
  · have hsize : e'.log.size = e.log.size + 1 := by
      rw [hfollows.log]
      exact Array.size_push ..
    rcases he with rfl | hlonger
    · exact .inr (by omega)
    · exact .inr (by omega)

/-- Feasible after propagation without any change on record: then no other rows wait than before. -/
theorem Advance.waiting (h : Advance s s') (hlog : s'.domain.log.size = s.domain.log.size)
    (hfeasible : s.domain.infeasible = none) :
    ∀ r ∈ s'.domain.waitingRows, r ∈ s.domain.waitingRows := by
  cases h with
  | requeue hrequeued =>
      exact fun r hr => (hrequeued.waiting r hr).resolve_right fun hlate => hlate.1 hfeasible
  | refresh hrefresh =>
      rw [Domain.refreshActivity_eq_ok hrefresh]
      exact fun _ hr => hr
  | readCuts _ _ _ | readConflicts _ _ _ => exact fun _ hr => hr
  | @change pools d d' changes _ hchanges =>
      rcases Domain.changeBounds_same_or_longer hchanges with rfl | hlonger
      · exact fun _ hr => hr
      · exact absurd hlog hlonger.ne'
  | refute _ =>
      rw [Domain.markInfeasible_eq]
      exact fun _ hr => hr
  | renew _ => exact fun _ hr => hr

theorem Advances.waiting (h : Advances s s') (hlog : s'.domain.log.size = s.domain.log.size)
    (hfeasible : s'.domain.infeasible = none) :
    ∀ r ∈ s'.domain.waitingRows, r ∈ s.domain.waitingRows := by
  induction h with
  | refl => exact fun _ hr => hr
  | @tail t u hbefore hlast ih =>
      have hfirst := (Advances.grows hbefore).log_extends.length_le
      have hsecond := hlast.grows.log_extends.length_le
      simp only [Array.length_toList] at hfirst hsecond
      have hfeasible' : t.domain.infeasible = none := by
        by_contra hinfeasible
        exact hinfeasible ((hlast.grows.of_infeasible hinfeasible).2.symm.trans hfeasible)
      exact fun r hr => ih (by omega) hfeasible' r (hlast.waiting (by omega) hfeasible' r hr)

/-- After a round that finds nothing to change no row waits. -/
theorem PropagationStep.waitingRows_of_quiet (h : propagateRound.perform s = (.ok (), s'))
    (hlog : s'.domain.log.size = s.domain.log.size) (hfeasible : s'.domain.infeasible = none) :
    s'.domain.waitingRows = [] := by
  obtain ⟨d₁, d₂, hbefore, hrows, hafter⟩ := propagateRound_parts advances_stages h
  have hfirst := (Advances.grows hbefore).log_extends.length_le
  have hlast := (Advances.grows hafter).log_extends.length_le
  simp only [Array.length_toList] at hfirst hlast
  have hfeasible₂ : d₂.infeasible = none := by
    by_contra hinfeasible
    exact hinfeasible (((Advances.grows hafter).of_infeasible hinfeasible).2.symm.trans hfeasible)
  split at hrows
  · next hinfeasible =>
      rw [← hrows, Domain.isInfeasible, hfeasible₂] at hinfeasible
      cases hinfeasible
  · simp only [Domain.propagateRows, bind_eq_ok] at hrows
    obtain ⟨flags, -, hvisit⟩ := hrows
    have hvisits := Domain.visitRows_advances s.pools hvisit
    have hvisited := (Advances.grows hvisits).log_extends.length_le
    simp only [Array.length_toList] at hvisited
    have hnone := Advances.waiting hvisits (by dsimp only; omega) hfeasible₂
    refine List.eq_nil_iff_forall_not_mem.mpr fun r hr => ?_
    have hwaits := Advances.waiting hafter (by dsimp only; omega) hfeasible r hr
    exact absurd (hnone r hwaits) List.not_mem_nil

/-- A round that is followed by another one has appended a change to the log. -/
theorem PropagationStep.log_lt_of_nextRound (h : nextRound s = .inl s') :
    s.domain.log.size < s'.domain.log.size := by
  obtain ⟨-, hround⟩ := nextRound_eq_inl h
  obtain ⟨hfeasible, hgoes⟩ := goesOn_of_nextRound h
  have hgrows := Advances.grows (propagateRound_related advances_stages hround)
  have hle := hgrows.log_extends.length_le
  simp only [Array.length_toList] at hle
  refine Nat.lt_of_le_of_ne hle fun hsame => ?_
  have hquiet := waitingRows_of_quiet hround hsame.symm hfeasible
  simp [goesOn, hsame, hquiet] at hgoes

end Quiet

/-- A step that is repeated until it gives a result gives one, if each repetition makes something
smaller. -/
theorem iterate?_isSome {σ ρ β : Type} [Preorder β] [WellFoundedLT β] {step : σ → σ ⊕ ρ}
    {P : σ → Prop} {Q : ρ → Prop} (size : σ → β) (hend : ∀ s r, P s → step s = .inr r → Q r)
    (hnext : ∀ s t, P s → step s = .inl t → P t ∧ size t < size s) {s : σ} (hs : P s) :
    ∃ r, iterate? step s = some r ∧ Q r := by
  induction hsize : size s using WellFoundedLT.induction generalizing s with
  | ind n ih =>
      rw [iterate?]
      cases hstep : step s with
      | inr r => exact ⟨r, rfl, hend s r hs hstep⟩
      | inl t =>
          obtain ⟨ht, hlt⟩ := hnext s t hs hstep
          exact ih (size t) (hsize ▸ hlt) ht rfl

namespace PropagationState

variable {s s' : PropagationState Exact}

/-- A sound state that allows a point is feasible. -/
theorem Allows.feasible (hx : s.Allows x) (h : s.Sound a f) : s.domain.infeasible = none := by
  by_contra hinfeasible
  exact h.domain.latched hinfeasible x hx.domain.toAdmits

/-- Propagation of a sound state that allows a point returns, with a state that allows the point. -/
theorem Sound.propagate_returns (h : s.Sound a f) (hx : s.Allows x) :
    Returns (s.domain.propagate s.pools) fun after =>
      (⟨after.1, after.2⟩ : PropagationState Exact).Sound a f ∧
        (⟨after.1, after.2⟩ : PropagationState Exact).Allows x := by
  let P : PropagationState Exact → Prop := fun t => t.Sound a f ∧ t.Allows x ∧
    t.domain.model.columns.size = s.domain.model.columns.size
  have hround : ∀ t, P t → ∃ t', PropagationStep.propagateRound.perform t = (.ok (), t') ∧
      P t' ∧ Domain.Closes s.domain.model.columns.size x t.domain t'.domain := by
    rintro t ⟨hsound, hallowed, hsize⟩
    obtain ⟨⟨⟩, hreturns, -⟩ := PropagationStep.propagateRound_succeeds hsound
    have hperform : PropagationStep.propagateRound.perform t =
        (.ok (), (PropagationStep.propagateRound.perform t).2) := Prod.ext hreturns rfl
    have hadvances :=
      PropagationStep.propagateRound_related PropagationStep.advances_stages hperform
    refine ⟨_, hperform, ⟨hadvances.sound hsound, hadvances.allows hsound hallowed, ?_⟩,
      hsize ▸ hadvances.closes hsound hallowed⟩
    rw [hadvances.setting.model, hsize]
  have hend : ∀ t r, P t → PropagationStep.nextRound t = .inr r →
      ∃ after, r = (.ok (), after) ∧ P after := by
    intro t r ht hend
    obtain ⟨t', hperform, ht', -⟩ := hround t ht
    simp only [PropagationStep.nextRound, hperform] at hend
    split at hend
    · cases hend
      exact ⟨t, rfl, ht⟩
    · split at hend
      · cases hend
        exact ⟨t', rfl, ht'⟩
      · cases hend
  have hnext : ∀ t u, P t → PropagationStep.nextRound t = .inl u →
      P u ∧ u.domain.values.distance s.domain.model.columns.size x <
        t.domain.values.distance s.domain.model.columns.size x := by
    intro t u ht hnext
    obtain ⟨t', hperform, ht', hcloses⟩ := hround t ht
    have hround' := (PropagationStep.nextRound_eq_inl hnext).2
    obtain rfl : t' = u := congrArg Prod.snd (hperform.symm.trans hround')
    refine ⟨ht', hcloses.resolve_left fun hsame => ?_⟩
    have hlog : t'.domain.log = t.domain.log := congrArg Trail.log hsame
    have hlt := PropagationStep.log_lt_of_nextRound hnext
    rw [hlog] at hlt
    exact Nat.lt_irrefl _ hlt
  obtain ⟨r, hr, after, rfl, hafter⟩ := iterate?_isSome _ hend hnext ⟨h, hx, rfl⟩
  have hperform : PropagationStep.propagate.perform s = (.ok (), after) := by
    change (PropagationStep.outcome? s).getD (.error .stepsExhausted, s) = _
    rw [PropagationStep.outcome?, hr, Option.getD_some]
  refine ⟨(after.pools, after.domain), ?_, hafter.1, hafter.2.1⟩
  simp only [Domain.propagate, bind_eq_ok, pure_eq_ok]
  exact ⟨((), after), Action.finish_eq_ok.mpr hperform, rfl⟩

end PropagationState

/-- A point that a sound state allows is still in the box after propagation, which returns with a
feasible domain. -/
theorem PropagationState.Sound.keeps_points {s : PropagationState Exact} (h : s.Sound a f)
    (hx : s.Allows x) : Returns (s.domain.propagate s.pools) fun after =>
      after.2.infeasible = none ∧ after.2.values.Contains s.domain.model.columns.size x := by
  refine (h.propagate_returns hx).mono fun after hafter hboth => ?_
  obtain ⟨hsound', hallowed⟩ := hboth
  refine ⟨hallowed.feasible hsound', ?_⟩
  have hadvances : Advances s ⟨after.1, after.2⟩ := Domain.propagate_advances hafter
  have hbox := hallowed.domain.box
  rwa [hadvances.setting.model] at hbox

/-- Every allowed point is still in the box after propagation, and if there is one, then propagation
returns with a feasible domain. -/
theorem propagation_keeps_points {draft : Draft Exact} {model : Model Exact}
    {s : PropagationState Exact} (hmodel : draft.build = .ok model) (hinteger : model.AllInteger)
    (hf : 0 < f) (hrun : Reachable (fun s op => op.Proper s) model (number f) s)
    (hx : s.Allows x) :
    Returns (s.domain.propagate s.pools) fun after =>
      after.2.infeasible = none ∧ after.2.values.Contains model.columns.size x :=
  hrun.constant.1 ▸ (hrun.sound hmodel hinteger hf).keeps_points hx

/-- Two columns of which one is chosen for its cost, and a third one. -/
def choice : Draft Exact :=
  ⟨#[⟨-2, 0, 1, .integer⟩, ⟨-1, 0, 1, .integer⟩, ⟨1, 0, 1, .integer⟩],
    #[⟨-Scalar.infinity, 2, [(0, 1), (1, 1), (2, 1)]⟩], 0⟩

/-- At most one of the first two columns is one. -/
def choiceCliques : CliqueTable := ⟨#[[⟨0, true⟩, ⟨1, true⟩]], #[[], [0], [], [0], [], []]⟩

theorem choiceCliques_made {binary : ColumnId → Prop} (hzero : binary 0) (hone : binary 1) :
    choiceCliques.Made 3 binary := by
  have hadd : (CliqueTable.add [⟨0, true⟩, ⟨1, true⟩]).finish (.empty 3) =
      .ok (true, choiceCliques) := by
    cbv
  exact .add .empty (by simp [hzero, hone]) hadd

/-- The third column is zero if the first one is one. -/
def choiceBounds : VariableBounds Exact :=
  ⟨#[[], [], [(0, ⟨-1, 1⟩)]], #[[], [], []], #[[2], [], []]⟩

theorem choiceBounds_made : choiceBounds.Made 3 := by
  have hrecord : (VariableBounds.record .upper 2 0 (⟨-1, 1⟩ : VariableBound Exact)).finish
      (.empty 3) = .ok (true, choiceBounds) := by
    cbv
  exact .record .empty hrecord

def choicePoint : Point := fun c => if c = 0 then 1 else 0

/-- A cut and the tables are given. -/
def choiceTables : List (Operation Exact) :=
  [.insertCut 0 ⟨[(0, 1), (2, 1)], 1⟩ 5, .setCliques choiceCliques, .setVariableBounds choiceBounds]

/-- One decision is propagated and taken back, and the opposite one is taken. -/
def choiceBranches : List (Operation Exact) :=
  [.setObjectiveCutoff (-1), .changeBound (.atLeast 1 1) .branching, .propagate, .backtrack,
    .changeBound (.atMost 1 0) .branching]

/-- A point is kept when the decision without it was taken back. -/
theorem other_branch_keeps_point :
    ∃ (model : Model Exact) (s : PropagationState Exact), choice.build = .ok model ∧
      s.domain.log.size = 1 ∧
      Returns (s.domain.propagate s.pools) fun after =>
        after.2.infeasible = none ∧ after.2.values.Contains model.columns.size choicePoint := by
  have hrun : passes choice.build (fun model =>
        passes (Domain.ofModel model (number (1 / 1000000))) fun d =>
          passes ((Operation.newCutPool 5).perform ⟨.empty, d⟩) fun pooled =>
            passes ((Operation.attachCuts 0).perform pooled) fun attached =>
              passes (choiceTables.foldlM (fun s op => op.perform s) attached) fun given =>
                passes ((Operation.setupObjective [[0, 1]]).perform given) fun ready =>
                  passes (choiceBranches.foldlM (fun s op => op.perform s) ready) fun s =>
                    model.columns.size == 3 && model.columns.all (fun c => c.kind == .integer) &&
                      passes (d.isBinary 0) id && passes (d.isBinary 1) id &&
                      pooled.pools.cuts.size == 1 && given.domain.objective.isNone &&
                      given.domain.lower.all (fun b => b.value < 1) &&
                      s.domain.log.size == 1 && decide (s.Allows choicePoint)) = true := by
    rw [(Operation.performUnrolled 100).property]
    decide +kernel
  obtain ⟨model, hmodel, hrun⟩ := passes_eq_true.mp hrun
  obtain ⟨d, hd, hrun⟩ := passes_eq_true.mp hrun
  obtain ⟨pooled, hpooled, hrun⟩ := passes_eq_true.mp hrun
  obtain ⟨attached, hattached, hrun⟩ := passes_eq_true.mp hrun
  obtain ⟨given, hgiven, hrun⟩ := passes_eq_true.mp hrun
  obtain ⟨ready, hready, hrun⟩ := passes_eq_true.mp hrun
  obtain ⟨s, hs, hrun⟩ := passes_eq_true.mp hrun
  simp only [Bool.and_eq_true, beq_iff_eq, decide_eq_true_eq, Option.isNone_iff_eq_none,
    Array.all_eq_true_iff_forall_mem, passes_eq_true, id_eq, exists_eq_right] at hrun
  obtain ⟨⟨⟨⟨⟨⟨⟨⟨hsize, hinteger⟩, hzero⟩, hone⟩, hpools⟩, hobjective⟩, hopen⟩,
    hlog⟩, hallowed⟩ := hrun
  have hstart : Reachable (fun s op => op.Proper s) model (number (1 / 1000000)) ⟨.empty, d⟩ :=
    .start hd
  have hpool := hstart.step (show (Operation.newCutPool 5).Proper _ from trivial) hpooled
  have hexists : (Operation.attachCuts 0 : Operation Exact).Proper pooled := by
    change 0 < pooled.pools.cuts.size
    omega
  have htables := (hpool.step hexists hattached).performEach (fun t ht => ?_) hgiven
  have hsetup : (Operation.setupObjective [[0, 1]] : Operation Exact).Proper given := by
    refine ⟨hobjective, fun _ _ _ _ c _ _ hone => absurd hone (Exact.lt_iff.mp ?_).2⟩
    rw [Domain.values]
    cases hbound : (given.domain.bounds .lower)[c]? with
    | none => decide +kernel
    | some b => exact hopen b (Array.mem_of_getElem? hbound)
  have hall := (htables.step hsetup hready).performAll (fun t => ?_) hs
  · exact ⟨model, s, hmodel, hlog, propagation_keeps_points hmodel
      (fun c column hc => hinteger column (Array.mem_of_getElem? hc)) (by norm_num) hall hallowed⟩
  · simp only [choiceBranches, List.forall_mem_cons, List.not_mem_nil, false_imp_iff, implies_true,
      and_true, Operation.Proper, Operation.Brings, Tracking.exact, Exact.Range.any,
      BoundChange.atLeast, BoundChange.atMost]
    decide +kernel
  · rw [Domain.isBinary_eq_ok, hstart.constant.1] at hzero hone
    simp only [choiceTables, List.forall_mem_cons, List.not_mem_nil, false_imp_iff, implies_true,
      and_true, Operation.Proper, ht.constant.1, hsize]
    refine ⟨?_, choiceCliques_made hzero hone, choiceBounds_made⟩
    simp [Operation.Brings, Tracking.exact, Exact.Range.any]

/-- Conflicts remove no allowed point, whatever the values of their literals are, as long as none is
more than one half looser than a whole value. These are the literals which are negated exactly. -/
theorem negated_literals_keep_points {draft : Draft Exact} {model : Model Exact}
    {s : PropagationState Exact} (hmodel : draft.build = .ok model) (hinteger : model.AllInteger)
    (hf : 0 < f)
    (hrun : Reachable (fun s op => op.Suitable s.domain.model.Forced s) model (number f) s)
    (hx : s.Allows x) :
    Returns (s.domain.propagate s.pools) fun after =>
      after.2.infeasible = none ∧ after.2.values.Contains model.columns.size x :=
  hrun.constant.1 ▸ (hrun.sound_of_suitable hmodel hinteger hf).keeps_points hx

/-- Two columns whose sum is at least three. -/
def halfwayDraft (lower : Exact) : Draft Exact :=
  ⟨#[⟨0, lower, 5, .integer⟩, ⟨0, 0, 5, .integer⟩], #[⟨3, Scalar.infinity, [(0, 1), (1, 1)]⟩], 0⟩

def halfwayPoint : Point := fun c => if c = 0 then 2 else 1

/-- The first column is at most two if the second one is at least one. -/
def halfwayBranches : List (Operation Exact) :=
  [.addConflict 0 [.atLeast 0 2.5, .atLeast 1 0.75], .changeBound (.atLeast 1 1) .branching]

/-- A literal halfway between two whole values is negated, and the point below it is kept. -/
theorem halfway_literal_keeps_point :
    ∃ (model : Model Exact) (s : PropagationState Exact), (halfwayDraft 0).build = .ok model ∧
      Returns (s.domain.propagate s.pools) (fun after =>
        after.2.infeasible = none ∧ after.2.values.Contains model.columns.size halfwayPoint) ∧
      passes (s.domain.propagate s.pools) (fun after => after.2.values .upper 0 == 2) = true := by
  have hrun : passes (halfwayDraft 0).build (fun model =>
      passes (Domain.ofModel model (number (1 / 1000000))) fun d =>
        passes ((Operation.newConflictPool 5 5).perform ⟨.empty, d⟩) fun pooled =>
          passes ((Operation.attachConflicts 0).perform pooled) fun attached =>
            passes (halfwayBranches.foldlM (fun s op => op.perform s) attached) fun s =>
              passes (s.domain.propagate s.pools) (fun after => after.2.values .upper 0 == 2) &&
                model.columns.size == 2 && model.columns.all (fun c => c.kind == .integer) &&
                pooled.pools.conflicts.size == 1 && decide (s.Allows halfwayPoint)) = true := by
    rw [(Operation.performUnrolled 100).property, (Domain.propagateUnrolled 100).property]
    decide +kernel
  obtain ⟨model, hmodel, hrun⟩ := passes_eq_true.mp hrun
  obtain ⟨d, hd, hrun⟩ := passes_eq_true.mp hrun
  obtain ⟨pooled, hpooled, hrun⟩ := passes_eq_true.mp hrun
  obtain ⟨attached, hattached, hrun⟩ := passes_eq_true.mp hrun
  obtain ⟨s, hs, hrun⟩ := passes_eq_true.mp hrun
  simp only [Bool.and_eq_true, beq_iff_eq, decide_eq_true_eq,
    Array.all_eq_true_iff_forall_mem] at hrun
  obtain ⟨⟨⟨⟨hnegated, hsize⟩, hinteger⟩, hpools⟩, hallowed⟩ := hrun
  have hstart : Reachable (fun s op => op.Suitable s.domain.model.Forced s) model
      (number (1 / 1000000)) ⟨.empty, d⟩ := .start hd
  have hpool := hstart.step (show (Operation.newConflictPool 5 5).Suitable _ _ from trivial) hpooled
  have hexists : (Operation.attachConflicts 0 : Operation Exact).Suitable
      pooled.domain.model.Forced pooled := by
    change 0 < pooled.pools.conflicts.size
    omega
  have hall := (hpool.step hexists hattached).performEach (fun t ht => ?_) hs
  · exact ⟨model, s, hmodel, negated_literals_keep_points hmodel
      (fun c column hc => hinteger column (Array.mem_of_getElem? hc)) (by norm_num) hall hallowed,
      hnegated⟩
  · simp only [halfwayBranches, List.forall_mem_cons, List.not_mem_nil, false_imp_iff, implies_true,
      and_true, Operation.Suitable, NegatableLiterals, ht.constant.1, hsize]
    refine ⟨⟨⟨by decide, 3, 5 / 2, ?_⟩, ⟨by decide, 1, 3 / 4, ?_⟩⟩, ?_⟩
    · refine ⟨by decide +kernel, ?_, ?_⟩ <;> norm_num
    · refine ⟨by decide +kernel, ?_, ?_⟩ <;> norm_num
    · change (1 : Exact) ≠ nan
      decide

/-- A literal that is less than one half tighter than a whole value is negated too strictly: the
point at which it does not hold is removed, and the domain becomes infeasible. -/
theorem tight_literal_removes_point :
    ∃ (model : Model Exact) (d : Domain Exact) (s : PropagationState Exact),
      (halfwayDraft 2).build = .ok model ∧ Domain.ofModel model (number (1 / 1000000)) = .ok d ∧
      [Operation.newConflictPool 5 5, .attachConflicts 0, .addConflict 0 [.atLeast 0 2.3]].foldlM
        (fun s op => op.perform s) ⟨.empty, d⟩ = .ok s ∧
      s.Allows halfwayPoint ∧
      ∃ after, s.domain.propagate s.pools = .ok after ∧ after.2.infeasible ≠ none := by
  have hrun : passes (halfwayDraft 2).build (fun model =>
      passes (Domain.ofModel model (number (1 / 1000000))) fun d =>
        passes ([Operation.newConflictPool 5 5, .attachConflicts 0,
            .addConflict 0 [.atLeast 0 2.3]].foldlM (fun s op => op.perform s) ⟨.empty, d⟩) fun s =>
          decide (s.Allows halfwayPoint) &&
            passes (s.domain.propagate s.pools) fun after => after.2.infeasible.isSome) = true := by
    rw [(Operation.performUnrolled 100).property, (Domain.propagateUnrolled 100).property]
    decide +kernel
  obtain ⟨model, hmodel, hrun⟩ := passes_eq_true.mp hrun
  obtain ⟨d, hd, hrun⟩ := passes_eq_true.mp hrun
  obtain ⟨s, hs, hrun⟩ := passes_eq_true.mp hrun
  rw [Bool.and_eq_true, decide_eq_true_eq] at hrun
  obtain ⟨after, hafter, hinfeasible⟩ := passes_eq_true.mp hrun.2
  exact ⟨model, d, s, hmodel, hd, hs, hrun.1, after, hafter, Option.isSome_iff_ne_none.mp
    hinfeasible⟩

end BranchBound
