import BranchBound.Proofs.Domain.Activities
import BranchBound.Proofs.Domain.BoundLog
import BranchBound.Proofs.Domain.Level

/-!
# A suspended box is resumed

A node is suspended by remembering the changes of its local log which still determine a bound, and
resumed by making these changes again, in the same order, in a domain with the same global box. The
reasons are forgotten and so are the changes which were superseded. All the same, no bound on the
way is tighter than in the suspended box, which is not empty, so that none of the changes crosses or
is stopped at the opposite bound: the resumed box is the suspended one, unless the activities show
on the way that it is infeasible.
-/

namespace BranchBound

open Checked

variable {α : Type} [Scalar α]

namespace Domain

variable {d d' : Domain α} {columnCount : Nat} {target β : BoundValues α}

/-- The bounds before the first decision. -/
def globalBox (d : Domain α) : BoundValues α := (d.trail.rewindTo d.globalLength).values

section Stack

omit [Scalar α]

/-- The changes of a reduced stack are those of the entries from the first decision onwards which
still determine a bound. -/
theorem mem_reducedStack {change : BoundChange α} :
    change ∈ d.reducedStack.1 ↔ ∃ p entry, d.globalLength ≤ p ∧ d.log[p]? = some entry ∧
      d.isLatest p entry = true ∧ entry.change = change := by
  have hmem (entry : LogEntry α) (p : Nat) :
      (entry, p) ∈ d.log.toList.zipIdx.drop d.globalLength ↔
        d.globalLength ≤ p ∧ d.log[p]? = some entry := by
    rw [List.mem_iff_getElem?]
    constructor
    · rintro ⟨i, hi⟩
      rw [List.getElem?_drop, List.getElem?_zipIdx] at hi
      obtain ⟨e, he, heq⟩ := Option.map_eq_some_iff.mp hi
      cases heq
      exact ⟨by omega, by simpa using he⟩
    · rintro ⟨hp, hentry⟩
      refine ⟨p - d.globalLength, ?_⟩
      rw [List.getElem?_drop, List.getElem?_zipIdx, Nat.add_sub_cancel' hp]
      simp [hentry]
  simp only [reducedStack, List.mem_map, List.mem_filter, Prod.exists, hmem]
  constructor
  · rintro ⟨entry, p, ⟨⟨hp, hentry⟩, hlatest⟩, rfl⟩
    exact ⟨p, entry, hp, hentry, hlatest, rfl⟩
  · rintro ⟨p, entry, hp, hentry, hlatest, rfl⟩
    exact ⟨entry, p, ⟨⟨hp, hentry⟩, hlatest⟩, rfl⟩

/-- The decisions of a reduced stack are listed by increasing positions within the stack. -/
theorem reducedStack_increasing :
    d.reducedStack.2.Pairwise (· < ·) ∧ ∀ i ∈ d.reducedStack.2, i < d.reducedStack.1.length := by
  simp only [reducedStack, List.length_map]
  generalize (d.log.toList.zipIdx.drop d.globalLength).filter _ = kept
  have hchosen {x : (LogEntry α × Nat) × Nat} {i : Nat}
      (h : (if d.branchings.contains x.1.2 then some x.2 else none) = some i) : x.2 = i :=
    Option.some.inj (Option.ite_none_right_eq_some.mp h).2
  refine ⟨?_, fun i hi => ?_⟩
  · rw [List.pairwise_filterMap]
    have hindices : kept.zipIdx.Pairwise fun x y => x.2 < y.2 := by
      have hrange := List.pairwise_lt_range' (s := 0) (n := kept.length)
      rw [← List.zipIdx_map_snd 0 kept, List.pairwise_map] at hrange
      exact hrange
    exact hindices.imp fun hlt i hi j hj => hchosen hi ▸ hchosen hj ▸ hlt
  · obtain ⟨x, hx, hi⟩ := List.mem_filterMap.mp hi
    rw [← hchosen hi]
    simpa using (List.mem_zipIdx hx).2.1

end Stack

variable [Scalar.LinearlyOrdered α]

/-- Some changes lead to a box from bounds: these are no tighter, and where they are not as tight
there is a change to the bound of the box. -/
structure LeadsTo (columnCount : Nat) (target : BoundValues α) (changes : List (BoundChange α))
    (β : BoundValues α) : Prop where
  column : ∀ change ∈ changes, change.column < columnCount
  value : ∀ change ∈ changes, change.value = target change.side change.column
  weaker : ∀ (side : Side) c, c < columnCount → side.tightOrEqual (target side c) (β side c) = true
  complete : ∀ (side : Side) c, c < columnCount → Scalar.Same (β side c) (target side c) ∨
    ∃ change ∈ changes, change.side = side ∧ change.column = c

namespace LeadsTo

variable {change : BoundChange α} {rest : List (BoundChange α)}

omit [Scalar.LinearlyOrdered α] in
/-- What is left to do once the bound of the first change is that of the box. -/
theorem tail (h : LeadsTo columnCount target (change :: rest) β)
    {β' : BoundValues α} (hset : Scalar.Same (β' change.side change.column)
      (target change.side change.column))
    (hother : ∀ side c, ¬(side = change.side ∧ c = change.column) → β' side c = β side c) :
    LeadsTo columnCount target rest β' where
  column := fun x hx => h.column x (List.mem_cons_of_mem _ hx)
  value := fun x hx => h.value x (List.mem_cons_of_mem _ hx)
  weaker := fun side c hc => by
    by_cases hmade : side = change.side ∧ c = change.column
    · obtain ⟨rfl, rfl⟩ := hmade
      exact (Side.same_iff.mp hset).2
    · rw [hother side c hmade]
      exact h.weaker side c hc
  complete := fun side c hc => by
    by_cases hmade : side = change.side ∧ c = change.column
    · obtain ⟨rfl, rfl⟩ := hmade
      exact .inl hset
    · rw [hother side c hmade]
      refine (h.complete side c hc).imp_right ?_
      rintro ⟨x, hx, rfl, rfl⟩
      rcases List.mem_cons.mp hx with rfl | hx
      · exact absurd ⟨rfl, rfl⟩ hmade
      · exact ⟨x, hx, rfl, rfl⟩

/-- What the next change accepts: a bound that is equal to that of the box. -/
theorem accepted (h : LeadsTo columnCount target (change :: rest) β)
    (hordered : ∀ c, c < columnCount → target .lower c ≤ target .upper c) (feastol : α)
    (isBranching : Bool) :
    (acceptedValue change.side feastol (β change.side change.column)
      (β change.side.opposite change.column) change.value isBranching = none ∧
        Scalar.Same (β change.side change.column) (target change.side change.column)) ∨
    ∃ accepted, acceptedValue change.side feastol (β change.side change.column)
      (β change.side.opposite change.column) change.value isBranching = some (accepted, false) ∧
        Scalar.Same accepted (target change.side change.column) := by
  have hc := h.column change (List.mem_cons_self ..)
  have hvalue := h.value change (List.mem_cons_self ..)
  have hweaker := h.weaker change.side change.column hc
  have hopposite : change.side.tightOrEqual (β change.side.opposite change.column)
      (target change.side.opposite change.column) = true := by
    rw [← Side.tightOrEqual_opposite]
    exact h.weaker _ _ hc
  have hbox : change.side.tightOrEqual (target change.side.opposite change.column)
      (target change.side change.column) = true := by
    cases change.side <;> exact decide_eq_true (hordered _ hc)
  have hinside := Side.tightOrEqual_trans hopposite hbox
  rw [hvalue, acceptedValue_of_inside (Side.tightOrEqual_trans hinside hweaker) hinside]
  cases hstays : change.side.tightOrEqual (β change.side change.column)
      (target change.side change.column) with
  | true =>
      have hsame := Side.same_iff.mpr ⟨hstays, hweaker⟩
      cases isBranching with
      | true => exact .inr ⟨_, rfl, hsame⟩
      | false => exact .inl ⟨rfl, hsame⟩
  | false => exact .inr ⟨_, rfl, .refl (Side.number_of_tightOrEqual hweaker).1⟩

/-- The changes also lead to the box from equal bounds. -/
theorem of_same {changes : List (BoundChange α)} (h : LeadsTo columnCount target changes β)
    {β' : BoundValues α} (hsame : ∀ side c, c < columnCount → Scalar.Same (β' side c) (β side c)) :
    LeadsTo columnCount target changes β' where
  column := h.column
  value := h.value
  weaker := fun side c hc =>
    Side.tightOrEqual_trans (h.weaker side c hc) (Side.same_iff.mp (hsame side c hc)).2
  complete := fun side c hc => (h.complete side c hc).imp_left (hsame side c hc).trans

end LeadsTo

/-- The changes of a reduced stack lead from the global box to the present one. -/
theorem leadsTo_reducedStack {start : Trail α} (hstart : start.Numeric columnCount)
    (hbuilt : Trail.Built (Trail.Shrinks columnCount) start d.trail)
    (hglobal : d.globalLength ≤ d.log.size) :
    LeadsTo columnCount d.values d.reducedStack.1 d.globalBox := by
  have hlinked := hbuilt.linked hstart.fresh
  have hlatest {p : Nat} {entry : LogEntry α} (hentry : d.log[p]? = some entry)
      (h : d.isLatest p entry = true) : entry.change.column < columnCount ∧
        entry.change.value = d.values entry.change.side entry.change.column := by
    simp only [isLatest] at h
    split at h
    · next b hb =>
      have hc : entry.change.column < columnCount := by
        rw [← hstart.size entry.change.side, ← hbuilt.bounds_size, trail_bounds]
        exact (Array.getElem?_eq_some_iff.mp hb).1
      obtain ⟨b', hb', hforce⟩ := hlinked.current entry.change.side entry.change.column
        (hstart.size _ ▸ hc)
      obtain rfl : b = b' := by
        rw [trail_bounds] at hb'
        exact Option.some.inj (hb.symm.trans hb')
      refine ⟨hc, ?_⟩
      rw [values_eq hb]
      cases hforce with
      | start hb _ =>
          rw [hstart.unset _ _ _ hb] at h
          cases h
      | set _ hfound _ _ =>
          obtain rfl := Option.some.inj (beq_iff_eq.mp h)
          rw [trail_log, hentry] at hfound
          rw [Option.some.inj hfound]
    · cases h
  refine ⟨fun change hchange => ?_, fun change hchange => ?_, fun side c hc => ?_,
    fun side c hc => ?_⟩
  · obtain ⟨p, entry, -, hentry, h, rfl⟩ := mem_reducedStack.mp hchange
    exact (hlatest hentry h).1
  · obtain ⟨p, entry, -, hentry, h, rfl⟩ := mem_reducedStack.mp hchange
    exact (hlatest hentry h).2
  · rw [← trail_values]
    exact hbuilt.tightOrEqual_rewindTo hstart.fresh hstart.number _ side c
  · obtain ⟨b, hb, hforce⟩ := hlinked.current side c (hstart.size side ▸ hc)
    obtain ⟨b', hb', hforce'⟩ :=
      hbuilt.inForce_rewindTo hstart.fresh d.globalLength (hstart.size side ▸ hc)
    have hnumber := (hbuilt.shrunk hstart.fresh hstart.number).number side c
    by_cases hlocal : ∃ p, b.position = some p ∧ d.globalLength ≤ p
    · obtain ⟨p, hp, hle⟩ := hlocal
      cases hforce with
      | start hb _ =>
          rw [hstart.unset _ _ _ hb] at hp
          cases hp
      | @set q entry _ hentry hsets _ =>
          obtain rfl : q = p := Option.some.inj hp
          refine .inr ⟨entry.change, mem_reducedStack.mpr ⟨q, entry, hle, hentry, ?_, rfl⟩, hsets⟩
          rw [isLatest, ← trail_bounds, hsets.1, hsets.2, hb]
          exact beq_self_eq_true _
    · have hforce : Trail.InForce start d.trail.log side c d.globalLength b :=
        hforce.of_later hglobal fun p hp => by
          by_contra hle
          exact hlocal ⟨p, hp, Nat.le_of_not_lt hle⟩
      obtain rfl := hforce.unique hforce'
      refine .inl ?_
      rw [globalBox, ← trail_values, Trail.values_eq hb', ← Trail.values_eq hb]
      exact .refl hnumber

/-- Making the next change again leaves the rest to do. -/
theorem changeBound_leadsTo {change : BoundChange α} {rest : List (BoundChange α)} {reason : Reason}
    (hfeasible : d.infeasible = none)
    (h : LeadsTo columnCount target (change :: rest) d.values)
    (hordered : ∀ c, c < columnCount → target .lower c ≤ target .upper c)
    (hchange : d.changeBound change reason = .ok d') :
    LeadsTo columnCount target rest d'.values := by
  rcases changeBound_eq_ok hchange with ⟨hsome, -⟩ |
    ⟨-, current, opposite, hcurrent, hopposite, heffect⟩
  · rw [hfeasible] at hsome
    cases hsome
  rw [← values_eq hcurrent, ← values_eq hopposite] at heffect
  rcases h.accepted hordered d.feastol (reason == .branching) with
    ⟨hnone, hsame⟩ | ⟨accepted, hsome, hsame⟩
  · rcases heffect with ⟨-, rfl⟩ | ⟨_, _, haccepted, -⟩
    · exact h.tail hsame fun _ _ _ => rfl
    · rw [hnone] at haccepted
      cases haccepted
  · rcases heffect with ⟨hnone, -⟩ | ⟨value, crossing, haccepted, happly⟩
    · rw [hsome] at hnone
      cases hnone
    obtain ⟨rfl, rfl⟩ := Prod.mk.inj (Option.some.inj (hsome.symm.trans haccepted))
    obtain ⟨previous, hprevious, hfollows⟩ := applyChange_trail happly
    have htrail : d'.trail = d.trail.append { change with value := accepted } reason previous :=
      hfollows.trail
    have hvalues : d'.values = d.values.set change.side change.column accepted := by
      rw [← trail_bounds] at hprevious
      rw [← trail_values, htrail, Trail.values_append hprevious, trail_values]
    rw [hvalues]
    refine h.tail ?_ fun _ _ hmade => BoundValues.set_of_ne _ _ hmade
    rw [BoundValues.set_self]
    exact hsame

variable {T : Tracking α}

/-- Applying a stack of changes which lead to a box that is not empty leads to it, unless the domain
is found infeasible. -/
theorem applyStack_leadsTo (hordered : ∀ c, c < columnCount → target .lower c ≤ target .upper c)
    (hvalue : ∀ v, T.value v) (branchings : List Nat) {changes : List (BoundChange α)} (index : Nat)
    (hsettled : d.Settled T) (hcount : d.model.columns.size = columnCount)
    (h : d.infeasible = none → LeadsTo columnCount target changes d.values) :
    ∃ d', (applyStack branchings index changes).perform d = (.ok (), d') ∧
      (d'.infeasible = none → LeadsTo columnCount target [] d'.values) := by
  induction changes generalizing index d with
  | nil => exact ⟨d, rfl, h⟩
  | cons change rest ih =>
      by_cases hfeasible : d.infeasible = none
      · have hleads := h hfeasible
        have hc : change.column < d.model.columns.size :=
          hcount ▸ hleads.column change (List.mem_cons_self ..)
        let reason : Reason :=
          if index == 0 || Bisection.contains branchings index then .branching else .unknown
        obtain ⟨after, hafter, hsettled', heffect⟩ :=
          changeBound_returns hsettled hc (hvalue change.value) reason
        have hmodel := heffect.carried.setting.model
        obtain ⟨d', hrest, hd'⟩ := ih (index + 1) hsettled' (hmodel ▸ hcount) fun _ =>
          changeBound_leadsTo hfeasible hleads hordered hafter
        refine ⟨d', ?_, hd'⟩
        rw [applyStack, Action.perform_bind_eq_ok]
        refine ⟨d, d, rfl, ?_⟩
        rw [if_neg (by simp [isInfeasible, hfeasible]), Action.perform_bind_eq_ok]
        exact ⟨(), after, Action.perform_change_eq_ok.mpr hafter, hrest⟩
      · refine ⟨d, ?_, fun hnone => absurd hnone hfeasible⟩
        rw [applyStack, Action.perform_bind_eq_ok]
        refine ⟨d, d, rfl, ?_⟩
        rw [if_pos (by simpa [isInfeasible, Option.isSome_iff_ne_none] using hfeasible)]
        rfl

section Levels

omit [Scalar.LinearlyOrdered α]

/-- Undoing every level leads to the global box. -/
theorem backtrackToGlobal_returns (hsettled : d.Settled T) (hleveled : d.Leveled) :
    Returns d.backtrackToGlobal fun d' => d'.Settled T ∧ d'.model = d.model ∧
      d'.trail = d.trail.rewindTo d.globalLength ∧ d'.branchings = #[] ∧
      d'.log.size = d.globalLength := by
  refine (backtrackTo_returns hsettled d.globalLength).mono fun d' hd' h => ?_
  have htrail : d'.trail = d.trail.rewindTo d.globalLength := by
    by_cases hp : d.globalLength < d.log.size
    · exact (backtrackTo_trail hd' hp).1
    · rcases backtrackTo_eq_ok hd' with ⟨-, rfl⟩ | ⟨hlt, -⟩
      · exact (Trail.rewindTo_of_le hleveled.decisionsLogged (Nat.le_of_not_lt hp)).symm
      · exact absurd hlt hp
  refine ⟨h.1, h.2.setting.model, htrail, ?_, ?_⟩
  · rw [← trail_branchings, htrail, Trail.rewindTo_branchings, Array.filter_eq_empty_iff]
    intro p hp
    simpa using hleveled.globalLength_le_of_mem hp
  · have hle := hleveled.globalLength_le
    rw [← trail_log, htrail, Trail.rewindTo_log, Array.take_eq_extract, Array.size_extract,
      trail_log]
    omega

/-- Whatever stack is applied at the global level, its changes are local. -/
theorem applyStack_local {branchings : List Nat} {changes : List (BoundChange α)}
    (hglobal : d.branchings = #[])
    (h : (applyStack branchings 0 changes).perform d = (.ok (), d')) :
    d'.globalLength = d.log.size := by
  have hnone : d.globalLength = d.log.size := by simp [globalLength, hglobal]
  cases changes with
  | nil =>
      cases h
      exact hnone
  | cons change rest =>
      rw [applyStack, Action.perform_bind_eq_ok] at h
      obtain ⟨_, _, hget, h⟩ := h
      cases hget
      split at h
      · cases h
        exact hnone
      · next hfeasible =>
        rw [Action.perform_bind_eq_ok] at h
        obtain ⟨_, opened, hchange, hrest⟩ := h
        have hopened := changeBound_opened (Action.perform_change_eq_ok.mp hchange)
          (by simpa [isInfeasible] using hfeasible)
        have hgrows := applyStack_grows branchings 1 rest opened () d' .refl hrest
        refine hgrows.globalLength ?_
        rw [hopened.branchings, hglobal]
        rfl

end Levels

/-- How a suspended box is resumed: the global part of the log stays what it is, and the box is the
suspended one unless the domain is infeasible. -/
structure Resumed (columnCount : Nat) (suspended before after : Domain α) : Prop where
  globalLength : after.globalLength = before.globalLength
  log : before.log.toList.take before.globalLength <+: after.log.toList
  box : after.infeasible = none → ∀ side c, c < columnCount →
    Scalar.Same (after.values side c) (suspended.values side c)

end Domain

section Runs

variable [Scalar.LinearlyOrdered α] {draft : Draft α} {model : Model α} {feastol : α}
  {s t : PropagationState α}

theorem Reachable.resumed (hα : EqualInfinities α) (hmodel : draft.build = .ok model)
    (hnumbers : model.BoundedByNumbers) (hs : Reachable Operation.LogsNumbers model feastol s)
    (hfeasible : s.domain.infeasible = none) (ht : Reachable (fun _ _ => True) model feastol t)
    (hglobal : ∀ side c, c < model.columns.size →
      Scalar.Same (s.domain.globalBox side c) (t.domain.globalBox side c)) :
    Returns ((Domain.setStack s.domain.reducedStack.1 s.domain.reducedStack.2).finish t.domain)
      fun r => Domain.Resumed model.columns.size s.domain t.domain r.2 := by
  have hshrinking := hs.shrinking hnumbers (Draft.ordered_of_build hmodel hnumbers)
  have hordered : ∀ c, c < model.columns.size → s.domain.values .lower c ≤ s.domain.values .upper
    c := by
    rw [← Domain.trail_values]
    exact hshrinking.ordered hfeasible
  have hsettled : t.domain.Settled (.counting hα) :=
    (ht.settled (counting_derives hα model) (fun _ op _ => counting_brings hα op)
      (Draft.wellFormed_of_build hmodel) (counting_readable hα model)).domain
  obtain ⟨cleared, hcleared, hsettled', hmodel', htrail, hbranchings, hsize⟩ :=
    Domain.backtrackToGlobal_returns hsettled ht.leveled
  have hvalues : cleared.values = t.domain.globalBox := by
    rw [← Domain.trail_values, htrail, Domain.globalBox]
  have hleads := Domain.leadsTo_reducedStack (Trail.numeric_ofModel hnumbers) hshrinking.built
    hs.leveled.globalLength_le
  obtain ⟨after, hafter, hbox⟩ := Domain.applyStack_leadsTo hordered (fun _ => trivial)
    s.domain.reducedStack.2 0 hsettled' (by rw [hmodel', ht.constant.1]) fun _ => hvalues ▸
      hleads.of_same fun side c hc => (hglobal side c hc).symm
  refine ⟨((), after), ?_, ?_, ?_, fun hnone side c hc => ?_⟩
  · rw [Action.finish_eq_ok, Domain.setStack, Action.perform_bind_eq_ok]
    exact ⟨(), cleared, Action.perform_change_eq_ok.mpr hcleared, hafter⟩
  · exact (Domain.applyStack_local hbranchings hafter).trans hsize
  · have hlog : cleared.log.toList = t.domain.log.toList.take t.domain.globalLength := by
      rw [← Domain.trail_log, htrail, Trail.rewindTo_log]
      simp
    rw [← hlog]
    exact (Domain.applyStack_grows _ _ _ cleared () after .refl hafter).log_extends
  · rcases (hbox hnone).complete side c hc with hsame | ⟨change, hchange, -⟩
    · exact hsame
    · cases hchange

end Runs

/-- **A suspended node resumes in the same box.** The decisions of a reduced stack are listed by
increasing positions in it. If a domain that is not infeasible is suspended, its stack can be
installed in every domain of the model with an equal global box: all that is added is local, and
unless that domain is found infeasible its box is the suspended one. Over any numbers that are
linearly ordered the suspended domain has to come from a run in which the values on record are
numbers; over exact numbers it is enough if the operations of the run bring no others. -/
theorem suspended_box_resumes :
    (∀ {α : Type} [Scalar α] [Scalar.LinearlyOrdered α], EqualInfinities α →
      ∀ {draft : Draft α} {model : Model α} {feastol : α} {s t : PropagationState α},
        draft.build = .ok model → model.BoundedByNumbers →
        Reachable Operation.LogsNumbers model feastol s → s.domain.infeasible = none →
        Reachable (fun _ _ => True) model feastol t →
        (∀ side c, c < model.columns.size →
          Scalar.Same (s.domain.globalBox side c) (t.domain.globalBox side c)) →
        s.domain.reducedStack.2.Pairwise (· < ·) ∧
        (∀ i ∈ s.domain.reducedStack.2, i < s.domain.reducedStack.1.length) ∧
        Returns ((Domain.setStack s.domain.reducedStack.1 s.domain.reducedStack.2).finish t.domain)
          fun r => Domain.Resumed model.columns.size s.domain t.domain r.2) ∧
    ∀ {draft : Draft Exact} {model : Model Exact} {feastol : Exact} {s t : PropagationState Exact},
      draft.build = .ok model → Reachable (fun _ op => op.Brings (.exact .any)) model feastol s →
      s.domain.infeasible = none → Reachable (fun _ _ => True) model feastol t →
      (∀ side c, c < model.columns.size →
        s.domain.globalBox side c = t.domain.globalBox side c) →
      Returns ((Domain.setStack s.domain.reducedStack.1 s.domain.reducedStack.2).finish t.domain)
        fun r => Domain.Resumed model.columns.size s.domain t.domain r.2 ∧
          (r.2.infeasible = none → ∀ side c, c < model.columns.size →
            r.2.values side c = s.domain.values side c) := by
  refine ⟨fun hα _ _ _ _ _ hmodel hnumbers hs hfeasible ht hglobal =>
    ⟨Domain.reducedStack_increasing.1, Domain.reducedStack_increasing.2,
      hs.resumed hα hmodel hnumbers hfeasible ht hglobal⟩,
    fun {draft model feastol s t} hmodel hs hfeasible ht hglobal => ?_⟩
  have hread := Draft.readable_of_build hmodel
  have hlogging := hs.logging_of_brings (fun _ _ hop => hop) (Draft.wellFormed_of_build hmodel)
    hread
  have hnumbers := hread.boundedByNumbers
  have hstart := Trail.numeric_ofModel hnumbers
  have hbuilt := (hlogging.shrinking hnumbers (Draft.ordered_of_build hmodel hnumbers)).built
  have hshrunk :=
    (hbuilt.rewindTo hstart.fresh s.domain.globalLength).shrunk hstart.fresh hstart.number
  have hresumed := hlogging.resumed Exact.equalInfinities hmodel hnumbers hfeasible ht
    fun side c hc => hglobal side c hc ▸ .refl (hshrunk.number side c)
  refine hresumed.mono fun r _ hr => ⟨hr, fun hnone side c hc => ?_⟩
  obtain ⟨hle, hge⟩ := hr.box hnone side c hc
  exact Exact.le_antisymm hle hge

/-- A decision is superseded by another change of the same bound, and a row is propagated. -/
def suspendedRun : List (Operation Exact) :=
  [.changeBound (.atLeast 0 1) .branching, .changeBound (.atLeast 0 2) .unknown, .propagate,
    .changeBound (.atLeast 1 1) .branching, .propagate]

/-- Another branch of the search. -/
def otherRun : List (Operation Exact) := [.changeBound (.atMost 1 0) .branching, .propagate]

theorem suspendedRun_brings : ∀ op ∈ suspendedRun, op.Brings (.exact .any) := by
  simp only [suspendedRun, List.forall_mem_cons, List.not_mem_nil, false_imp_iff, implies_true,
    and_true, Operation.Brings, Tracking.exact, Exact.Range.any, BoundChange.atLeast, true_and]
  refine ⟨?_, ?_, ?_⟩ <;> exact fun h => by cases h

theorem otherRun_brings : ∀ op ∈ otherRun, op.Brings (.exact .any) := by
  simp only [otherRun, List.forall_mem_cons, List.not_mem_nil, false_imp_iff, implies_true,
    and_true, Operation.Brings, Tracking.exact, Exact.Range.any, BoundChange.atMost, ne_eq]
  exact fun h => by cases h

/-- The box after the first run is resumed in the domain after the second one, from fewer changes
than were made. -/
theorem superseded_changes_resume :
    ∃ (model : Model Exact) (s t : PropagationState Exact), twoColumns.build = .ok model ∧
      s.domain.log.size = 4 ∧ s.domain.reducedStack.2 = [2] ∧
      Returns ((Domain.setStack s.domain.reducedStack.1 s.domain.reducedStack.2).finish t.domain)
        fun r => Domain.Resumed model.columns.size s.domain t.domain r.2 ∧
          (r.2.infeasible = none → ∀ side c, c < model.columns.size →
            r.2.values side c = s.domain.values side c) := by
  have hrun : passes twoColumns.build (fun model => passes (Domain.ofModel model 1e-6) fun d =>
      passes (suspendedRun.foldlM (fun s op => op.perform s) ⟨.empty, d⟩) fun s =>
        passes (otherRun.foldlM (fun s op => op.perform s) ⟨.empty, d⟩) fun t =>
          s.domain.infeasible.isNone && s.domain.log.size == 4 && s.domain.reducedStack.2 == [2] &&
            s.domain.globalLength == 0 && t.domain.globalLength == 0) = true := by
    rw [(Operation.performUnrolled 100).property]
    decide +kernel
  obtain ⟨model, hmodel, hrun⟩ := passes_eq_true.mp hrun
  obtain ⟨d, hd, hrun⟩ := passes_eq_true.mp hrun
  obtain ⟨s, hs, hrun⟩ := passes_eq_true.mp hrun
  obtain ⟨t, ht, hrun⟩ := passes_eq_true.mp hrun
  simp only [Bool.and_eq_true, beq_iff_eq, Option.isNone_iff_eq_none] at hrun
  obtain ⟨⟨⟨⟨hfeasible, hlog⟩, hstack⟩, hs0⟩, ht0⟩ := hrun
  have hreach : Reachable (fun _ op => op.Brings (.exact .any)) model 1e-6 s :=
    (Reachable.start hd).performAll (fun _ => suspendedRun_brings) hs
  have hother : Reachable (fun _ op => op.Brings (.exact .any)) model 1e-6 t :=
    (Reachable.start hd).performAll (fun _ => otherRun_brings) ht
  have hread := Draft.readable_of_build hmodel
  have hglobal (u : PropagationState Exact) (hu : Reachable (fun _ op => op.Brings (.exact .any))
    model
      1e-6 u) (hzero : u.domain.globalLength = 0) :
      u.domain.globalBox = (Trail.ofModel model).values := by
    have hlogging := hu.logging_of_brings (fun _ _ hop => hop) (Draft.wellFormed_of_build hmodel)
      hread
    have hnumbers := hread.boundedByNumbers
    have hshrinking := hlogging.shrinking hnumbers (Draft.ordered_of_build hmodel hnumbers)
    rw [Domain.globalBox, hzero, hshrinking.built.rewindTo_zero (Trail.fresh_ofModel model)]
  exact ⟨model, s, t, hmodel, hlog, hstack, suspended_box_resumes.2 hmodel hreach hfeasible
    ((Reachable.start hd).performAll (fun _ _ _ => trivial) ht)
    fun side c _ => by rw [hglobal s hreach hs0, hglobal t hother ht0]⟩

end BranchBound
