import BranchBound.Domain.Literal
import BranchBound.Proofs.Domain.Backtracking
import BranchBound.Proofs.Domain.Shrinking

/-!
# The log as a record of the box

Every entry of the log names the bound it replaced, and every bound names the entry which set it. In
every run in which the values of the changes are numbers these two kinds of links are exact: what an
entry replaced is the bound of the last earlier entry on the same side of the same column, and what
is in force is that of the last entry of all. Along these links bounds only become tighter. The box
is empty at most in an infeasible domain, and there nothing moves until a part of the log is cut
off.
-/

namespace BranchBound

open Checked

variable {α : Type}

/-- The entry set the bound of a column on a side. -/
def LogEntry.Sets (entry : LogEntry α) (side : Side) (c : ColumnId) : Prop :=
  entry.change.side = side ∧ entry.change.column = c

namespace Trail

/-- No entry in a stretch of a log set a bound. -/
def Unset (log : Array (LogEntry α)) (side : Side) (c : ColumnId) (first length : Nat) : Prop :=
  ∀ q entry, first ≤ q → q < length → log[q]? = some entry → ¬entry.Sets side c

/-- The bound that is in force after the first entries of a log: that of the last one among them
which set it, together with its position, or the bound at the start if there is none. -/
inductive InForce (start : Trail α) (log : Array (LogEntry α)) (side : Side) (c : ColumnId)
    (length : Nat) : Bound α → Prop
  | start {b : Bound α} (h : (start.bounds side)[c]? = some b)
      (hunset : Unset log side c 0 length) :
      InForce start log side c length b
  | set {p : Nat} {entry : LogEntry α} (hp : p < length) (h : log[p]? = some entry)
      (hsets : entry.Sets side c) (hunset : Unset log side c (p + 1) length) :
      InForce start log side c length ⟨entry.change.value, some p⟩

variable {start t : Trail α} {log log' : Array (LogEntry α)} {side : Side} {c : ColumnId}
  {length : Nat} {b b' : Bound α}

theorem Unset.congr {first : Nat} (h : Unset log side c first length)
    (hsame : ∀ q, q < length → log'[q]? = log[q]?) : Unset log' side c first length :=
  fun q entry hfirst hq hentry => h q entry hfirst hq ((hsame q hq).symm.trans hentry)

/-- Only the entries that are counted matter. -/
theorem InForce.congr (h : InForce start log side c length b)
    (hsame : ∀ q, q < length → log'[q]? = log[q]?) : InForce start log' side c length b := by
  cases h with
  | start hb hunset => exact .start hb (hunset.congr hsame)
  | set hp hentry hsets hunset =>
      exact .set hp ((hsame _ hp).trans hentry) hsets (hunset.congr hsame)

theorem Unset.succ {first : Nat} (h : Unset log side c first length)
    (hnext : ∀ entry, log[length]? = some entry → ¬entry.Sets side c) :
    Unset log side c first (length + 1) := fun q entry hfirst hq hentry => by
  rcases Nat.lt_succ_iff_lt_or_eq.mp hq with hlt | rfl
  · exact h q entry hfirst hlt hentry
  · exact hnext entry hentry

/-- A bound stays in force as long as it is not set again. -/
theorem InForce.succ (h : InForce start log side c length b)
    (hnext : ∀ entry, log[length]? = some entry → ¬entry.Sets side c) :
    InForce start log side c (length + 1) b := by
  cases h with
  | start hb hunset => exact .start hb (hunset.succ hnext)
  | set hp hentry hsets hunset =>
      exact .set (Nat.lt_succ_of_lt hp) hentry hsets (hunset.succ hnext)

/-- At most one bound is in force. -/
theorem InForce.unique (h : InForce start log side c length b)
    (h' : InForce start log side c length b') : b = b' := by
  cases h with
  | start hb hunset =>
      cases h' with
      | start hb' _ => exact Option.some.inj (hb.symm.trans hb')
      | set hp' hentry' hsets' _ => exact absurd hsets' (hunset _ _ (Nat.zero_le _) hp' hentry')
  | @set p entry hp hentry hsets hunset =>
      cases h' with
      | start _ hunset' => exact absurd hsets (hunset' _ _ (Nat.zero_le _) hp hentry)
      | @set p' entry' hp' hentry' hsets' hunset' =>
          rcases Nat.lt_trichotomy p p' with hlt | rfl | hlt
          · exact absurd hsets' (hunset _ _ hlt hp' hentry')
          · rw [Option.some.inj (hentry.symm.trans hentry')]
          · exact absurd hsets (hunset' _ _ hlt hp hentry)

/-- What is in force later and was not set in between was in force before. -/
theorem InForce.of_later (h : InForce start log side c length b) {earlier : Nat}
    (hle : earlier ≤ length) (hposition : ∀ p, b.position = some p → p < earlier) :
    InForce start log side c earlier b := by
  have hshorter {first : Nat} (hunset : Unset log side c first length) :
      Unset log side c first earlier := fun q entry hfirst hq =>
    hunset q entry hfirst (Nat.lt_of_lt_of_le hq hle)
  cases h with
  | start hb hunset => exact .start hb (hshorter hunset)
  | set _ hentry hsets hunset => exact .set (hposition _ rfl) hentry hsets (hshorter hunset)

/-- Behind its end a log sets nothing. -/
theorem InForce.behind (h : InForce start log side c log.size b) (hle : log.size ≤ length) :
    InForce start log side c length b := by
  have hlonger {first : Nat} (hunset : Unset log side c first log.size) :
      Unset log side c first length := fun q entry hfirst _ hentry =>
    hunset q entry hfirst (Array.getElem?_eq_some_iff.mp hentry).1 hentry
  cases h with
  | start hb hunset => exact .start hb (hlonger hunset)
  | set hp hentry hsets hunset =>
      exact .set (Nat.lt_of_lt_of_le hp hle) hentry hsets (hlonger hunset)

/-- The links between the entries of the log and the bounds are exact. -/
structure Chained (start t : Trail α) : Prop where
  previous : ∀ p entry, t.log[p]? = some entry →
    InForce start t.log entry.change.side entry.change.column p entry.previous
  current : ∀ side c, c < (start.bounds side).size →
    ∃ b, (t.bounds side)[c]? = some b ∧ InForce start t.log side c t.log.size b

/-- The links between the entries of the log and the bounds are exact, and bounds only become
tighter along them. -/
structure Linked [Scalar α] (start t : Trail α) : Prop where
  tight : ∀ entry ∈ t.log,
    entry.change.side.tightOrEqual entry.change.value entry.previous.value = true
  tighter : ∀ entry ∈ t.log, entry.reason ≠ .branching →
    entry.change.side.tighter entry.change.value entry.previous.value = true
  previous : ∀ p entry, t.log[p]? = some entry →
    InForce start t.log entry.change.side entry.change.column p entry.previous
  current : ∀ side c, c < (start.bounds side).size →
    ∃ b, (t.bounds side)[c]? = some b ∧ InForce start t.log side c t.log.size b

theorem Chained.of_fresh (hstart : start.Fresh) : Chained start start where
  previous := fun p entry hentry => by simp [hstart.log] at hentry
  current := fun side c hc =>
    ⟨_, Array.getElem?_eq_getElem hc, .start (Array.getElem?_eq_getElem hc)
      fun q entry _ hq => by simp [hstart.log] at hq⟩

variable {change : BoundChange α} {reason : Reason} {previous : Bound α}

/-- Appending an entry keeps the links. -/
theorem Chained.append (h : Chained start t) (reason : Reason)
    (hsize : (t.bounds change.side).size = (start.bounds change.side).size)
    (hprevious : (t.bounds change.side)[change.column]? = some previous) :
    Chained start (t.append change reason previous) := by
  have hlt : change.column < (t.bounds change.side).size :=
    (Array.getElem?_eq_some_iff.mp hprevious).1
  have hearlier (q : Nat) (hq : q < t.log.size) :
      (t.append change reason previous).log[q]? = t.log[q]? := by
    rw [append_log, Array.getElem?_push_lt hq, Array.getElem?_eq_getElem hq]
  have hlast : (t.append change reason previous).log[t.log.size]? =
      some ⟨change, reason, previous⟩ := by
    rw [append_log, Array.getElem?_push_size]
  have hreplaced : InForce start t.log change.side change.column t.log.size previous := by
    obtain ⟨b, hb, hforce⟩ := h.current change.side change.column (hsize ▸ hlt)
    rwa [Option.some.inj (hprevious.symm.trans hb)]
  refine ⟨fun p entry hentry => ?_, fun side c hc => ?_⟩
  · rcases Nat.lt_or_ge p t.log.size with hp | hp
    · have hlink := h.previous p entry ((hearlier p hp).symm.trans hentry)
      exact hlink.congr fun q hq => hearlier q (Nat.lt_trans hq hp)
    · obtain ⟨hp', -⟩ := Array.getElem?_eq_some_iff.mp hentry
      rw [append_log, Array.size_push] at hp'
      obtain rfl : p = t.log.size := by omega
      obtain rfl := Option.some.inj (hlast.symm.trans hentry)
      exact hreplaced.congr hearlier
  · rw [append_log, Array.size_push, ← append_log t change reason previous]
    by_cases hset : side = change.side ∧ c = change.column
    · obtain ⟨rfl, rfl⟩ := hset
      refine ⟨⟨change.value, some t.log.size⟩, ?_, ?_⟩
      · rw [append_bounds, Array.getElem?_setIfInBounds_self_of_lt hlt]
      · refine .set (Nat.lt_succ_self _) hlast ⟨rfl, rfl⟩ fun q entry hq hq' => ?_
        omega
    · obtain ⟨b, hb, hforce⟩ := h.current side c hc
      refine ⟨b, ?_, (hforce.congr hearlier).succ fun entry hentry hsets => ?_⟩
      · rw [append_bounds_of_ne t hset]
        exact hb
      · obtain rfl := Option.some.inj (hlast.symm.trans hentry)
        exact hset ⟨hsets.1.symm, hsets.2.symm⟩

/-- The links are exact in every trail that came about by changes. -/
theorem Built.chained {allowed : Trail α → BoundChange α → Reason → Prop} (hstart : start.Fresh)
    (h : Built allowed start t) : Chained start t := by
  induction h with
  | start => exact .of_fresh hstart
  | append h hprevious _ ih => exact ih.append _ (h.bounds_size _) hprevious

/-- The bounds of a trail that is rewound are those which were in force there. -/
theorem Built.inForce_rewindTo {allowed : Trail α → BoundChange α → Reason → Prop}
    (hstart : start.Fresh) (h : Built allowed start t) (p : Nat)
    (hc : c < (start.bounds side).size) :
    ∃ b, ((t.rewindTo p).bounds side)[c]? = some b ∧ InForce start t.log side c p b := by
  obtain ⟨b, hb, hforce⟩ := ((h.rewindTo hstart p).chained hstart).current side c hc
  refine ⟨b, hb, ?_⟩
  rcases Nat.le_total p t.log.size with hp | hp
  · have hsize : (t.log.take p).size = p := by
      rw [Array.take_eq_extract, Array.size_extract]
      omega
    rw [rewindTo_log, hsize] at hforce
    refine hforce.congr fun q hq => ?_
    have htoList : (t.log.take p).toList = t.log.toList.take p := by simp
    rw [← Array.getElem?_toList, ← Array.getElem?_toList, htoList, List.getElem?_take_of_lt hq]
  · rw [rewindTo_of_le (h.decisionsLogged hstart) hp] at hforce
    exact hforce.behind hp

variable [Scalar α] {columnCount : Nat}

theorem Linked.of_fresh (hstart : start.Fresh) : Linked start start where
  tight := fun entry hentry => by simp [hstart.log] at hentry
  tighter := fun entry hentry => by simp [hstart.log] at hentry
  previous := (Chained.of_fresh hstart).previous
  current := (Chained.of_fresh hstart).current

theorem Linked.chained (h : Linked start t) : Chained start t := ⟨h.previous, h.current⟩

/-- Appending an entry that does not make a bound less tight keeps the links. -/
theorem Linked.append (h : Linked start t) (hsize : (t.bounds change.side).size =
      (start.bounds change.side).size)
    (hprevious : (t.bounds change.side)[change.column]? = some previous)
    (hallowed : Shrinks columnCount t change reason) :
    Linked start (t.append change reason previous) := by
  have hvalue : t.values change.side change.column = previous.value := values_eq hprevious
  have hchained := h.chained.append reason hsize hprevious
  refine ⟨fun entry hentry => ?_, fun entry hentry hreason => ?_, hchained.previous,
    hchained.current⟩
  · rw [append_log, Array.mem_push] at hentry
    rcases hentry with hentry | rfl
    · exact h.tight entry hentry
    · exact hvalue ▸ hallowed.tight
  · rw [append_log, Array.mem_push] at hentry
    rcases hentry with hentry | rfl
    · exact h.tighter entry hentry hreason
    · exact hvalue ▸ hallowed.tighter hreason

/-- The links are exact in every trail that came about by changes of boxes that were not empty. -/
theorem Built.linked (hstart : start.Fresh) (h : Built (Shrinks columnCount) start t) :
    Linked start t := by
  induction h with
  | start => exact .of_fresh hstart
  | append h hprevious hallowed ih => exact ih.append (h.bounds_size _) hprevious hallowed

end Trail

section Runs

variable [Scalar α] [Scalar.LinearlyOrdered α] {draft : Draft α} {model : Model α} {feastol : α}
  {s : PropagationState α}

theorem Draft.ordered_of_build (hmodel : draft.build = .ok model)
    (hnumbers : model.BoundedByNumbers) : model.Ordered := fun c column hcolumn =>
  Scalar.Ordered.le_of_not_lt _ _ (hnumbers c column hcolumn).2 (hnumbers c column hcolumn).1
    (Draft.not_lt_of_build hmodel hcolumn)

/-- What the log of a domain in a run over a model is worth: it is an exact record of the box, which
is empty at most if the domain is infeasible. An operation on an infeasible domain that does not cut
off a part of the log leaves the bounds, the log and the infeasibility as they are. -/
structure PropagationState.RecordsBox (model : Model α) (s : PropagationState α) : Prop where
  linked : Trail.Linked (.ofModel model) s.domain.trail
  ordered : s.domain.infeasible = none →
    ∀ c < model.columns.size, s.domain.values .lower c ≤ s.domain.values .upper c
  latched : s.domain.infeasible ≠ none → ∀ (op : Operation α) s', op.perform s = .ok s' →
    (∀ p, op.cutsTo s.domain = some p → s.domain.log.size ≤ p) →
    s'.domain.trail = s.domain.trail ∧ s'.domain.infeasible = s.domain.infeasible

theorem Reachable.recordsBox (hmodel : draft.build = .ok model)
    (hnumbers : model.BoundedByNumbers) (h : Reachable Operation.LogsNumbers model feastol s) :
    s.RecordsBox model := by
  have hshrinking := h.shrinking hnumbers (Draft.ordered_of_build hmodel hnumbers)
  refine ⟨hshrinking.built.linked (Trail.fresh_ofModel model), fun hfeasible c hc => ?_,
    fun hinfeasible op s' hperform hcuts => ?_⟩
  · rw [← Domain.trail_values]
    exact hshrinking.ordered hfeasible c hc
  · obtain ⟨kept, hkept, hgrows⟩ := Operation.grows hperform
    have hwhole : s.domain.log.size ≤ (op.cutsTo s.domain).getD s.domain.log.size := by
      cases hcut : op.cutsTo s.domain with
      | none => exact Nat.le_refl _
      | some p => exact hcuts p hcut
    rw [Domain.backtrackTo_of_le hwhole] at hkept
    obtain rfl := Except.ok.inj hkept
    exact hgrows.of_infeasible hinfeasible

end Runs

/-- In every run the log is an exact record of the box. Over any numbers that are linearly ordered
this takes a run in which the values on record are numbers; over exact numbers it is enough if the
operations bring no others, since propagation derives none. -/
theorem log_records_box :
    (∀ {α : Type} [Scalar α] [Scalar.LinearlyOrdered α] {draft : Draft α} {model : Model α}
      {feastol : α} {s : PropagationState α}, draft.build = .ok model → model.BoundedByNumbers →
      Reachable Operation.LogsNumbers model feastol s → s.RecordsBox model) ∧
    ∀ {draft : Draft Exact} {model : Model Exact} {feastol : Exact} {s : PropagationState Exact},
      draft.build = .ok model → Reachable (fun _ op => op.Brings (.exact .any)) model feastol s →
      s.RecordsBox model := by
  refine ⟨fun hmodel hnumbers h => h.recordsBox hmodel hnumbers, fun hmodel h => ?_⟩
  have hread := Draft.readable_of_build hmodel
  exact (h.logging_of_brings (fun _ _ hop => hop) (Draft.wellFormed_of_build hmodel)
    hread).recordsBox hmodel hread.boundedByNumbers

/-- A decision, a bound within the tolerance of the opposite one, a decision that repeats a bound
and is undone, and one that crosses the opposite bound. -/
def linkedChanges : List (Operation Exact) :=
  [.changeBound (.atLeast 0 2) .branching, .changeBound (.atLeast 0 (3 + 1e-7)) .unknown,
    .changeBound (.atLeast 0 1) .branching, .backtrack, .changeBound (.atLeast 1 4) .branching]

theorem linkedChanges_brings : ∀ op ∈ linkedChanges, op.Brings (.exact .any) := by
  simp only [linkedChanges, List.forall_mem_cons, List.not_mem_nil, false_imp_iff, implies_true,
    and_true, Operation.Brings, Tracking.exact, Exact.Range.any, BoundChange.atLeast, true_and]
  refine ⟨?_, ?_, ?_, ?_⟩ <;> exact fun h => by cases h

/-- After changes of two columns the log records a box that is empty. -/
theorem crossing_run_records_box :
    ∃ (model : Model Exact) (s : PropagationState Exact), twoColumns.build = .ok model ∧
      Reachable (fun _ op => op.Brings (.exact .any)) model 1e-6 s ∧
      s.domain.isInfeasible = true ∧ s.domain.log.size = 3 ∧
      s.domain.lower.map Bound.position = #[some 1, some 2] ∧ s.RecordsBox model := by
  have hrun : passes twoColumns.build (fun model => passes (Domain.ofModel model 1e-6) fun d =>
      passes (linkedChanges.foldlM (fun s op => op.perform s) ⟨.empty, d⟩) fun s =>
        s.domain.isInfeasible && s.domain.log.size == 3 &&
          s.domain.lower.map Bound.position == #[some 1, some 2]) = true := by
    decide +kernel
  obtain ⟨model, hmodel, hrun⟩ := passes_eq_true.mp hrun
  obtain ⟨d, hd, hrun⟩ := passes_eq_true.mp hrun
  obtain ⟨s, hs, hrun⟩ := passes_eq_true.mp hrun
  simp only [Bool.and_eq_true, beq_iff_eq] at hrun
  have hreach : Reachable (fun _ op => op.Brings (.exact .any)) model 1e-6 s :=
    (Reachable.start hd).performAll (fun _ => linkedChanges_brings) hs
  exact ⟨model, s, hmodel, hreach, hrun.1.1, hrun.1.2, hrun.2, log_records_box.2 hmodel hreach⟩

end BranchBound

/-!
## Looking up bounds of the past

Every bound names the entry of the log that set it, and every entry the bound it replaced. Following
these links backwards finds the bound that was in force at an earlier position. Backtracking gets
there by undoing entry after entry, whatever columns they are about. Both lead to the same bounds,
because the links are exact in every run: it does not matter whether changes made a bound tighter,
nor what was undone before.
-/

namespace BranchBound

open Checked

variable {α : Type}

namespace Trail

variable {start t : Trail α} {log : Array (LogEntry α)} {side : Side} {c : ColumnId} {length : Nat}
  {b : Bound α}

/-- A bound in force was set before. -/
theorem InForce.position_lt (h : InForce start log side c length b) (hstart : start.Pristine) :
    ∀ p, b.position = some p → p < length := by
  intro p hp
  cases h with
  | start hb _ => cases (hstart side c b hb).symm.trans hp
  | set hlt _ _ _ => cases hp; exact hlt

/-- Following the links backwards gives the bound that was in force at an earlier length. -/
theorem InForce.before (h : InForce start log side c length b) (hstart : start.Pristine)
    (hlinked : ∀ p entry, log[p]? = some entry →
      InForce start log entry.change.side entry.change.column p entry.previous)
    {position steps : Nat} (hle : position ≤ length) (hsteps : ∀ p, b.position = some p →
      p < steps) :
    InForce start log side c position (b.before log position steps) := by
  induction steps generalizing length b with
  | zero => exact h.of_later hle fun p hp => absurd (hsteps p hp) (Nat.not_lt_zero p)
  | succ steps ih =>
      rw [Bound.before]
      cases hposition : b.position with
      | none => exact h.of_later hle fun p hp => by cases hposition.symm.trans hp
      | some p =>
          dsimp only
          split
          · next hlt =>
              refine h.of_later hle fun q hq => ?_
              cases hposition.symm.trans hq
              exact hlt
          · next hlater =>
              cases h with
              | start hb _ => cases (hstart side c b hb).symm.trans hposition
              | @set q entry hq hentry hsets _ =>
                  cases hposition
                  have hprevious := hlinked p entry hentry
                  rw [hsets.1, hsets.2] at hprevious
                  rw [hentry]
                  -- The replaced bound was set before the entry that replaced it.
                  refine ih hprevious (Nat.le_of_not_lt hlater) fun r hr => ?_
                  have hbefore := hprevious.position_lt hstart r hr
                  have hlast := hsteps p rfl
                  omega

end Trail

namespace Domain

variable [Scalar α] {d d' : Domain α} {start : Trail α} {side : Side} {c : ColumnId}

omit [Scalar α] in
/-- Where the links are exact, the bound that is looked up is the one that was in force. -/
theorem boundBefore_inForce (hlinks : Trail.Chained start d.trail) (hstart : start.Pristine)
    (hc : c < (start.bounds side).size) (position : Nat) :
    Returns (d.boundBefore side c position) (Trail.InForce start d.log side c position) := by
  obtain ⟨b, hb, hforce⟩ := hlinks.current side c hc
  rw [trail_bounds] at hb
  refine ⟨b.before d.log position d.log.size, ?_, ?_⟩
  · rw [boundBefore, bound, bind_eq_ok]
    exact ⟨b, fetch_eq_ok.mpr hb, rfl⟩
  · exact (hforce.behind (Nat.le_max_left _ position)).before hstart hlinks.previous
      (Nat.le_max_right ..) (hforce.position_lt hstart)

omit [Scalar α] in
/-- A column that does not exist has no bounds. -/
theorem bound_of_size_le (hc : (d.bounds side).size ≤ c) :
    d.bound side c = .error .outOfRange := by
  rw [bound, fetch, Array.getElem?_eq_none hc]

omit [Scalar α] in
theorem boundBefore_of_size_le (hc : (d.bounds side).size ≤ c) (position : Nat) :
    d.boundBefore side c position = .error .outOfRange := by
  rw [boundBefore, bound_of_size_le hc]
  rfl

/-- Backtracking rewinds the trail, also where there is nothing to undo. -/
theorem backtrackTo_rewinds (hd : d.trail.DecisionsLogged) {position : Nat}
    (h : d.backtrackTo position = .ok d') : d'.trail = d.trail.rewindTo position := by
  rcases backtrackTo_eq_ok h with ⟨hle, rfl⟩ | ⟨hlt, -⟩
  · exact (Trail.rewindTo_of_le hd hle).symm
  · exact (backtrackTo_trail h hlt).1

/-- A trail that came about by changes still does after whatever operations do. -/
theorem Turns.built (hstart : start.Fresh) (h : Turns d d')
    (hbuilt : Trail.Built (fun _ _ _ => True) start d.trail) :
    Trail.Built (fun _ _ _ => True) start d'.trail := by
  induction h with
  | refl => exact hbuilt
  | tail _ hturn ih =>
      cases hturn with
      | keep hstill => rwa [hstill.trail]
      | back hback =>
          rw [backtrackTo_rewinds (ih.decisionsLogged hstart) hback]
          exact ih.rewindTo hstart _
      | change hchange =>
          rcases changeBound_trail hchange with rfl | ⟨-, value, previous, hprevious, hfollows⟩
          · exact ih
          · rw [hfollows.trail, withTrail_trail]
            rw [← trail_bounds] at hprevious
            exact ih.append hprevious trivial

end Domain

section Runs

variable [Scalar α] {draft : Draft α} {model : Model α} {feastol : α} {s : PropagationState α}
  {permitted : PropagationState α → Operation α → Prop}

/-- In every run the trail came about by changes of the bounds of the model. -/
theorem Reachable.built (h : Reachable permitted model feastol s) :
    Trail.Built (fun _ _ _ => True) (.ofModel model) s.domain.trail := by
  induction h with
  | start hd =>
      rw [Domain.ofModel_trail hd]
      exact .start
  | step _ _ hperform ih =>
      exact (Operation.turns hperform).built (Trail.fresh_ofModel model) ih

/-- **Looking up a bound of the past is backtracking.** In every state that a domain of a model
reaches by any operations, backtracking to any position returns, and then every column has on both
sides the bound that is looked up for this position beforehand: the value and the position of the
change that set it. There is such a bound for exactly the columns of the model. -/
theorem lookup_agrees_with_backtracking (hα : EqualInfinities α) (hmodel : draft.build = .ok model)
    (h : Reachable (fun _ _ => True) model feastol s) (p : Nat) :
    Returns (s.domain.backtrackTo p) fun d => ∀ side c,
      s.domain.boundBefore side c p = d.bound side c ∧
        ((∃ b, d.bound side c = .ok b) ↔ c < model.columns.size) := by
  have hsettled : s.domain.Settled (.counting hα) := by
    refine (h.settled (fun _ _ _ _ _ _ _ => trivial) (fun _ op _ => ?_)
      (Draft.wellFormed_of_build hmodel) ?_).domain
    · cases op <;> simp [Operation.Brings, Tracking.counting]
    · exact ⟨fun _ _ _ _ _ => trivial, fun _ _ _ => trivial, fun _ _ _ => ⟨trivial, trivial⟩⟩
  have hfresh := Trail.fresh_ofModel model
  have hbuilt := h.built
  refine (Domain.backtrackTo_returns hsettled p).mono fun d hd _ => ?_
  have htrail := Domain.backtrackTo_rewinds (hbuilt.decisionsLogged hfresh) hd
  intro side c
  have hsize := (hbuilt.bounds_size side).trans (Trail.bounds_ofModel_size model side)
  have hsize' := ((hbuilt.rewindTo hfresh p).bounds_size side).trans
    (Trail.bounds_ofModel_size model side)
  rw [Domain.trail_bounds] at hsize
  rw [← htrail, Domain.trail_bounds] at hsize'
  by_cases hc : c < model.columns.size
  · have hstart : c < ((Trail.ofModel model).bounds side).size := by
      rwa [Trail.bounds_ofModel_size]
    obtain ⟨b, hb, hforce⟩ := hbuilt.inForce_rewindTo hfresh p hstart
    obtain ⟨b', hlookup, hforce'⟩ := Domain.boundBefore_inForce (hbuilt.chained hfresh)
      (Trail.pristine_ofModel model) hstart p
    obtain rfl := hforce.unique hforce'
    rw [← htrail, Domain.trail_bounds] at hb
    have hbound : d.bound side c = .ok b := fetch_eq_ok.mpr hb
    exact ⟨hlookup.trans hbound.symm, fun _ => hc, fun _ => ⟨b, hbound⟩⟩
  · have hc := Nat.le_of_not_lt hc
    rw [Domain.boundBefore_of_size_le (hsize.trans_le hc),
      Domain.bound_of_size_le (hsize'.trans_le hc)]
    refine ⟨rfl, ?_, fun hlt => absurd hlt (Nat.not_lt_of_le hc)⟩
    rintro ⟨b, hb⟩
    cases hb

end Runs

/-- A decision that does not make a bound tighter, after a part of the log was cut off, and changes
of another column in between. -/
def interleavedChanges : List (Operation Exact) :=
  [.changeBound (.atLeast 0 1) .branching, .changeBound (.atMost 1 2) .unknown,
    .changeBound (.atLeast 0 2) .branching, .backtrack, .changeBound (.atLeast 1 1) .branching,
    .changeBound (.atLeast 0 1) .branching, .changeBound (.atLeast 0 3) .unknown]

/-- The bounds at every position are found without undoing the changes of two columns. -/
theorem interleaved_changes_looked_up :
    ∃ (model : Model Exact) (s : PropagationState Exact),
      Reachable (fun _ _ => True) model 1e-6 s ∧ s.domain.log.size = 5 ∧
      Returns (s.domain.boundBefore .lower 0 4) (fun b => b.position = some 3) ∧
      ∀ p, Returns (s.domain.backtrackTo p) fun d => ∀ side c,
        s.domain.boundBefore side c p = d.bound side c ∧
          ((∃ b, d.bound side c = .ok b) ↔ c < model.columns.size) := by
  have hrun : passes twoColumns.build (fun model => passes (Domain.ofModel model 1e-6) fun d =>
      passes (interleavedChanges.foldlM (fun s op => op.perform s) ⟨.empty, d⟩) fun s =>
        s.domain.log.size == 5 &&
          passes (s.domain.boundBefore .lower 0 4) fun b => b.position == some 3) = true := by
    decide +kernel
  obtain ⟨model, hmodel, hrun⟩ := passes_eq_true.mp hrun
  obtain ⟨d, hd, hrun⟩ := passes_eq_true.mp hrun
  obtain ⟨s, hs, hrun⟩ := passes_eq_true.mp hrun
  rw [Bool.and_eq_true, beq_iff_eq, passes_eq_true] at hrun
  obtain ⟨hsize, b, hb, hlookup⟩ := hrun
  have hreach : Reachable (fun _ _ => True) model 1e-6 s :=
    (Reachable.start hd).performAll (fun _ _ _ => trivial) hs
  exact ⟨model, s, hreach, hsize, ⟨b, hb, beq_iff_eq.mp hlookup⟩,
    lookup_agrees_with_backtracking Exact.equalInfinities hmodel hreach⟩

end BranchBound
