import BranchBound.Domain.CutPropagation
import BranchBound.Proofs.Pool.Record
import BranchBound.Proofs.Tracking

/-!
# What a domain knows of cuts

A domain keeps a copy of every cut it has read together with its minimal activity, and lists under
every column the cuts over it. `CutPropagation.known` is the part of this that matters for what is
derived from cuts; queues and flags only say when it is derived. `CutPropagation.Coherent` says that
the minimal activities follow the bounds and that the lists are complete, and it is kept when a
bound moves and when the news of a pool is read.
-/

namespace BranchBound

open Checked

variable {α : Type}

/-- The cut and the minimal activity that a domain knows under an identifier. -/
def CutPropagation.known (p : CutPropagation α) (id : CutId) :
    Option (Inequality α × PartialSum α) :=
  (p.cuts.get? id).map fun known => (known.cut, known.min)

/-- Two states know the same of a cut pool; they may differ in which cuts wait. -/
structure CutPropagation.Agrees (p p' : CutPropagation α) : Prop where
  pool : p'.pool = p.pool
  seen : p'.seen = p.seen
  known : p'.known = p.known
  occurrences : p'.occurrences = p.occurrences

/-- Two states know the same cuts, whatever the bounds are. -/
structure CutPropagation.SameCuts (p p' : CutPropagation α) : Prop where
  pool : p'.pool = p.pool
  seen : p'.seen = p.seen
  cuts : ∀ id, (p'.known id).map Prod.fst = (p.known id).map Prod.fst

namespace CutPropagation

theorem SameCuts.refl (p : CutPropagation α) : SameCuts p p := ⟨rfl, rfl, fun _ => rfl⟩

theorem SameCuts.trans {p p' p'' : CutPropagation α} (h : SameCuts p p') (h' : SameCuts p' p'') :
    SameCuts p p'' :=
  ⟨h'.pool.trans h.pool, h'.seen.trans h.seen, fun id => (h'.cuts id).trans (h.cuts id)⟩

theorem Agrees.refl (p : CutPropagation α) : Agrees p p := ⟨rfl, rfl, rfl, rfl⟩

theorem Agrees.trans {p p' p'' : CutPropagation α} (h : Agrees p p') (h' : Agrees p' p'') :
    Agrees p p'' :=
  ⟨h'.pool.trans h.pool, h'.seen.trans h.seen, h'.known.trans h.known,
    h'.occurrences.trans h.occurrences⟩

theorem agrees_insert (p : CutPropagation α) {id : CutId} {cut : PropagatedCut α}
    (h : p.cuts.get? id = some cut) (dirty : Bool) (waiting : List CutId) :
    Agrees p
      { p with cuts := p.cuts.insert id { cut with dirty := dirty }, waiting := waiting } := by
  refine ⟨rfl, rfl, funext fun key => ?_, rfl⟩
  simp only [known, Slots.get?_insert]
  split
  · next heq =>
      subst heq
      rw [h]
      rfl
  · rfl

theorem agrees_markDirty (p : CutPropagation α) (id : CutId) : Agrees p (p.markDirty id) := by
  unfold markDirty
  split
  · next cut hcut =>
      split
      · exact .refl p
      · exact agrees_insert p hcut true _
  · exact .refl p

theorem agrees_foldl_markDirty (p : CutPropagation α) (ids : List CutId) :
    Agrees p (ids.foldl markDirty p) := by
  induction ids generalizing p with
  | nil => exact .refl p
  | cons id rest ih => exact (agrees_markDirty p id).trans (ih _)

end CutPropagation

namespace CutPropagation

/-- The columns of a cut list it under its identifier. -/
theorem foldl_listed (id : CutId) (entries : List (ColumnId × α)) (found : List (CutId × α)) :
    entries.foldl (fun found e => found ++ [(id, e.2)]) found =
      found ++ entries.map fun e => (id, e.2) := by
  induction entries generalizing found with
  | nil => simp
  | cons e rest ih => simp [ih]

/-- The columns of a cut remove it from their lists. -/
theorem foldl_unlisted (id : CutId) (entries : List (ColumnId × α)) (found : List (CutId × α)) :
    entries.foldl (fun found _ => found.filter fun o => o.1 != id) found =
      if entries.isEmpty then found else found.filter fun o => o.1 != id := by
  induction entries generalizing found with
  | nil => rfl
  | cons e rest ih =>
      rw [List.foldl_cons, ih]
      cases rest with
      | nil => rfl
      | cons e' rest => simp [List.filter_filter]

section Coherent

variable [Scalar α] (T : Tracking α) (columnCount : Nat) (β : BoundValues α)

/-- What is known of cuts fits the values of the bounds. -/
structure Coherent (p : CutPropagation α) : Prop where
  size : p.occurrences.size = columnCount
  entries : ∀ id cut min, p.known id = some (cut, min) →
    ∀ e ∈ cut.entries, e.1 < columnCount ∧ T.coefficient e.2
  tracks : ∀ id cut min, p.known id = some (cut, min) →
    T.tracks min (termsAt β minSide cut.entries) 0
  occurrences : ∀ (c : ColumnId) (found : List (CutId × α)) (id : CutId),
    p.occurrences[c]? = some found → (found.filter fun o => o.1 = id).map Prod.snd =
      (p.known id).elim [] fun known => (known.1.entries.filter fun e => e.1 = c).map Prod.snd

variable {T columnCount β}

theorem coherent_ofPool (pool : Nat) : (ofPool pool columnCount : CutPropagation α).Coherent T
    columnCount β where
  size := Array.size_replicate
  entries := fun id cut min h => by simp [known, ofPool, Slots.get?_empty] at h
  tracks := fun id cut min h => by simp [known, ofPool, Slots.get?_empty] at h
  occurrences := fun c found id h => by
    rw [ofPool, Array.getElem?_replicate] at h
    split at h
    · cases h
      simp [known, ofPool, Slots.get?_empty]
    · cases h

theorem Coherent.of_agrees {p p' : CutPropagation α} (h : p.Coherent T columnCount β)
    (hagrees : p.Agrees p') : p'.Coherent T columnCount β where
  size := hagrees.occurrences ▸ h.size
  entries := hagrees.known ▸ h.entries
  tracks := hagrees.known ▸ h.tracks
  occurrences := by
    rw [hagrees.occurrences, hagrees.known]
    exact h.occurrences

/-- A bound that moves to an equal value leaves everything coherent. -/
theorem Coherent.set_of_same {p : CutPropagation α} (h : p.Coherent T columnCount β)
    (hβ : T.Admissible β) {c : ColumnId} {side : Side} {new : α} (hnew : T.value new)
    (hsame : (β side c != new) = false) : p.Coherent T columnCount (β.set side c new) :=
  { h with
    tracks := fun id cut min hknown =>
      Tracking.tracks_set_of_same hβ hnew hsame (h.tracks id cut min hknown) }

variable (T β) in
/-- What is known of cuts while a bound moves from one value to another one: the terms of some
occurrences are still to be replaced. -/
structure InMotion (c : ColumnId) (side : Side) (old new : α) (start p : CutPropagation α)
    (rest : List (CutId × α)) : Prop where
  pool : p.pool = start.pool
  seen : p.seen = start.seen
  occurrences : p.occurrences = start.occurrences
  cuts : ∀ id, (p.known id).map Prod.fst = (start.known id).map Prod.fst
  moving : ∀ id cut min, p.known id = some (cut, min) →
    T.Moving β minSide c side old new cut.entries min (pendingAt minSide side id rest)

variable (T β) in
/-- A cut that is reported as violated while a bound moves has a minimal activity above its
right-hand side, with some terms at the old value of the bound and the others at the new one. -/
def Exceeded (c : ColumnId) (side : Side) (old new feastol : α) (p : CutPropagation α)
    (id : CutId) : Prop :=
  ∃ cut min pending, (p.known id).map Prod.fst = some cut ∧
    T.Moving β minSide c side old new cut.entries min pending ∧
    min.exceeds cut.rhs feastol = true

section Move

variable {c : ColumnId} {side : Side} {old new feastol : α} {start p : CutPropagation α}

theorem InMotion.of_agrees {p' : CutPropagation α} {rest : List (CutId × α)}
    (h : InMotion T β c side old new start p rest) (hagrees : p.Agrees p') :
    InMotion T β c side old new start p' rest where
  pool := hagrees.pool.trans h.pool
  seen := hagrees.seen.trans h.seen
  occurrences := hagrees.occurrences.trans h.occurrences
  cuts := hagrees.known ▸ h.cuts
  moving := hagrees.known ▸ h.moving

/-- An occurrence whose term is not at the bound need not be looked at. -/
theorem InMotion.skip {o : CutId × α} {rest : List (CutId × α)}
    (h : InMotion T β c side old new start p (o :: rest))
    (hskip : ∀ cut min, p.known o.1 = some (cut, min) → minSide o.2 ≠ side) :
    InMotion T β c side old new start p rest :=
  { h with
    moving := fun id cut min hknown => by
      have hmoving := h.moving id cut min hknown
      rw [pendingAt_cons_of_notMem] at hmoving
      · exact hmoving
      · rintro ⟨rfl, hside⟩
        exact hskip cut min hknown hside }

variable (hold : T.value old) (hnew : T.value new)
  (hentries : ∀ id cut min, start.known id = some (cut, min) →
    ∀ e ∈ cut.entries, T.coefficient e.2)

include hold hnew hentries

theorem moveOccurrence_returns {o : CutId × α} {rest : List (CutId × α)}
    {violated : Option CutId} (h : InMotion T β c side old new start p (o :: rest))
    (hviolated : ∀ id, violated = some id → Exceeded T β c side old new feastol start id) :
    Returns (moveOccurrence side old new feastol (violated, p) o) fun result =>
      InMotion T β c side old new start result.2 rest ∧
        ∀ id, result.1 = some id → Exceeded T β c side old new feastol start id := by
  obtain ⟨id, a⟩ := o
  unfold moveOccurrence
  by_cases hside : minSide a = side
  · have hguard : (decide (0 < a) != (side == .lower)) = false := by
      rw [bne, minSide_eq_iff.mpr hside]
      rfl
    simp only [hguard, Bool.false_eq_true, if_false]
    cases hget : p.cuts.get? id with
    | none =>
        refine .pure ⟨h.skip fun cut min hknown => ?_, hviolated⟩
        rw [known, hget] at hknown
        cases hknown
    | some found =>
        have hknown : p.known id = some (found.cut, found.min) := by rw [known, hget,
          Option.map_some]
        have hcut : (start.known id).map Prod.fst = some found.cut := by
          rw [← h.cuts, hknown, Option.map_some]
        have hmoving := h.moving id found.cut found.min hknown
        rw [pendingAt_cons_of_mem (o := (id, a)) rest ⟨rfl, hside⟩] at hmoving
        obtain ⟨⟨cut, min⟩, hstart, rfl⟩ := Option.map_eq_some_iff.mp hcut
        have ha := hmoving.coefficient (hentries id _ min hstart)
        refine (hmoving.step ha hold hnew).bind fun moved _ hmoved => .pure ⟨?_, ?_⟩
        · have hnext : InMotion T β c side old new start
              { p with cuts := p.cuts.insert id { found with min := moved } } rest := by
            refine { h with cuts := fun id' => ?_, moving := fun id' cut' min' hknown' => ?_ }
            · simp only [known, Slots.get?_insert]
              split
              · next heq =>
                  subst heq
                  exact hcut.symm
              · exact h.cuts id'
            · simp only [known, Slots.get?_insert] at hknown'
              split at hknown'
              · next heq =>
                  subst heq
                  cases hknown'
                  exact hmoved
              · next hne =>
                  have hother := h.moving id' cut' min' hknown'
                  rw [pendingAt_cons_of_notMem] at hother
                  · exact hother
                  · exact fun hmem => hne hmem.1
          dsimp only
          split
          · exact hnext.of_agrees (agrees_markDirty _ _)
          · exact hnext
        · intro id' hid'
          dsimp only at hid'
          split at hid'
          · next hexceeds =>
              cases hid'
              simp only [Bool.and_eq_true] at hexceeds
              exact ⟨found.cut, moved, _, hcut, hmoved, hexceeds.2⟩
          · exact hviolated id' hid'
  · have hguard : (decide (0 < a) != (side == .lower)) = true := by
      rw [bne, Bool.not_eq_true', ← Bool.not_eq_true, minSide_eq_iff]
      exact hside
    simp only [hguard, if_true]
    exact .pure ⟨h.skip fun _ _ _ => hside, hviolated⟩

theorem foldlM_moveOccurrence_returns {found : List (CutId × α)} {violated : Option CutId}
    (h : InMotion T β c side old new start p found)
    (hviolated : ∀ id, violated = some id → Exceeded T β c side old new feastol start id) :
    Returns (found.foldlM (moveOccurrence side old new feastol) (violated, p)) fun result =>
      InMotion T β c side old new start result.2 [] ∧
        ∀ id, result.1 = some id → Exceeded T β c side old new feastol start id := by
  induction found generalizing p violated with
  | nil => exact .pure ⟨h, hviolated⟩
  | cons o rest ih =>
      rw [List.foldlM_cons]
      exact (moveOccurrence_returns hold hnew hentries h hviolated).bind
        fun result _ hresult => ih hresult.1 hresult.2

end Move

/-- The cuts follow a bound that moves. -/
theorem boundMoved_returns {p : CutPropagation α} (h : p.Coherent T columnCount β)
    {c : ColumnId} (hc : c < columnCount) {side : Side} {new : α} (feastol : α)
    (hold : T.value (β side c)) (hnew : T.value new) :
    Returns (p.boundMoved c side (β side c) new feastol) fun result =>
      result.2.Coherent T columnCount (β.set side c new) ∧ SameCuts p result.2 ∧
        ∀ id, result.1 = some id → Exceeded T β c side (β side c) new feastol p id := by
  unfold boundMoved
  refine (fetch_returns (h.size ▸ hc)).bind fun found _ hfound => ?_
  have hstart : InMotion T β c side (β side c) new p p found := by
    refine ⟨rfl, rfl, rfl, fun id => rfl, fun id cut min hknown => ?_⟩
    have hpending : pendingAt minSide side id found = coefficientsAt minSide c side
      cut.entries := by
      refine pendingAt_eq ?_
      rw [h.occurrences c found id hfound, hknown]
      rfl
    rw [hpending]
    exact .start rfl (h.tracks id cut min hknown)
  refine (foldlM_moveOccurrence_returns hold hnew
    (fun id cut min hknown e he => (h.entries id cut min hknown e he).2) hstart
    (fun id hid => by cases hid)).mono ?_
  rintro ⟨violated, moved⟩ - ⟨hmoved, hviolated⟩
  refine ⟨⟨?_, ?_, ?_, ?_⟩, ⟨hmoved.pool, hmoved.seen, hmoved.cuts⟩, hviolated⟩
  · rw [hmoved.occurrences]
    exact h.size
  · intro id cut min hknown
    have hcut : (p.known id).map Prod.fst = some cut := by
      rw [← hmoved.cuts, hknown, Option.map_some]
    obtain ⟨⟨cut, min'⟩, hstart, rfl⟩ := Option.map_eq_some_iff.mp hcut
    exact h.entries id cut min' hstart
  · exact fun id cut min hknown => (hmoved.moving id cut min hknown).finish
  · intro c' found' id hfound'
    rw [hmoved.occurrences] at hfound'
    rw [h.occurrences c' found' id hfound']
    have hcuts := hmoved.cuts id
    dsimp only at hcuts ⊢
    cases hp : p.known id with
    | none =>
        rw [hp, Option.map_none, Option.map_eq_none_iff] at hcuts
        rw [hcuts]
    | some known =>
        rw [hp, Option.map_some] at hcuts
        obtain ⟨known', hknown', heq⟩ := Option.map_eq_some_iff.mp hcuts
        rw [hknown']
        simp only [Option.elim_some]
        rw [heq]

/-- Only inserted cuts are known. -/
def KnowsOnly (p : CutPropagation α) (events : List PoolEvent) : Prop :=
  ∀ id known, p.known id = some known → id ∈ addedIn events

section Read

variable {lower upper : Array (Bound α)}

/-- The minimal activity of a new cut is the sum of its terms. -/
theorem minActivity_eq_ok {entries : List (ColumnId × α)} {s start : PartialSum α}
    (hlower : ∀ c b, lower[c]? = some b → b.value = β .lower c)
    (hupper : ∀ c b, upper[c]? = some b → b.value = β .upper c)
    (h : entries.foldlM (fun sum (c, a) => do
      let bound ← fetch (if 0 < a then lower else upper) c
      return PartialSum.addTerm sum a bound.value) start = .ok s) :
    s = entries.foldl (fun s e => s.addTerm e.2 (β (minSide e.2) e.1)) start := by
  induction entries generalizing start with
  | nil => exact (pure_eq_ok.mp h).symm
  | cons e rest ih =>
      simp only [List.foldlM_cons, bind_eq_ok, fetch_eq_ok, pure_eq_ok] at h
      obtain ⟨_, ⟨bound, hbound, rfl⟩, hrest⟩ := h
      have hvalue : bound.value = β (minSide e.2) e.1 := by
        unfold minSide
        split at hbound
        · next hpos =>
            rw [if_pos hpos]
            exact hlower _ _ hbound
        · next hneg =>
            rw [if_neg hneg]
            exact hupper _ _ hbound
      rw [ih hrest, hvalue, List.foldl_cons]

/-- Inserting an unknown cut with its minimal activity, and listing it under its columns. -/
theorem Coherent.insert {p : CutPropagation α} (h : p.Coherent T columnCount β) {id : CutId}
    (hunknown : p.known id = none) {cut : Inequality α} {min : PartialSum α}
    (hcut : ∀ e ∈ cut.entries, T.coefficient e.2)
    (hmin : T.tracks min (termsAt β minSide cut.entries) 0) {occurrences : Array (List (CutId × α))}
    (hoccurrences : cut.entries.foldlM (fun lists e => update lists e.1 fun found =>
      .ok (found ++ [(id, e.2)])) p.occurrences = .ok occurrences) :
    { p with cuts := p.cuts.insert id ⟨cut, min, false⟩, occurrences := occurrences }.Coherent T
      columnCount β := by
  obtain ⟨hsize, hcolumns, hlists⟩ := foldlM_update_eq_ok hoccurrences
  have hknown : ∀ id', CutPropagation.known { p with
      cuts := p.cuts.insert id ⟨cut, min, false⟩, occurrences := occurrences } id' =
        if id = id' then some (cut, min) else p.known id' := by
    intro id'
    simp only [known, Slots.get?_insert]
    split <;> rfl
  refine ⟨hsize.trans h.size, ?_, ?_, ?_⟩
  · intro id' cut' min' hknown'
    rw [hknown] at hknown'
    split at hknown'
    · cases hknown'
      exact fun e he => ⟨h.size ▸ hcolumns e he, hcut e he⟩
    · exact h.entries id' cut' min' hknown'
  · intro id' cut' min' hknown'
    rw [hknown] at hknown'
    split at hknown'
    · cases hknown'
      exact hmin
    · exact h.tracks id' cut' min' hknown'
  · intro c found' id' hfound'
    rw [hlists] at hfound'
    obtain ⟨found, hfound, rfl⟩ := Option.map_eq_some_iff.mp hfound'
    rw [foldl_listed, List.filter_append, List.map_append, h.occurrences c found id' hfound, hknown]
    split
    · next heq =>
        subst heq
        rw [hunknown]
        simp [List.filter_map, Function.comp_def]
    · next hne => simp [List.filter_map, Function.comp_def, hne]

/-- Removing a cut and its entries in the lists of its columns. -/
theorem Coherent.erase {p : CutPropagation α} (h : p.Coherent T columnCount β) {id : CutId}
    {cut : Inequality α} {min : PartialSum α} (hid : p.known id = some (cut, min))
    {occurrences : Array (List (CutId × α))}
    (hoccurrences : cut.entries.foldlM (fun lists e => update lists e.1 fun found =>
      .ok (found.filter fun o => o.1 != id)) p.occurrences = .ok occurrences) :
    { p with cuts := p.cuts.erase id, occurrences := occurrences }.Coherent T columnCount β := by
  obtain ⟨hsize, -, hlists⟩ := foldlM_update_eq_ok hoccurrences
  have hknown : ∀ id', CutPropagation.known { p with
      cuts := p.cuts.erase id, occurrences := occurrences } id' =
        if id = id' then none else p.known id' := by
    intro id'
    simp only [known, Slots.get?_erase]
    split <;> rfl
  refine ⟨hsize.trans h.size, ?_, ?_, ?_⟩
  · intro id' cut' min' hknown'
    rw [hknown] at hknown'
    split at hknown'
    · cases hknown'
    · exact h.entries id' cut' min' hknown'
  · intro id' cut' min' hknown'
    rw [hknown] at hknown'
    split at hknown'
    · cases hknown'
    · exact h.tracks id' cut' min' hknown'
  · intro c found' id' hfound'
    rw [hlists] at hfound'
    obtain ⟨found, hfound, rfl⟩ := Option.map_eq_some_iff.mp hfound'
    have hlisted := h.occurrences c found id' hfound
    rw [foldl_unlisted, hknown]
    split
    · next hempty =>
        rw [hlisted]
        split
        · next heq =>
            subst heq
            rw [hid]
            have hnone : (cut.entries.filter fun e => e.1 = c) = [] := by simpa using hempty
            simp [hnone]
        · rfl
    · rw [List.filter_filter]
      split
      · next heq =>
          subst heq
          simp only [Option.elim_none, List.map_eq_nil_iff, List.filter_eq_nil_iff]
          intro o _
          simp
      · next hne =>
          rw [← hlisted]
          congr 1
          apply List.filter_congr
          intro o _
          by_cases ho : o.1 = id'
          · simp [ho, Ne.symm hne]
          · simp [ho]

variable {pool : CutPool α} {before : List PoolEvent} {event : PoolEvent}

/-- Reading an event keeps everything coherent. -/
theorem Coherent.readEvent {p p' : CutPropagation α} (h : p.Coherent T columnCount β)
    (hβ : T.Admissible β) (hlower : ∀ c b, lower[c]? = some b → b.value = β .lower c)
    (hupper : ∀ c b, upper[c]? = some b → b.value = β .upper c)
    (hcuts : ∀ id cut, pool.get? id = some cut → ∀ e ∈ cut.entries, T.coefficient e.2)
    (hknows : p.KnowsOnly before) (hfresh : ∀ id, event = .added id → id ∉ addedIn before)
    (hread : readEvent pool lower upper p event = .ok p') :
    p'.Coherent T columnCount β ∧ p'.KnowsOnly (before ++ [event]) ∧ p'.pool = p.pool ∧
      p'.seen = p.seen := by
  have hmore : p.KnowsOnly (before ++ [event]) := fun id known hid => by
    rw [addedIn_append]
    exact List.mem_append_left _ (hknows id known hid)
  cases event with
  | added id =>
      simp only [CutPropagation.readEvent] at hread
      cases hget : pool.get? id with
      | none =>
          rw [hget] at hread
          cases hread
          exact ⟨h, hmore, rfl, rfl⟩
      | some cut =>
          simp only [hget, bind_eq_ok, pure_eq_ok] at hread
          obtain ⟨min, hmin, occurrences, hoccurrences, rfl⟩ := hread
          have hunknown : p.known id = none := by
            rw [Option.eq_none_iff_forall_ne_some]
            exact fun known hid => hfresh id rfl (hknows id known hid)
          have htracks : T.tracks min (termsAt β minSide cut.entries) 0 := by
            rw [minActivity_eq_ok hlower hupper hmin]
            have hsum := T.tracks_foldl_addTerm hβ minSide (hcuts id cut hget) T.zero
            rw [add_zero] at hsum
            exact hsum
          have hinsert := h.insert hunknown (hcuts id cut hget) htracks hoccurrences
          have hagrees := agrees_markDirty { p with
            cuts := p.cuts.insert id ⟨cut, min, false⟩, occurrences := occurrences } id
          refine ⟨hinsert.of_agrees hagrees, ?_, hagrees.pool, hagrees.seen⟩
          intro id' known' hid'
          rw [hagrees.known] at hid'
          simp only [known, Slots.get?_insert] at hid'
          split at hid'
          · next heq =>
              subst heq
              rw [addedIn_append]
              exact List.mem_append_right _ (List.mem_singleton_self _)
          · exact hmore id' known' hid'
  | removed id =>
      simp only [CutPropagation.readEvent] at hread
      cases hget : p.cuts.get? id with
      | none =>
          rw [hget] at hread
          cases hread
          exact ⟨h, hmore, rfl, rfl⟩
      | some found =>
          simp only [hget, bind_eq_ok, pure_eq_ok] at hread
          obtain ⟨occurrences, hoccurrences, rfl⟩ := hread
          have hid : p.known id = some (found.cut, found.min) := by rw [known, hget,
            Option.map_some]
          refine ⟨h.erase hid hoccurrences, ?_, rfl, rfl⟩
          intro id' known' hid'
          simp only [known, Slots.get?_erase] at hid'
          split at hid'
          · cases hid'
          · exact hmore id' known' hid'

theorem synchronise_eq_ok {p p' : CutPropagation α}
    (h : (synchronise pool lower upper).perform p = (.ok (), p')) :
    (pool.eventsSince p.seen).foldlM (fun p event => CutPropagation.readEvent pool lower upper p
      event)
      { p with seen := p.seen + (pool.eventsSince p.seen).length } = .ok p' := by
  simp only [synchronise, Action.perform_bind_eq_ok, Action.perform_get, Action.perform_modify,
    Prod.mk.injEq, Except.ok.injEq] at h
  obtain ⟨_, _, ⟨rfl, rfl⟩, _, _, ⟨-, rfl⟩, h⟩ := h
  exact Action.perform_forM_change_eq_ok.mp h

/-- What reading the news of a pool does to which cuts are known: cuts may be forgotten, and those
in the pool may become known. -/
structure Reads (pool : CutPool α) (p p' : CutPropagation α) : Prop where
  pool_eq : p'.pool = p.pool
  occurrences_size : p'.occurrences.size = p.occurrences.size
  cuts : ∀ id cut, (p'.known id).map Prod.fst = some cut →
    (p.known id).map Prod.fst = some cut ∨ pool.get? id = some cut

omit [Scalar α] in
theorem Reads.trans {p p' p'' : CutPropagation α} (h : Reads pool p p') (h' : Reads pool p' p'') :
    Reads pool p p'' := by
  refine ⟨h'.pool_eq.trans h.pool_eq, h'.occurrences_size.trans h.occurrences_size,
    fun id cut hid => ?_⟩
  rcases h'.cuts id cut hid with hid | hid
  · exact h.cuts id cut hid
  · exact .inr hid

theorem readEvent_reads {p p' : CutPropagation α}
    (h : CutPropagation.readEvent pool lower upper p event = .ok p') : Reads pool p p' := by
  cases event with
  | added id =>
      simp only [CutPropagation.readEvent] at h
      cases hget : pool.get? id with
      | none =>
          rw [hget] at h
          cases h
          exact ⟨rfl, rfl, fun _ _ h => .inl h⟩
      | some cut =>
          simp only [hget, bind_eq_ok, pure_eq_ok] at h
          obtain ⟨min, -, occurrences, hoccurrences, rfl⟩ := h
          have hagrees := agrees_markDirty { p with
            cuts := p.cuts.insert id ⟨cut, min, false⟩, occurrences := occurrences } id
          refine ⟨hagrees.pool, ?_, fun id' cut' hid' => ?_⟩
          · rw [hagrees.occurrences]
            exact (foldlM_update_eq_ok hoccurrences).1
          · rw [hagrees.known] at hid'
            simp only [known, Slots.get?_insert] at hid'
            split at hid'
            · next heq =>
                subst heq
                exact .inr (hget.trans hid')
            · exact .inl hid'
  | removed id =>
      simp only [CutPropagation.readEvent] at h
      cases hget : p.cuts.get? id with
      | none =>
          rw [hget] at h
          cases h
          exact ⟨rfl, rfl, fun _ _ h => .inl h⟩
      | some found =>
          simp only [hget, bind_eq_ok, pure_eq_ok] at h
          obtain ⟨occurrences, hoccurrences, rfl⟩ := h
          refine ⟨rfl, (foldlM_update_eq_ok hoccurrences).1, fun id' cut' hid' => .inl ?_⟩
          simp only [known, Slots.get?_erase] at hid'
          split at hid'
          · cases hid'
          · exact hid'

/-- Reading the news of a pool makes no other cuts known than those in the pool. -/
theorem synchronise_reads {p p' : CutPropagation α}
    (h : (synchronise pool lower upper).perform p = (.ok (), p')) : Reads pool p p' := by
  have hstart : Reads pool p { p with seen := p.seen + (pool.eventsSince p.seen).length } :=
    ⟨rfl, rfl, fun _ _ h => .inl h⟩
  exact foldlM_keeps (P := Reads pool p) (fun q event q' _ hq hread =>
    hq.trans (readEvent_reads hread)) (synchronise_eq_ok h) hstart

/-- Reading the news of a pool keeps everything coherent. -/
theorem Coherent.synchronise {p p' : CutPropagation α} (h : p.Coherent T columnCount β)
    (hβ : T.Admissible β) (hlower : ∀ c b, lower[c]? = some b → b.value = β .lower c)
    (hupper : ∀ c b, upper[c]? = some b → b.value = β .upper c)
    (hcuts : ∀ id cut, pool.get? id = some cut → ∀ e ∈ cut.entries, T.coefficient e.2)
    (hpool : pool.record.Faithful) (hseen : p.seen ≤ pool.events.size)
    (hknows : p.KnowsOnly (pool.events.toList.take p.seen))
    (hread : (synchronise pool lower upper).perform p = (.ok (), p')) :
    p'.Coherent T columnCount β ∧ p'.KnowsOnly pool.events.toList ∧ p'.pool = p.pool ∧
      p'.seen = pool.events.size := by
  have hloop : ∀ (rest before : List PoolEvent) (q : CutPropagation α),
      pool.events.toList = before ++ rest → q.Coherent T columnCount β → q.KnowsOnly before →
      rest.foldlM (fun p event => CutPropagation.readEvent pool lower upper p event) q = .ok p' →
      p'.Coherent T columnCount β ∧ p'.KnowsOnly pool.events.toList ∧ p'.pool = q.pool ∧
        p'.seen = q.seen := by
    intro rest
    induction rest with
    | nil =>
        intro before q hevents hq hbefore hfold
        obtain rfl := pure_eq_ok.mp hfold
        rw [hevents, List.append_nil]
        exact ⟨hq, hbefore, rfl, rfl⟩
    | cons event rest ih =>
        intro before q hevents hq hbefore hfold
        rw [List.foldlM_cons, bind_eq_ok] at hfold
        obtain ⟨next, hnext, hrest⟩ := hfold
        have hfresh : ∀ id, event = .added id → id ∉ addedIn before := by
          rintro id rfl
          exact hpool.notMem_addedIn hevents
        obtain ⟨hcoherent, hafter, hpool', hseen'⟩ :=
          hq.readEvent hβ hlower hupper hcuts hbefore hfresh hnext
        have hlast := ih (before ++ [event]) next (by rw [hevents, List.append_assoc]; rfl)
          hcoherent hafter hrest
        exact ⟨hlast.1, hlast.2.1, hlast.2.2.1.trans hpool', hlast.2.2.2.trans hseen'⟩
  have hfold := synchronise_eq_ok hread
  have hstart : ({ p with seen := p.seen + (pool.eventsSince p.seen).length } :
      CutPropagation α).Coherent T columnCount β :=
    ⟨h.size, h.entries, h.tracks, h.occurrences⟩
  have hcount : p.seen + (pool.eventsSince p.seen).length = pool.events.size := by
    rw [CutPool.eventsSince, List.length_drop, Array.length_toList]
    omega
  obtain ⟨hcoherent, hafter, hpool', hseen'⟩ := hloop (pool.eventsSince p.seen)
    (pool.events.toList.take p.seen) _ (List.take_append_drop ..).symm hstart hknows hfold
  exact ⟨hcoherent, hafter, hpool', hseen'.trans hcount⟩

end Read

end Coherent

end CutPropagation

end BranchBound
