import BranchBound.Domain.ConflictPropagation
import BranchBound.Proofs.Checked

/-!
# What a domain knows of conflicts

A domain keeps copies of the conflicts of a pool, together with queues and flags that say which of
them wait. `ConflictPropagation.known` is the part that matters for what is derived from them.
-/

namespace BranchBound

variable {α : Type}

/-- The conflict that a domain knows under an identifier. -/
def ConflictPropagation.known (p : ConflictPropagation α) (id : ConflictId) :
    Option (List (BoundChange α)) :=
  (p.conflicts.get? id).map PropagatedConflict.literals

/-- Two states know the same of a conflict pool; they may differ in which conflicts wait. -/
structure ConflictPropagation.Agrees (p p' : ConflictPropagation α) : Prop where
  pool : p'.pool = p.pool
  seen : p'.seen = p.seen
  known : p'.known = p.known
  occurrences : p'.occurrences = p.occurrences

namespace ConflictPropagation

theorem Agrees.refl (p : ConflictPropagation α) : Agrees p p := ⟨rfl, rfl, rfl, rfl⟩

theorem Agrees.trans {p p' p'' : ConflictPropagation α} (h : Agrees p p') (h' : Agrees p' p'') :
    Agrees p p'' :=
  ⟨h'.pool.trans h.pool, h'.seen.trans h.seen, h'.known.trans h.known,
    h'.occurrences.trans h.occurrences⟩

theorem agrees_insert (p : ConflictPropagation α) {id : ConflictId}
    {conflict : PropagatedConflict α} (h : p.conflicts.get? id = some conflict) (dirty : Bool)
    (waiting : List ConflictId) :
    Agrees p { p with
      conflicts := p.conflicts.insert id { conflict with dirty := dirty }, waiting :=
        waiting } := by
  refine ⟨rfl, rfl, funext fun key => ?_, rfl⟩
  simp only [known, Slots.get?_insert]
  split
  · next heq =>
      subst heq
      rw [h]
      rfl
  · rfl

theorem agrees_markDirty (p : ConflictPropagation α) (id : ConflictId) :
    Agrees p (p.markDirty id) := by
  unfold markDirty
  split
  · next conflict hconflict =>
      split
      · exact .refl p
      · exact agrees_insert p hconflict true _
  · exact .refl p

theorem agrees_foldl_markDirty (p : ConflictPropagation α) (ids : List ConflictId) :
    Agrees p (ids.foldl markDirty p) := by
  induction ids generalizing p with
  | nil => exact .refl p
  | cons id rest ih => exact (agrees_markDirty p id).trans (ih _)

open Checked in
/-- When a bound becomes tighter, the conflicts over its column wait. -/
theorem boundTightened_returns {p : ConflictPropagation α} {c : ColumnId}
    (hc : c < p.occurrences.size) :
    Returns (p.boundTightened c) (Agrees p) := by
  unfold boundTightened
  exact (fetch_returns hc).bind fun found _ _ => .pure (agrees_foldl_markDirty p found)

section Read

open Checked

variable {pool : ConflictPool α} {p p' : ConflictPropagation α}

/-- What reading the news of a pool does to what is known of it: conflicts may be forgotten, and
those in the pool may become known. -/
structure Reads (pool : ConflictPool α) (p p' : ConflictPropagation α) : Prop where
  pool_eq : p'.pool = p.pool
  occurrences_size : p'.occurrences.size = p.occurrences.size
  known : ∀ id literals, p'.known id = some literals →
    p.known id = some literals ∨ pool.get? id = some literals

theorem Reads.refl (pool : ConflictPool α) (p : ConflictPropagation α) : Reads pool p p :=
  ⟨rfl, rfl, fun _ _ h => .inl h⟩

theorem Reads.trans {p'' : ConflictPropagation α} (h : Reads pool p p') (h' : Reads pool p' p'') :
    Reads pool p p'' := by
  refine ⟨h'.pool_eq.trans h.pool_eq, h'.occurrences_size.trans h.occurrences_size,
    fun id literals hid => ?_⟩
  rcases h'.known id literals hid with hid | hid
  · exact h.known id literals hid
  · exact .inr hid

theorem readEvent_reads {event : PoolEvent} (h : readEvent pool p event = .ok p') :
    Reads pool p p' := by
  cases event with
  | added id =>
      simp only [readEvent] at h
      cases hget : pool.get? id with
      | none =>
          rw [hget] at h
          cases h
          exact .refl pool p
      | some literals =>
          simp only [hget, bind_eq_ok, pure_eq_ok] at h
          obtain ⟨occurrences, hoccurrences, rfl⟩ := h
          have hagrees := agrees_markDirty { p with
            conflicts := p.conflicts.insert id ⟨literals, false⟩, occurrences := occurrences } id
          refine ⟨hagrees.pool, ?_, fun id' literals' hid' => ?_⟩
          · rw [hagrees.occurrences]
            exact (foldlM_update_eq_ok hoccurrences).1
          · rw [hagrees.known] at hid'
            simp only [known, Slots.get?_insert] at hid'
            split at hid'
            · next heq =>
                subst heq
                exact .inr (hget.trans hid')
            · exact .inl hid'
  | removed id =>
      simp only [readEvent] at h
      cases hget : p.conflicts.get? id with
      | none =>
          rw [hget] at h
          cases h
          exact .refl pool p
      | some found =>
          simp only [hget, bind_eq_ok, pure_eq_ok] at h
          obtain ⟨occurrences, hoccurrences, rfl⟩ := h
          refine ⟨rfl, (foldlM_update_eq_ok hoccurrences).1, fun id' literals' hid' => .inl ?_⟩
          simp only [known, Slots.get?_erase] at hid'
          split at hid'
          · cases hid'
          · exact hid'

theorem synchronise_reads (h : (synchronise pool).perform p = (.ok (), p')) : Reads pool p p' := by
  simp only [synchronise, Action.perform_bind_eq_ok, Action.perform_get, Action.perform_modify,
    Prod.mk.injEq, Except.ok.injEq] at h
  obtain ⟨_, _, ⟨rfl, rfl⟩, _, _, ⟨-, rfl⟩, h⟩ := h
  have hloop := Action.perform_forM_change_eq_ok.mp h
  have hstart : Reads pool p { p with seen := p.seen + (pool.eventsSince p.seen).length } :=
    ⟨rfl, rfl, fun _ _ h => .inl h⟩
  exact foldlM_keeps (P := Reads pool p) (fun q event q' _ hq hread =>
    hq.trans (readEvent_reads hread)) hloop hstart

end Read

end ConflictPropagation

end BranchBound
