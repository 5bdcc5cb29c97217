import BranchBound.Proofs.Pool.Record
import Mathlib.Data.List.Nodup
import Mathlib.Data.List.Perm.Subperm
import Mathlib.Logic.Function.Basic

/-!
# Pools as ledgers

A ledger is the record of a pool together with the number of entries that the pool says it has.
Every operation of a pool posts events to its ledger, one after the other: an insertion under the
next identifier, or the removal of an entry that is there. Whatever is posted, the ledger stays
balanced: every identifier is inserted once and removed at most once after that, the entries are
those which were inserted and not removed, and the count is their number.
-/

namespace BranchBound

/-- The identifiers of the removals among some events. -/
def removedIn (events : List PoolEvent) : List Nat :=
  events.filterMap fun
    | .added _ => none
    | .removed id => some id

theorem removedIn_append (events events' : List PoolEvent) :
    removedIn (events ++ events') = removedIn events ++ removedIn events' :=
  List.filterMap_append

theorem mem_removedIn {events : List PoolEvent} {id : Nat} :
    id ∈ removedIn events ↔ .removed id ∈ events := by
  rw [removedIn, List.mem_filterMap]
  constructor
  · rintro ⟨event, hevent, h⟩
    cases event with
    | added id' => cases h
    | removed id' =>
        cases h
        exact hevent
  · exact fun h => ⟨.removed id, h, rfl⟩

/-- The record of a pool with the number of its entries. -/
structure PoolLedger (β : Type) extends PoolRecord β where
  count : Nat

namespace PoolLedger

variable {β : Type}

/-- The ledger of a pool to which nothing happened yet. -/
def blank : PoolLedger β := ⟨⟨[], 0, fun _ => none⟩, 0⟩

/-- One event is posted. -/
inductive Posts (l : PoolLedger β) : PoolLedger β → Prop
  | insert (x : β) : Posts l
      ⟨⟨l.events ++ [.added l.size], l.size + 1, Function.update l.entry? l.size (some x)⟩,
        l.count + 1⟩
  | remove {id : Nat} (h : l.entry? id ≠ none) : Posts l
      ⟨⟨l.events ++ [.removed id], l.size, Function.update l.entry? id none⟩, l.count - 1⟩

/-- Events are posted one after the other. -/
abbrev Develops : PoolLedger β → PoolLedger β → Prop := Relation.ReflTransGen Posts

/-- The events account for the entries and their number. -/
structure Balanced (l : PoolLedger β) : Prop where
  added : addedIn l.events = List.range l.size
  removed : (removedIn l.events).Nodup
  later : ∀ before id after, l.events = before ++ .removed id :: after → id ∈ addedIn before
  entry? : ∀ id, l.entry? id ≠ none ↔ id < l.size ∧ id ∉ removedIn l.events
  count : l.count + (removedIn l.events).length = l.size

theorem blank_balanced : (blank : PoolLedger β).Balanced where
  added := rfl
  removed := List.nodup_nil
  later := fun before id after h => by simp [blank] at h
  entry? := fun id => by simp [blank]
  count := rfl

variable {l l' : PoolLedger β}

/-- A removal among the events and one more is an earlier one or the last event. -/
theorem eq_of_append_singleton {events before after : List PoolEvent} {event : PoolEvent} {id : Nat}
    (h : events ++ [event] = before ++ .removed id :: after) :
    (∃ rest, events = before ++ .removed id :: rest) ∨ event = .removed id ∧ events = before := by
  rcases List.eq_nil_or_concat after with rfl | ⟨rest, last, rfl⟩
  · obtain ⟨hevents, hlast⟩ := List.append_inj' h rfl
    exact .inr ⟨List.singleton_inj.mp hlast, hevents⟩
  · have hsplit : events ++ [event] = (before ++ .removed id :: rest) ++ [last] := by
      rw [h, List.concat_eq_append, List.append_assoc]
      rfl
    exact .inl ⟨rest, (List.append_inj' hsplit rfl).1⟩

/-- Removals are of identifiers that were inserted. -/
theorem Balanced.removed_lt (h : l.Balanced) {id : Nat} (hid : id ∈ removedIn l.events) :
    id < l.size := by
  obtain ⟨before, after, hevents⟩ := List.append_of_mem (mem_removedIn.mp hid)
  have hmem : id ∈ addedIn l.events := by
    rw [hevents, addedIn_append]
    exact List.mem_append_left _ (h.later before id after hevents)
  rwa [h.added, List.mem_range] at hmem

theorem Balanced.posts (h : l.Balanced) (hposts : Posts l l') : l'.Balanced := by
  cases hposts with
  | insert x =>
      have hnews : removedIn (l.events ++ [.added l.size]) = removedIn l.events := by
        rw [removedIn_append]
        exact List.append_nil _
      have hunused : l.size ∉ removedIn l.events := fun hmem => (h.removed_lt hmem).false
      refine ⟨?_, hnews ▸ h.removed, fun before id after hevents => ?_, fun id => ?_, ?_⟩
      · rw [addedIn_append, h.added, List.range_succ]
        rfl
      · rcases eq_of_append_singleton hevents with ⟨rest, hrest⟩ | ⟨heq, -⟩
        · exact h.later before id rest hrest
        · cases heq
      · dsimp only
        rw [hnews]
        by_cases heq : id = l.size
        · subst heq
          simp [hunused]
        · rw [Function.update_of_ne heq, h.entry?]
          refine and_congr_left fun _ => ?_
          omega
      · dsimp only
        rw [hnews, Nat.add_right_comm, h.count]
  | @remove id hid =>
      obtain ⟨hlt, hkept⟩ := (h.entry? id).mp hid
      have hnews : removedIn (l.events ++ [.removed id]) = removedIn l.events ++ [id] :=
        removedIn_append ..
      have hnodup : (id :: removedIn l.events).Nodup := List.nodup_cons.mpr ⟨hkept, h.removed⟩
      have hbound : (id :: removedIn l.events).length ≤ (List.range l.size).length := by
        refine (List.subperm_of_subset hnodup fun other hother => List.mem_range.mpr ?_).length_le
        rcases List.mem_cons.mp hother with rfl | hother
        · exact hlt
        · exact h.removed_lt hother
      refine ⟨?_, ?_, fun before other after hevents => ?_, fun other => ?_, ?_⟩
      · rw [addedIn_append, h.added]
        exact List.append_nil _
      · rw [hnews, List.nodup_append_comm]
        exact hnodup
      · rcases eq_of_append_singleton hevents with ⟨rest, hrest⟩ | ⟨heq, hbefore⟩
        · exact h.later before other rest hrest
        · cases heq
          rw [← hbefore, h.added]
          exact List.mem_range.mpr hlt
      · dsimp only
        rw [hnews]
        by_cases heq : other = id
        · simp [heq]
        · rw [Function.update_of_ne heq, h.entry?]
          simp [heq]
      · dsimp only
        rw [hnews]
        have hcount := h.count
        simp only [List.length_cons, List.length_range] at hbound
        rw [List.length_append, List.length_singleton]
        omega

theorem Balanced.develops (h : l.Balanced) (hdevelops : Develops l l') : l'.Balanced := by
  induction hdevelops with
  | refl => exact h
  | tail _ hposts ih => exact ih.posts hposts

/-- The identifiers which have an entry. -/
def live (l : PoolLedger β) : List Nat := (List.range l.size).filter fun id => (l.entry? id).isSome

/-- The count is the number of entries. -/
theorem Balanced.length_live (h : l.Balanced) : l.live.length = l.count := by
  have hlive : l.live = (List.range l.size).filter fun id => !decide (id ∈ removedIn l.events) := by
    refine List.filter_congr fun id hid => ?_
    have hentry := h.entry? id
    rw [Option.ne_none_iff_isSome] at hentry
    rw [Bool.eq_iff_iff, hentry]
    simp [List.mem_range.mp hid]
  have hgone : ((List.range l.size).filter fun id => decide (id ∈ removedIn l.events)).length =
      (removedIn l.events).length := by
    refine List.Perm.length_eq ?_
    refine (List.perm_ext_iff_of_nodup (List.nodup_range.filter _) h.removed).mpr fun id => ?_
    rw [List.mem_filter, List.mem_range, decide_eq_true_eq]
    exact and_iff_right_of_imp h.removed_lt
  have hsplit := List.length_eq_length_filter_add (l := List.range l.size)
    fun id => decide (id ∈ removedIn l.events)
  rw [List.length_range, hgone, ← hlive] at hsplit
  have hcount := h.count
  omega

/-- The identifier of the next insertion was never used. -/
theorem Balanced.size_unused (h : l.Balanced) :
    .added l.size ∉ l.events ∧ .removed l.size ∉ l.events := by
  refine ⟨fun hmem => ?_, fun hmem => (h.removed_lt (mem_removedIn.mpr hmem)).false⟩
  have hlt := mem_addedIn.mpr hmem
  rw [h.added, List.mem_range] at hlt
  exact hlt.false

/-- Events are only added, and what was removed does not come back. -/
theorem Develops.keeps (h : l.Develops l') : l.events <+: l'.events ∧ l.size ≤ l'.size ∧
    ∀ id < l.size, l.entry? id = none → l'.entry? id = none := by
  induction h with
  | refl => exact ⟨List.prefix_rfl, Nat.le_refl _, fun _ _ hnone => hnone⟩
  | tail _ hposts ih =>
      obtain ⟨hevents, hsize, hnone⟩ := ih
      cases hposts with
      | insert x =>
          refine ⟨hevents.trans (List.prefix_append ..), Nat.le_succ_of_le hsize,
            fun id hid h => ?_⟩
          exact (Function.update_of_ne (hid.trans_le hsize).ne ..).trans (hnone id hid h)
      | @remove gone _ =>
          refine ⟨hevents.trans (List.prefix_append ..), hsize, fun id hid h => ?_⟩
          by_cases heq : id = gone
          · rw [heq]
            exact Function.update_self ..
          · exact (Function.update_of_ne heq ..).trans (hnone id hid h)

end PoolLedger

open PoolLedger

/-- The entries found under some identifiers, as they are listed with them. -/
theorem map_fst_filterMap {β : Type} (ids : List Nat) (lookup : Nat → Option β) :
    (ids.filterMap fun id => (lookup id).map fun x => (id, x)).map Prod.fst =
      ids.filter fun id => (lookup id).isSome := by
  induction ids with
  | nil => rfl
  | cons id rest ih => cases hentry : lookup id <;> simp [hentry, ih]

variable {α : Type}

namespace CutPool

def ledger (p : CutPool α) : PoolLedger (Inequality α) := ⟨p.record, p.size⟩

theorem remove_develops (p : CutPool α) (id : CutId) : Develops p.ledger (p.remove id).ledger := by
  unfold remove
  split
  · exact .refl
  · next cut hcut =>
      have hentry : p.ledger.entry? id ≠ none := by
        change p.get? id ≠ none
        rw [get?, hcut, Option.map_some]
        exact Option.some_ne_none _
      refine Eq.subst (motive := Develops p.ledger) ?_
        (.single (.remove hentry))
      unfold ledger record
      congr 2
      · exact (Array.toList_push ..).symm
      · exact (Array.size_setIfInBounds ..).symm
      · funext other
        change _ = ((p.cuts.entries.setIfInBounds id none)[other]?.join).map PooledCut.cut
        rw [Array.getElem?_setIfInBounds, Function.update_apply]
        by_cases heq : other = id
        · subst heq
          simp only [if_true]
          split <;> rfl
        · rw [if_neg heq, if_neg (Ne.symm heq)]
          rfl

theorem foldl_remove_develops (p : CutPool α) (ids : List CutId) :
    Develops p.ledger (ids.foldl remove p).ledger := by
  induction ids generalizing p with
  | nil => exact .refl
  | cons id rest ih => exact (remove_develops p id).trans (ih _)

theorem age_develops (p : CutPool α) (used : List CutId) :
    Develops p.ledger (p.age used).2.ledger := by
  have hrecord := older_record p used p.toList fun item h => get?_of_mem_toList h
  have hsize : ∀ (items : List (CutId × PooledCut α)) (q : CutPool α),
      (items.foldl (fun pool (item : CutId × PooledCut α) =>
        { pool with cuts := pool.cuts.setIfPresent item.1 (some (aged used item.1 item.2)) })
          q).size = q.size := by
    intro items
    induction items with
    | nil => exact fun q => rfl
    | cons item rest ih => exact fun q => ih _
  unfold age
  refine Eq.subst (motive := fun l => Develops l _) ?_ (foldl_remove_develops _ _)
  rw [ledger, hrecord, hsize]
  rfl

variable [Scalar α]

theorem insertWithAgeLimit_develops (p : CutPool α) (cut : Inequality α) (ageLimit : Nat) :
    Develops p.ledger (p.insertWithAgeLimit cut ageLimit).2.ledger := by
  unfold insertWithAgeLimit
  dsimp only
  split
  · exact .refl
  · split
    · exact .refl
    · refine Eq.subst (motive := Develops p.ledger) ?_ (.single (.insert cut.normalized))
      unfold ledger record
      congr 2
      · exact (Array.toList_push ..).symm
      · exact (Array.size_push ..).symm
      · funext id
        change _ = (((p.cuts.entries.push _)[id]?).join).map PooledCut.cut
        rw [Array.getElem?_push, Function.update_apply]
        by_cases heq : id = p.cuts.entries.size
        · rw [if_pos heq, if_pos heq]
          rfl
        · rw [if_neg heq, if_neg heq]
          rfl

/-- A cut that is inserted gets the next identifier. -/
theorem insertWithAgeLimit_fst {p : CutPool α} {cut : Inequality α} {ageLimit : Nat} {id : CutId}
    (h : (p.insertWithAgeLimit cut ageLimit).1 = some id) : id = p.ledger.size := by
  unfold insertWithAgeLimit at h
  dsimp only at h
  split at h
  · cases h
  · split at h
    · cases h
    · exact (Option.some.inj h).symm

omit [Scalar α] in
/-- The cuts in the pool are listed under the identifiers that have an entry. -/
theorem map_fst_toList (p : CutPool α) : p.toList.map Prod.fst = p.ledger.live := by
  have hkeys : p.cuts.keys = List.range p.cuts.entries.size := List.map_id _
  rw [toList, hkeys, map_fst_filterMap]
  refine List.filter_congr fun id _ => ?_
  exact (Option.isSome_map ..).symm

end CutPool

namespace ConflictPool

def ledger (p : ConflictPool α) : PoolLedger (List (BoundChange α)) := ⟨p.record, p.size⟩

theorem remove_develops (p : ConflictPool α) (id : ConflictId) :
    Develops p.ledger (p.remove id).ledger := by
  unfold remove
  split
  · exact .refl
  · next conflict hconflict =>
      have hentry : p.ledger.entry? id ≠ none := by
        change p.get? id ≠ none
        rw [get?, hconflict, Option.map_some]
        exact Option.some_ne_none _
      refine Eq.subst (motive := Develops p.ledger) ?_
        (.single (.remove hentry))
      unfold ledger record
      congr 2
      · exact (Array.toList_push ..).symm
      · exact (Array.size_setIfInBounds ..).symm
      · funext other
        change _ = ((p.conflicts.entries.setIfInBounds id none)[other]?.join).map
          PooledConflict.literals
        rw [Array.getElem?_setIfInBounds, Function.update_apply]
        by_cases heq : other = id
        · subst heq
          simp only [if_true]
          split <;> rfl
        · rw [if_neg heq, if_neg (Ne.symm heq)]
          rfl

theorem foldl_remove_develops (p : ConflictPool α) (ids : List ConflictId) :
    Develops p.ledger (ids.foldl remove p).ledger := by
  induction ids generalizing p with
  | nil => exact .refl
  | cons id rest ih => exact (remove_develops p id).trans (ih _)

/-- A conflict that is young again leaves the ledger as it is. -/
theorem resetAge_ledger (p : ConflictPool α) (id : ConflictId) :
    (p.resetAge id).ledger = p.ledger := by
  rw [ledger, resetAge_record]
  rfl

theorem age_develops (p : ConflictPool α) : Develops p.ledger p.age.2.ledger := by
  unfold age
  refine Eq.subst (motive := fun l => Develops l _) ?_ (foldl_remove_develops _ _)
  rw [ledger, older_record]
  rfl

variable [Scalar α]

theorem add_develops (p : ConflictPool α) (literals : List (BoundChange α)) :
    Develops p.ledger (p.add literals).2.ledger := by
  unfold add
  split
  · exact .refl
  · refine Eq.subst (motive := Develops p.ledger) ?_ (.single (.insert (storedForm literals)))
    unfold ledger record
    congr 2
    · exact (Array.toList_push ..).symm
    · exact (Array.size_push ..).symm
    · funext id
      change _ = (((p.conflicts.entries.push _)[id]?).join).map PooledConflict.literals
      rw [Array.getElem?_push, Function.update_apply]
      by_cases heq : id = p.conflicts.entries.size
      · rw [if_pos heq, if_pos heq]
        rfl
      · rw [if_neg heq, if_neg heq]
        rfl

/-- A conflict that is added gets the next identifier. -/
theorem add_fst {p : ConflictPool α} {literals : List (BoundChange α)} {id : ConflictId}
    (h : (p.add literals).1 = some id) : id = p.ledger.size := by
  unfold add at h
  split at h
  · cases h
  · exact (Option.some.inj h).symm

omit [Scalar α] in
/-- The conflicts in the pool are listed under the identifiers that have an entry. -/
theorem map_fst_toList (p : ConflictPool α) : p.toList.map Prod.fst = p.ledger.live := by
  have hkeys : p.conflicts.keys = List.range p.conflicts.entries.size := List.map_id _
  rw [toList, hkeys, map_fst_filterMap]
  refine List.filter_congr fun id _ => ?_
  exact (Option.isSome_map ..).symm

end ConflictPool

end BranchBound
