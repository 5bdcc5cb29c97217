import BranchBound.Pool.Shared
import Mathlib.Data.List.Range
import Mathlib.Logic.Relation

/-!
# Pools as records

Cut pools and conflict pools tell the same story: entries get the identifiers `0, 1, 2, …`, never
change, and may be removed, and every insertion and removal is an event. `PoolRecord` keeps just
that of a pool, and every operation of a pool is a sequence of `PoolRecord.Step`s. From them it
follows that the insertions among the events name every identifier exactly once, which is what the
domains that read the events rely on.
-/

namespace BranchBound

/-- The identifiers of the insertions among some events. -/
def addedIn (events : List PoolEvent) : List Nat :=
  events.filterMap fun
    | .added id => some id
    | .removed _ => none

@[simp] theorem addedIn_nil : addedIn [] = [] := rfl

theorem addedIn_append (events events' : List PoolEvent) :
    addedIn (events ++ events') = addedIn events ++ addedIn events' :=
  List.filterMap_append

theorem mem_addedIn {events : List PoolEvent} {id : Nat} :
    id ∈ addedIn events ↔ .added id ∈ events := by
  rw [addedIn, List.mem_filterMap]
  constructor
  · rintro ⟨event, hevent, h⟩
    cases event with
    | added id' =>
        cases h
        exact hevent
    | removed id' => cases h
  · exact fun h => ⟨.added id, h, rfl⟩

/-- What the domains that follow a pool can see of it. -/
structure PoolRecord (β : Type) where
  events : List PoolEvent
  /-- The number of entries ever inserted. -/
  size : Nat
  entry? : Nat → Option β

namespace PoolRecord

variable {β : Type}

/-- Entries are removed, or nothing that can be seen happens. -/
structure Keeps (r r' : PoolRecord β) : Prop where
  events : ∃ news, addedIn news = [] ∧ r'.events = r.events ++ news
  size : r'.size = r.size
  entry? : ∀ id x, r'.entry? id = some x → r.entry? id = some x

theorem Keeps.refl (r : PoolRecord β) : Keeps r r :=
  ⟨⟨[], rfl, (List.append_nil _).symm⟩, rfl, fun _ _ h => h⟩

theorem Keeps.trans {r r' r'' : PoolRecord β} (h : Keeps r r') (h' : Keeps r' r'') :
    Keeps r r'' := by
  obtain ⟨news, hnews, hevents⟩ := h.events
  obtain ⟨news', hnews', hevents'⟩ := h'.events
  refine ⟨⟨news ++ news', ?_, ?_⟩, h'.size.trans h.size, fun id x hx => ?_⟩
  · rw [addedIn_append, hnews, hnews', List.append_nil]
  · rw [hevents', hevents, List.append_assoc]
  · exact h.entry? id x (h'.entry? id x hx)

/-- One step of a pool: entries are removed, or a new one is inserted under the next
identifier. -/
inductive Step (new : β → Prop) : PoolRecord β → PoolRecord β → Prop
  | keep {r r' : PoolRecord β} (h : Keeps r r') : Step new r r'
  | insert {r r' : PoolRecord β} (entry : β) (hnew : new entry)
      (hevents : r'.events = r.events ++ [.added r.size]) (hsize : r'.size = r.size + 1)
      (hentry : ∀ id, r'.entry? id = if id = r.size then some entry else r.entry? id) :
      Step new r r'

/-- The insertions among the events name every identifier once, in order. -/
structure Faithful (r : PoolRecord β) : Prop where
  added : addedIn r.events = List.range r.size
  entry_lt : ∀ id x, r.entry? id = some x → id < r.size

variable {new : β → Prop} {r r' : PoolRecord β}

theorem Faithful.step (h : r.Faithful) (hstep : Step new r r') : r'.Faithful := by
  cases hstep with
  | keep hkeeps =>
      obtain ⟨news, hnews, hevents⟩ := hkeeps.events
      refine ⟨?_, fun id x hx => ?_⟩
      · rw [hevents, addedIn_append, hnews, List.append_nil, hkeeps.size]
        exact h.added
      · rw [hkeeps.size]
        exact h.entry_lt id x (hkeeps.entry? id x hx)
  | insert entry hnew hevents hsize hentry =>
      refine ⟨?_, fun id x hx => ?_⟩
      · rw [hevents, addedIn_append, h.added, hsize, List.range_succ]
        rfl
      · rw [hsize]
        rw [hentry] at hx
        split at hx
        · next heq => omega
        · exact Nat.lt_succ_of_lt (h.entry_lt id x hx)

/-- Events are only ever appended. -/
theorem Step.events (h : Step new r r') : r.events <+: r'.events := by
  cases h with
  | keep hkeeps =>
      obtain ⟨news, -, hevents⟩ := hkeeps.events
      exact ⟨news, hevents.symm⟩
  | insert entry hnew hevents hsize hentry => exact ⟨_, hevents.symm⟩

/-- An entry was there before or is new. -/
theorem Step.entry? (h : Step new r r') {id : Nat} {x : β} (hx : r'.entry? id = some x) :
    r.entry? id = some x ∨ new x := by
  cases h with
  | keep hkeeps => exact .inl (hkeeps.entry? id x hx)
  | insert entry hnew hevents hsize hentry =>
      rw [hentry] at hx
      split at hx
      · exact .inr (Option.some.inj hx ▸ hnew)
      · exact .inl hx

/-- An identifier is inserted by at most one event. -/
theorem Faithful.notMem_addedIn (h : r.Faithful) {before after : List PoolEvent}
    {id : Nat} (hevents : r.events = before ++ .added id :: after) :
    id ∉ addedIn before := by
  have hnodup : (addedIn r.events).Nodup := by
    rw [h.added]
    exact List.nodup_range
  rw [hevents, addedIn_append, List.nodup_append] at hnodup
  intro hid
  exact hnodup.2.2 id hid id (mem_addedIn.mpr (List.mem_cons_self ..)) rfl

end PoolRecord

variable {α : Type}

namespace CutPool

/-- What can be seen of a cut pool. -/
def record (p : CutPool α) : PoolRecord (Inequality α) :=
  ⟨p.events.toList, p.cuts.entries.size, p.get?⟩

theorem record_empty (ageLimit : Nat) :
    (empty ageLimit : CutPool α).record.Faithful :=
  ⟨rfl, fun id x hx => by simp [record, empty, get?, pooled?, Table.get?, Table.empty] at hx⟩

theorem get?_eq {p : CutPool α} (id : CutId) :
    p.get? id = (p.cuts.entries[id]?.join).map PooledCut.cut := rfl

theorem remove_keeps (p : CutPool α) (id : CutId) :
    PoolRecord.Keeps p.record (p.remove id).record := by
  unfold remove
  split
  · exact .refl _
  · refine ⟨⟨[.removed id], rfl, Array.toList_push ..⟩, Array.size_setIfInBounds .., ?_⟩
    intro id' cut hcut
    change ((p.cuts.entries.setIfInBounds id none)[id']?.join).map PooledCut.cut = some cut at hcut
    rw [Array.getElem?_setIfInBounds] at hcut
    split at hcut
    · split at hcut
      · cases hcut
      · cases hcut
    · exact hcut

theorem foldl_remove_keeps (p : CutPool α) (ids : List CutId) :
    PoolRecord.Keeps p.record (ids.foldl remove p).record := by
  induction ids generalizing p with
  | nil => exact .refl _
  | cons id rest ih => exact (remove_keeps p id).trans (ih _)

theorem aged_cut (used : List CutId) (id : CutId) (cut : PooledCut α) :
    (aged used id cut).cut = cut.cut := by
  unfold aged
  split <;> rfl

/-- Counting another round changes the ages of cuts and nothing that can be seen. -/
theorem older_record (p : CutPool α) (used : List CutId) (items : List (CutId × PooledCut α))
    (hitems : ∀ item ∈ items, p.get? item.1 = some item.2.cut) :
    (items.foldl (fun pool (item : CutId × PooledCut α) =>
      { pool with cuts := pool.cuts.setIfPresent item.1 (some (aged used item.1 item.2)) })
        p).record = p.record := by
  induction items generalizing p with
  | nil => rfl
  | cons item rest ih =>
      let cuts := p.cuts.setIfPresent item.1 (some (aged used item.1 item.2))
      have hget : ∀ id, { p with cuts := cuts }.get? id = p.get? id := by
        intro id
        change (((p.cuts.entries.setIfInBounds item.1
          (some (aged used item.1 item.2)))[id]?).join).map PooledCut.cut = p.get? id
        rw [Array.getElem?_setIfInBounds]
        split
        · next heq =>
            have hitem := hitems item (List.mem_cons_self ..)
            subst heq
            split
            · rw [hitem, Option.join_some, Option.map_some, aged_cut]
            · next hge =>
                rw [get?_eq, Array.getElem?_eq_none (Nat.le_of_not_lt hge)] at hitem
                cases hitem
        · rfl
      have hrecord : { p with cuts := cuts }.record = p.record := by
        have hsize : cuts.entries.size = p.cuts.entries.size := Array.size_setIfInBounds ..
        change PoolRecord.mk p.events.toList cuts.entries.size { p with cuts := cuts }.get? = _
        rw [hsize, funext hget]
        rfl
      rw [List.foldl_cons, ih]
      · exact hrecord
      · intro other hother
        rw [hget]
        exact hitems other (List.mem_cons_of_mem _ hother)

theorem get?_of_mem_toList {p : CutPool α} {item : CutId × PooledCut α} (h : item ∈ p.toList) :
    p.get? item.1 = some item.2.cut := by
  obtain ⟨id, -, hid⟩ := List.mem_filterMap.mp h
  obtain ⟨cut, hcut, rfl⟩ := Option.map_eq_some_iff.mp hid
  rw [get?, hcut, Option.map_some]

/-- A cut in the pool is listed. -/
theorem mem_toList_of_get? {p : CutPool α} {id : CutId} {cut : Inequality α}
    (h : p.get? id = some cut) : ∃ pooled, (id, pooled) ∈ p.toList ∧ pooled.cut = cut := by
  obtain ⟨pooled, hpooled, hcut⟩ := Option.map_eq_some_iff.mp h
  have hlt : id < p.cuts.entries.size := by
    by_contra hge
    rw [get?_eq, Array.getElem?_eq_none (Nat.le_of_not_lt hge)] at h
    cases h
  have hkey : id ∈ p.cuts.keys := List.mem_map.mpr ⟨id, List.mem_range.mpr hlt, rfl⟩
  refine ⟨pooled, List.mem_filterMap.mpr ⟨id, hkey, ?_⟩, hcut⟩
  rw [hpooled, Option.map_some]

theorem age_keeps (p : CutPool α) (used : List CutId) :
    PoolRecord.Keeps p.record (p.age used).2.record := by
  have holder := older_record p used p.toList fun item h => get?_of_mem_toList h
  unfold age
  refine PoolRecord.Keeps.trans ?_ (foldl_remove_keeps _ _)
  rw [holder]
  exact .refl _

theorem push_step (p : CutPool α) (cut : Inequality α) (ageLimit : Nat) :
    PoolRecord.Step (· = cut) p.record
      { p with
        cuts := ⟨p.cuts.entries.push (some ⟨cut, 0, ageLimit⟩)⟩
        events := p.events.push (.added p.cuts.entries.size)
        size := p.size + 1 : CutPool α }.record := by
  refine .insert cut rfl (Array.toList_push ..) (Array.size_push ..) fun id => ?_
  change (((p.cuts.entries.push (some ⟨cut, 0, ageLimit⟩))[id]?).join).map PooledCut.cut = _
  rw [Array.getElem?_push]
  split
  · next heq => exact (if_pos heq).symm
  · next hne => exact (if_neg hne).symm

/-- What an insertion does: a cut without coefficients and a copy of a pooled cut leave the pool
alone, every other cut comes in normal form under the next identifier. -/
theorem insertWithAgeLimit_cases [Scalar α] (p : CutPool α) (cut : Inequality α) (ageLimit : Nat) :
    (cut.normalized.entries = [] ∧ p.insertWithAgeLimit cut ageLimit = (none, p)) ∨
      ((∃ id other, p.get? id = some other ∧ other.sameAs cut.normalized = true) ∧
        p.insertWithAgeLimit cut ageLimit = (none, p)) ∨
      (p.insertWithAgeLimit cut ageLimit).1 = some p.cuts.entries.size ∧
      (∀ id other, p.get? id = some other → other.sameAs cut.normalized = false) ∧
      (p.insertWithAgeLimit cut ageLimit).2.cuts.entries.size = p.cuts.entries.size + 1 ∧
      ∀ id, (p.insertWithAgeLimit cut ageLimit).2.get? id =
        if id = p.cuts.entries.size then some cut.normalized else p.get? id := by
  unfold insertWithAgeLimit
  dsimp only
  split
  · next hempty => exact .inl ⟨List.isEmpty_iff.mp hempty, rfl⟩
  · split
    · next hcopy =>
        obtain ⟨item, hitem, hsame⟩ := List.any_eq_true.mp hcopy
        exact .inr (.inl ⟨⟨item.1, _, get?_of_mem_toList hitem, hsame⟩, rfl⟩)
    · next hnew =>
        refine .inr (.inr ⟨rfl, fun id other hother => ?_, Array.size_push .., fun id => ?_⟩)
        · obtain ⟨pooled, hmem, rfl⟩ := mem_toList_of_get? hother
          exact Bool.eq_false_iff.mpr fun hsame => hnew (List.any_eq_true.mpr ⟨_, hmem, hsame⟩)
        · change (((p.cuts.entries.push _)[id]?).join).map PooledCut.cut = _
          rw [Array.getElem?_push]
          split <;> rfl

/-- Inserting a cut is a step in which its normal form is new. -/
theorem insertWithAgeLimit_step [Scalar α] (p : CutPool α) (cut : Inequality α) (ageLimit : Nat) :
    PoolRecord.Step (· = cut.normalized) p.record (p.insertWithAgeLimit cut ageLimit).2.record := by
  unfold insertWithAgeLimit
  dsimp only
  split
  · exact .keep (.refl _)
  · split
    · exact .keep (.refl _)
    · exact push_step p cut.normalized ageLimit

end CutPool

namespace ConflictPool

/-- What can be seen of a conflict pool. -/
def record (p : ConflictPool α) : PoolRecord (List (BoundChange α)) :=
  ⟨p.events.toList, p.conflicts.entries.size, p.get?⟩

theorem record_empty (ageLimit softLimit : Nat) :
    (empty ageLimit softLimit : ConflictPool α).record.Faithful :=
  ⟨rfl, fun id x hx => by simp [record, empty, get?, pooled?, Table.get?, Table.empty] at hx⟩

theorem remove_keeps (p : ConflictPool α) (id : ConflictId) :
    PoolRecord.Keeps p.record (p.remove id).record := by
  unfold remove
  split
  · exact .refl _
  · refine ⟨⟨[.removed id], rfl, Array.toList_push ..⟩, Array.size_setIfInBounds .., ?_⟩
    intro id' literals hliterals
    change ((p.conflicts.entries.setIfInBounds id none)[id']?.join).map
      PooledConflict.literals = some literals at hliterals
    rw [Array.getElem?_setIfInBounds] at hliterals
    split at hliterals
    · split at hliterals
      · cases hliterals
      · cases hliterals
    · exact hliterals

theorem foldl_remove_keeps (p : ConflictPool α) (ids : List ConflictId) :
    PoolRecord.Keeps p.record (ids.foldl remove p).record := by
  induction ids generalizing p with
  | nil => exact .refl _
  | cons id rest ih => exact (remove_keeps p id).trans (ih _)

theorem resetAge_record (p : ConflictPool α) (id : ConflictId) :
    (p.resetAge id).record = p.record := by
  have hget : ∀ id', (p.resetAge id).get? id' = p.get? id' := by
    intro id'
    change (((p.conflicts.entries.modify id _)[id']?).join).map PooledConflict.literals =
      (p.conflicts.entries[id']?.join).map PooledConflict.literals
    rw [Array.getElem?_modify]
    split
    · cases p.conflicts.entries[id']? with
      | none => rfl
      | some slot => cases slot <;> rfl
    · rfl
  have hsize : (p.resetAge id).conflicts.entries.size = p.conflicts.entries.size :=
    Array.size_modify ..
  simp only [record, hsize, funext hget]
  rfl

theorem older_record (p : ConflictPool α) : p.older.record = p.record := by
  have hget : ∀ id, p.older.get? id = p.get? id := by
    intro id
    change (((p.conflicts.entries.map _)[id]?).join).map PooledConflict.literals =
      (p.conflicts.entries[id]?.join).map PooledConflict.literals
    rw [Array.getElem?_map]
    cases p.conflicts.entries[id]? with
    | none => rfl
    | some slot => cases slot <;> rfl
  have hsize : p.older.conflicts.entries.size = p.conflicts.entries.size := Array.size_map ..
  simp only [record, hsize, funext hget]
  rfl

theorem age_keeps (p : ConflictPool α) : PoolRecord.Keeps p.record p.age.2.record := by
  unfold age
  refine PoolRecord.Keeps.trans ?_ (foldl_remove_keeps _ _)
  rw [older_record]
  exact .refl _

theorem push_step (p : ConflictPool α) (literals : List (BoundChange α)) :
    PoolRecord.Step (· = literals) p.record
      { p with
        conflicts := ⟨p.conflicts.entries.push (some ⟨literals, 0⟩)⟩
        events := p.events.push (.added p.conflicts.entries.size)
        size := p.size + 1 : ConflictPool α }.record := by
  refine .insert literals rfl (Array.toList_push ..) (Array.size_push ..) fun id => ?_
  change (((p.conflicts.entries.push (some ⟨literals, 0⟩))[id]?).join).map
    PooledConflict.literals = _
  rw [Array.getElem?_push]
  split
  · next heq => exact (if_pos heq).symm
  · next hne => exact (if_neg hne).symm

/-- Adding a conflict is a step in which its stored form is new. -/
theorem add_step [Scalar α] (p : ConflictPool α) (literals : List (BoundChange α)) :
    PoolRecord.Step (· = storedForm literals) p.record (p.add literals).2.record := by
  unfold add
  split
  · exact .keep (.refl _)
  · exact push_step p (storedForm literals)

end ConflictPool

end BranchBound
