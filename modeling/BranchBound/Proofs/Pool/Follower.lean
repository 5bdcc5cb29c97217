import BranchBound.Proofs.Pool.Ledger
import Mathlib.Data.List.Flatten

/-!
# Followers of a pool

A domain follows a pool by reading its events: it keeps a copy of every entry that it knows of, and
lists under every column what the entries say about it. `Follower` is that much of a domain, and
`Listing` says how entries of one kind are listed. A follower that has read a part of the events
knows the entries that were inserted in this part and are still there, and perhaps some that the
events it has not read yet remove. Once it has read all of them it knows the entries of the pool,
and its lists are those of the pool.
-/

namespace BranchBound

/-- What is kept of the entries of a pool that were read. -/
structure Follower (β γ : Type) where
  /-- The pool among the shared pools. -/
  pool : Nat
  /-- The number of events read so far. -/
  seen : Nat
  known : Nat → Option β
  /-- For every column what the known entries say about it. -/
  occurrences : Array (List γ)

/-- How entries are listed under the columns. -/
structure Listing (β γ : Type) where
  /-- What an entry says about a column. -/
  listed : Nat → Nat → β → List γ
  /-- The entry that something in a list is about. -/
  about : γ → Nat
  about_listed : ∀ c id x, ∀ o ∈ listed c id x, about o = id

namespace Listing

variable {β γ : Type} (L : Listing β γ)

/-- What entries say about a column, if they are there. -/
def under (lookup : Nat → Option β) (c : Nat) (ids : List Nat) : List γ :=
  ids.flatMap fun id => (lookup id).elim [] (L.listed c id)

theorem under_append (lookup : Nat → Option β) (c : Nat) (ids ids' : List Nat) :
    L.under lookup c (ids ++ ids') = L.under lookup c ids ++ L.under lookup c ids' :=
  List.flatMap_append

/-- Everything that is listed is about one of the entries. -/
theorem about_under {lookup : Nat → Option β} {c : Nat} {ids : List Nat} {o : γ}
    (ho : o ∈ L.under lookup c ids) : L.about o ∈ ids := by
  obtain ⟨id, hid, ho⟩ := List.mem_flatMap.mp ho
  cases hentry : lookup id with
  | none => simp [hentry] at ho
  | some x =>
      rw [hentry, Option.elim_some] at ho
      rwa [L.about_listed c id x o ho]

/-- An entry that is not looked at does not matter. -/
theorem under_update_of_notMem {id : Nat} {ids : List Nat} (hid : id ∉ ids)
    (lookup : Nat → Option β) (c : Nat) (x : Option β) :
    L.under (Function.update lookup id x) c ids = L.under lookup c ids := by
  refine List.flatMap_congr fun other hother => ?_
  rw [Function.update_of_ne (ne_of_mem_of_not_mem hother hid)]

/-- Without an entry everything that is about it is gone. -/
theorem under_update_none (id : Nat) (ids : List Nat) (lookup : Nat → Option β) (c : Nat) :
    L.under (Function.update lookup id none) c ids =
      (L.under lookup c ids).filter fun o => L.about o != id := by
  rw [under, under, List.filter_flatMap]
  refine List.flatMap_congr fun other _ => ?_
  by_cases heq : other = id
  · subst heq
    rw [Function.update_self, Option.elim_none, eq_comm, List.filter_eq_nil_iff]
    intro o ho
    cases hentry : lookup other with
    | none => simp [hentry] at ho
    | some x =>
        rw [hentry, Option.elim_some] at ho
        simp [L.about_listed c other x o ho]
  · rw [Function.update_of_ne heq, eq_comm, List.filter_eq_self]
    intro o ho
    cases hentry : lookup other with
    | none => simp [hentry] at ho
    | some x =>
        rw [hentry, Option.elim_some] at ho
        simp [L.about_listed c other x o ho, heq]

end Listing

namespace Follower

variable {β γ : Type} (L : Listing β γ)

/-- Reads nothing yet. -/
def ofPool (pool columnCount : Nat) : Follower β γ :=
  ⟨pool, 0, fun _ => none, Array.replicate columnCount []⟩

/-- What reading an event does, given the entries that are in the pool at that time. An insertion is
read after the entry is gone if it was removed in the meantime. -/
inductive Reads (lookup : Nat → Option β) (f : Follower β γ) : PoolEvent → Follower β γ → Prop
  | gone {id : Nat} (h : lookup id = none) : Reads lookup f (.added id) f
  | learn {id : Nat} {x : β} {occurrences : Array (List γ)} (h : lookup id = some x)
      (hsize : occurrences.size = f.occurrences.size)
      (hlists : ∀ c : Nat, occurrences[c]? = f.occurrences[c]?.map (· ++ L.listed c id x)) :
      Reads lookup f (.added id)
        { f with known := Function.update f.known id (some x), occurrences := occurrences }
  | unknown {id : Nat} (h : f.known id = none) : Reads lookup f (.removed id) f
  | forget {id : Nat} {occurrences : Array (List γ)}
      (hsize : occurrences.size = f.occurrences.size)
      (hlists : ∀ c : Nat, occurrences[c]? =
        f.occurrences[c]?.map (·.filter fun o => L.about o != id)) :
      Reads lookup f (.removed id)
        { f with known := Function.update f.known id none, occurrences := occurrences }

theorem Reads.pool {lookup : Nat → Option β} {f f' : Follower β γ} {event : PoolEvent}
    (h : Reads L lookup f event f') : f'.pool = f.pool := by
  cases h <;> rfl

theorem Reads.seen {lookup : Nat → Option β} {f f' : Follower β γ} {event : PoolEvent}
    (h : Reads L lookup f event f') : f'.seen = f.seen := by
  cases h <;> rfl

/-- A follower has read the first of the events of a pool. -/
structure HasRead (columnCount : Nat) (l : PoolLedger β) (before after : List PoolEvent)
    (f : Follower β γ) : Prop where
  events : l.events = before ++ after
  known : ∀ id x, f.known id = some x →
    id ∈ addedIn before ∧ (l.entry? id = some x ∨ .removed id ∈ after)
  complete : ∀ id x, l.entry? id = some x → id ∈ addedIn before → f.known id = some x
  size : f.occurrences.size = columnCount
  lists : ∀ (c : Nat) found, f.occurrences[c]? = some found →
    found = L.under f.known c (addedIn before)

variable {L} {columnCount : Nat} {l l' : PoolLedger β} {before after : List PoolEvent}
  {f f' : Follower β γ}

theorem hasRead_ofPool (pool : Nat) (events : List PoolEvent) (hevents : l.events = events) :
    HasRead L columnCount l [] events (ofPool pool columnCount) where
  events := hevents
  known := fun _ _ h => nomatch h
  complete := fun _ _ _ h => absurd h List.not_mem_nil
  size := Array.size_replicate
  lists := fun c found h => by
    rw [ofPool, Array.getElem?_replicate] at h
    split at h
    · exact (Option.some.inj h).symm
    · cases h

/-- Everything in the lists is about an entry that was read. -/
theorem HasRead.about_mem (h : HasRead L columnCount l before after f) {c : Nat} {found : List γ}
    (hfound : f.occurrences[c]? = some found) {o : γ} (ho : o ∈ found) :
    L.about o ∈ addedIn before := by
  rw [h.lists c found hfound] at ho
  exact L.about_under ho

/-- A column of which a known entry says nothing lists nothing about it. -/
theorem HasRead.filter_about (h : HasRead L columnCount l before after f) {c id : Nat} {x : β}
    (hknown : f.known id = some x) (hover : L.listed c id x = []) {found : List γ}
    (hfound : f.occurrences[c]? = some found) :
    found.filter (fun o => L.about o != id) = found := by
  have hforgotten : found = L.under (Function.update f.known id none) c (addedIn before) := by
    rw [h.lists c found hfound]
    refine List.flatMap_congr fun other _ => ?_
    by_cases heq : other = id
    · rw [heq, hknown, Option.elim_some, hover, Function.update_self, Option.elim_none]
    · rw [Function.update_of_ne heq]
  rw [hforgotten, L.under_update_none, List.filter_filter]
  simp only [Bool.and_self]

/-- Events that are posted later leave what was read as it is. -/
theorem HasRead.posts (h : HasRead L columnCount l before after f) (hbalanced : l.Balanced)
    (hposts : l.Posts l') : ∃ news, HasRead L columnCount l' before (after ++ news) f := by
  have hlt : ∀ id ∈ addedIn before, id < l.size := fun id hid => by
    have hmem : id ∈ addedIn l.events := by
      rw [h.events, addedIn_append]
      exact List.mem_append_left _ hid
    rwa [hbalanced.added, List.mem_range] at hmem
  cases hposts with
  | insert y =>
      have hother : ∀ id ∈ addedIn before,
          Function.update l.entry? l.size (some y) id = l.entry? id :=
        fun id hid => Function.update_of_ne (hlt id hid).ne ..
      refine ⟨[.added l.size], ?_, fun id x hx => ?_, fun id x hx hid => ?_, h.size, h.lists⟩
      · rw [h.events, List.append_assoc]
      · obtain ⟨hid, hsource⟩ := h.known id x hx
        refine ⟨hid, hsource.imp (fun hentry => ?_) (List.mem_append_left _)⟩
        exact (hother id hid).trans hentry
      · exact h.complete id x ((hother id hid).symm.trans hx) hid
  | @remove gone hgone =>
      refine ⟨[.removed gone], ?_, fun id x hx => ?_, fun id x hx hid => ?_, h.size, h.lists⟩
      · rw [h.events, List.append_assoc]
      · obtain ⟨hid, hsource⟩ := h.known id x hx
        refine ⟨hid, ?_⟩
        by_cases heq : id = gone
        · exact .inr (heq ▸ List.mem_append_right _ (List.mem_singleton_self _))
        · refine hsource.imp (fun hentry => ?_) (List.mem_append_left _)
          exact (Function.update_of_ne heq ..).trans hentry
      · dsimp only at hx
        by_cases heq : id = gone
        · rw [heq, Function.update_self] at hx
          cases hx
        · rw [Function.update_of_ne heq] at hx
          exact h.complete id x hx hid

theorem HasRead.develops (h : HasRead L columnCount l before after f) (hbalanced : l.Balanced)
    (hdevelops : l.Develops l') : ∃ news, HasRead L columnCount l' before (after ++ news) f := by
  induction hdevelops with
  | refl => exact ⟨[], (List.append_nil after).symm ▸ h⟩
  | tail hfirst hposts ih =>
      obtain ⟨news, hread⟩ := ih
      obtain ⟨more, hmore⟩ := hread.posts (hbalanced.develops hfirst) hposts
      exact ⟨news ++ more, List.append_assoc .. ▸ hmore⟩

/-- An insertion that is read next is new to the follower. -/
theorem HasRead.fresh {id : Nat} (h : HasRead L columnCount l before (.added id :: after) f)
    (hbalanced : l.Balanced) : id ∉ addedIn before := by
  have hnodup : (addedIn l.events).Nodup := hbalanced.added ▸ List.nodup_range
  rw [h.events, addedIn_append, List.nodup_append] at hnodup
  exact fun hid => hnodup.2.2 id hid id (mem_addedIn.mpr (List.mem_cons_self ..)) rfl

/-- An entry whose removal is read next is not in the pool. -/
theorem HasRead.entry?_eq_none {id : Nat}
    (h : HasRead L columnCount l before (.removed id :: after) f) (hbalanced : l.Balanced) :
    l.entry? id = none := by
  by_contra hentry
  refine ((hbalanced.entry? id).mp hentry).2 (mem_removedIn.mpr ?_)
  rw [h.events]
  exact List.mem_append_right _ (List.mem_cons_self ..)

/-- One more event is read. -/
theorem HasRead.reads {event : PoolEvent}
    (h : HasRead L columnCount l before (event :: after) f) (hbalanced : l.Balanced)
    (hreads : Reads L l.entry? f event f') :
    HasRead L columnCount l (before ++ [event]) after f' := by
  have hevents : l.events = before ++ [event] ++ after := by
    rw [h.events, List.append_assoc]
    rfl
  have hlater : ∀ {id : Nat}, .removed id ∈ event :: after → event ≠ .removed id →
      .removed id ∈ after := fun hmem hne => (List.mem_cons.mp hmem).resolve_left (Ne.symm hne)
  have hadded : addedIn (before ++ [event]) = addedIn before ++ addedIn [event] := addedIn_append ..
  cases hreads with
  | @gone id hgone =>
      have hnew : addedIn [.added id] = [id] := rfl
      have hunknown : f.known id = none := by
        cases hknown : f.known id with
        | none => rfl
        | some x => exact absurd (h.known id x hknown).1 (h.fresh hbalanced)
      refine ⟨hevents, fun other x hx => ?_, fun other x hx hother => ?_, h.size,
        fun c found hfound => ?_⟩
      · obtain ⟨hmem, hsource⟩ := h.known other x hx
        refine ⟨hadded ▸ List.mem_append_left _ hmem, hsource.imp_right fun hmem => ?_⟩
        exact hlater hmem (fun heq => nomatch heq)
      · rw [hadded, hnew] at hother
        rcases List.mem_append.mp hother with hother | hother
        · exact h.complete other x hx hother
        · rw [List.mem_singleton.mp hother, hgone] at hx
          cases hx
      · rw [hadded, L.under_append, ← h.lists c found hfound, hnew, Listing.under,
          List.flatMap_singleton, hunknown, Option.elim_none, List.append_nil]
  | @learn id x occurrences hentry hsize hlists =>
      have hnew : addedIn [.added id] = [id] := rfl
      have hfresh := h.fresh hbalanced
      refine ⟨hevents, fun other y hy => ?_, fun other y hy hother => ?_, hsize.trans h.size,
        fun c found hfound => ?_⟩
      · dsimp only at hy
        by_cases heq : other = id
        · subst heq
          rw [Function.update_self] at hy
          cases hy
          exact ⟨hadded ▸ List.mem_append_right _ (List.mem_singleton_self _), .inl hentry⟩
        · rw [Function.update_of_ne heq] at hy
          obtain ⟨hmem, hsource⟩ := h.known other y hy
          refine ⟨hadded ▸ List.mem_append_left _ hmem, hsource.imp_right fun hmem => ?_⟩
          exact hlater hmem (fun heq => nomatch heq)
      · dsimp only
        by_cases heq : other = id
        · rw [heq, Function.update_self, ← hentry, ← hy, heq]
        · rw [hadded, hnew, List.mem_append, List.mem_singleton] at hother
          rw [Function.update_of_ne heq]
          exact h.complete other y hy (hother.resolve_right heq)
      · rw [hlists] at hfound
        obtain ⟨found', hfound', rfl⟩ := Option.map_eq_some_iff.mp hfound
        dsimp only
        rw [hadded, L.under_append, hnew, L.under_update_of_notMem hfresh, ← h.lists c found'
          hfound',
          Listing.under, List.flatMap_singleton, Function.update_self, Option.elim_some]
  | @unknown id hunknown =>
      have hnone : addedIn [.removed id] = [] := rfl
      rw [hnone, List.append_nil] at hadded
      refine ⟨hevents, fun other x hx => ?_, hadded ▸ h.complete, h.size, hadded ▸ h.lists⟩
      obtain ⟨hmem, hsource⟩ := h.known other x hx
      refine ⟨hadded ▸ hmem, hsource.imp_right fun hmem => hlater hmem fun heq => ?_⟩
      rw [← PoolEvent.removed.inj heq, hunknown] at hx
      cases hx
  | @forget id occurrences hsize hlists =>
      have hnone : addedIn [.removed id] = [] := rfl
      rw [hnone, List.append_nil] at hadded
      refine ⟨hevents, fun other x hx => ?_, fun other x hx hother => ?_, hsize.trans h.size,
        fun c found hfound => ?_⟩
      · dsimp only at hx
        by_cases heq : other = id
        · rw [heq, Function.update_self] at hx
          cases hx
        · rw [Function.update_of_ne heq] at hx
          obtain ⟨hmem, hsource⟩ := h.known other x hx
          refine ⟨hadded ▸ hmem, hsource.imp_right fun hmem => hlater hmem fun hevent => ?_⟩
          exact heq (PoolEvent.removed.inj hevent).symm
      · have hne : other ≠ id := fun heq => by
          rw [heq, h.entry?_eq_none hbalanced] at hx
          cases hx
        dsimp only
        rw [Function.update_of_ne hne]
        exact h.complete other x hx (hadded ▸ hother)
      · rw [hlists] at hfound
        obtain ⟨found', hfound', rfl⟩ := Option.map_eq_some_iff.mp hfound
        dsimp only
        rw [hadded, L.under_update_none, ← h.lists c found' hfound']

/-- Having read all events a follower knows the entries of the pool. -/
theorem HasRead.known_eq (h : HasRead L columnCount l before [] f) (hbalanced : l.Balanced)
    (id : Nat) : f.known id = l.entry? id := by
  have hall : addedIn before = List.range l.size := by
    rw [← hbalanced.added, h.events, List.append_nil]
  refine Option.ext fun x => ⟨fun hx => ?_, fun hx => h.complete id x hx ?_⟩
  · exact (h.known id x hx).2.resolve_right List.not_mem_nil
  · rw [hall, List.mem_range]
    exact ((hbalanced.entry? id).mp (hx ▸ Option.some_ne_none x)).1

/-- Having read all events a follower lists what the entries of the pool say. -/
theorem HasRead.occurrences_eq (h : HasRead L columnCount l before [] f) (hbalanced : l.Balanced)
    {c : Nat} (hc : c < columnCount) :
    f.occurrences[c]? = some (L.under l.entry? c (List.range l.size)) := by
  have hfound := Array.getElem?_eq_getElem (h.size.symm ▸ hc : c < f.occurrences.size)
  rw [hfound, h.lists c _ hfound, ← hbalanced.added, h.events, List.append_nil,
    funext (h.known_eq hbalanced)]

end Follower

end BranchBound
