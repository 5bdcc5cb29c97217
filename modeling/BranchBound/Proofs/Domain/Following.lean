import BranchBound.Proofs.Domain.Marking
import BranchBound.Proofs.Domain.Operation
import BranchBound.Proofs.Domain.Preparation
import BranchBound.Proofs.Pool.Follower

/-!
# Domains as followers of their pools

What a domain knows of an attached pool is a follower of the pool's ledger, for cuts and for
conflicts alike. Bounds that move leave it alone, and so does everything else that is done to the
domain; only propagation reads the news of a pool. So a domain follows its pools through every
operation on it, and through whatever else happens to the pools.
-/

namespace BranchBound

open Checked

variable {α : Type}

namespace Pools

/-- The ledger of a cut pool, blank if there is no such pool yet. -/
def cutLedger (pools : Pools α) (pool : PoolId) : PoolLedger (Inequality α) :=
  pools.cuts[pool]?.elim .blank CutPool.ledger

/-- The ledger of a conflict pool, blank if there is no such pool yet. -/
def conflictLedger (pools : Pools α) (pool : PoolId) : PoolLedger (List (BoundChange α)) :=
  pools.conflicts[pool]?.elim .blank ConflictPool.ledger

theorem cutLedger_eq {pools : Pools α} {pool : PoolId} {p : CutPool α}
    (h : pools.cuts[pool]? = some p) : pools.cutLedger pool = p.ledger := by
  rw [cutLedger, h, Option.elim_some]

theorem conflictLedger_eq {pools : Pools α} {pool : PoolId} {p : ConflictPool α}
    (h : pools.conflicts[pool]? = some p) : pools.conflictLedger pool = p.ledger := by
  rw [conflictLedger, h, Option.elim_some]

/-- The ledgers of all pools are balanced. -/
structure Balanced (pools : Pools α) : Prop where
  cuts : ∀ pool, (pools.cutLedger pool).Balanced
  conflicts : ∀ pool, (pools.conflictLedger pool).Balanced

/-- Events are posted to the ledgers of some pools. -/
structure Develops (pools pools' : Pools α) : Prop where
  cuts : ∀ pool, (pools.cutLedger pool).Develops (pools'.cutLedger pool)
  conflicts : ∀ pool, (pools.conflictLedger pool).Develops (pools'.conflictLedger pool)

theorem empty_balanced : (empty : Pools α).Balanced :=
  ⟨fun _ => PoolLedger.blank_balanced, fun _ => PoolLedger.blank_balanced⟩

variable {pools pools' pools'' : Pools α}

theorem Develops.refl (pools : Pools α) : Develops pools pools := ⟨fun _ => .refl, fun _ => .refl⟩

theorem Develops.trans (h : Develops pools pools') (h' : Develops pools' pools'') :
    Develops pools pools'' :=
  ⟨fun pool => (h.cuts pool).trans (h'.cuts pool),
    fun pool => (h.conflicts pool).trans (h'.conflicts pool)⟩

theorem Balanced.develops (h : pools.Balanced) (hdevelops : Develops pools pools') :
    pools'.Balanced :=
  ⟨fun pool => (h.cuts pool).develops (hdevelops.cuts pool),
    fun pool => (h.conflicts pool).develops (hdevelops.conflicts pool)⟩

end Pools

namespace Follower

variable {β γ : Type} (L : Listing β γ) (columnCount : Nat)

/-- A follower has read the events of a ledger up to the last one it has seen. -/
structure Follows (l : PoolLedger β) (f : Follower β γ) : Prop where
  seen : f.seen ≤ l.events.length
  read : HasRead L columnCount l (l.events.take f.seen) (l.events.drop f.seen) f

/-- What propagation does to what is held of a pool: the news is read, or nothing happens. -/
inductive Updates (l : PoolLedger β) (f : Follower β γ) : Follower β γ → Prop
  | same : Updates l f f
  | read {f' : Follower β γ} (hpool : f'.pool = f.pool)
      (h : l.Balanced → f.Follows L columnCount l →
        f'.Follows L columnCount l ∧ f'.seen = l.events.length) : Updates l f f'

variable {L columnCount} {l l' : PoolLedger β} {f f' : Follower β γ}

theorem follows_ofPool (pool : Nat) (l : PoolLedger β) :
    (ofPool pool columnCount : Follower β γ).Follows L columnCount l :=
  ⟨Nat.zero_le _, hasRead_ofPool pool l.events rfl⟩

theorem Follows.develops (h : f.Follows L columnCount l) (hbalanced : l.Balanced)
    (hdevelops : l.Develops l') : f.Follows L columnCount l' := by
  obtain ⟨news, hread⟩ := h.read.develops hbalanced hdevelops
  have hevents : l'.events = l.events ++ news := by
    rw [hread.events, ← List.append_assoc, List.take_append_drop]
  refine ⟨?_, ?_⟩
  · rw [hevents, List.length_append]
    exact Nat.le_add_right_of_le h.seen
  · rwa [hevents, List.take_append_of_le_length h.seen, List.drop_append_of_le_length h.seen]

theorem Updates.pool (h : f.Updates L columnCount l f') : f'.pool = f.pool := by
  cases h with
  | same => rfl
  | read hpool _ => exact hpool

theorem Follows.updates (h : f.Follows L columnCount l) (hbalanced : l.Balanced)
    (hupdates : f.Updates L columnCount l f') : f'.Follows L columnCount l := by
  cases hupdates with
  | same => exact h
  | read _ hread => exact (hread hbalanced h).1

/-- What was read to the end stays so. -/
theorem Updates.seen_eq (hupdates : f.Updates L columnCount l f') (hbalanced : l.Balanced)
    (h : f.Follows L columnCount l) (hseen : f.seen = l.events.length) :
    f'.seen = l.events.length := by
  cases hupdates with
  | same => exact hseen
  | read _ hread => exact (hread hbalanced h).2

/-- Reading the events that are left, one after the other. -/
theorem HasRead.replay {σ : Type} {v : σ → Follower β γ} {read : σ → PoolEvent → Checked σ}
    (hbalanced : l.Balanced)
    (hread : ∀ before event after s s',
      HasRead L columnCount l before (event :: after) (v s) → read s event = .ok s' →
        Reads L l.entry? (v s) event (v s'))
    {before after : List PoolEvent} {s s' : σ} (h : HasRead L columnCount l before after (v s))
    (hall : after.foldlM read s = .ok s') :
    HasRead L columnCount l l.events [] (v s') ∧ (v s').pool = (v s).pool ∧
      (v s').seen = (v s).seen := by
  induction after generalizing before s with
  | nil =>
      obtain rfl := pure_eq_ok.mp hall
      have hevents : l.events = before := h.events.trans (List.append_nil _)
      exact ⟨hevents ▸ h, rfl, rfl⟩
  | cons event after ih =>
      rw [List.foldlM_cons, bind_eq_ok] at hall
      obtain ⟨next, hnext, hall⟩ := hall
      have hreads := hread before event after s next h hnext
      obtain ⟨hlast, hpool, hseen⟩ := ih (h.reads hbalanced hreads) hall
      exact ⟨hlast, hpool.trans hreads.pool, hseen.trans hreads.seen⟩

/-- A follower that reads the events which are left, all counted as seen before, comes up to
date. -/
theorem Follows.replay {σ : Type} {v : σ → Follower β γ} {read : σ → PoolEvent → Checked σ}
    (h : f.Follows L columnCount l) (hbalanced : l.Balanced)
    (hread : ∀ before event after s s',
      HasRead L columnCount l before (event :: after) (v s) → read s event = .ok s' →
        Reads L l.entry? (v s) event (v s'))
    {s s' : σ} (hstart : v s = { f with seen := f.seen + (l.events.drop f.seen).length })
    (hall : (l.events.drop f.seen).foldlM read s = .ok s') :
    (v s').Follows L columnCount l ∧ (v s').seen = l.events.length := by
  have hbefore : HasRead L columnCount l (l.events.take f.seen) (l.events.drop f.seen) (v s) := by
    rw [hstart]
    exact ⟨h.read.events, h.read.known, h.read.complete, h.read.size, h.read.lists⟩
  obtain ⟨hlast, -, hseen⟩ := hbefore.replay hbalanced hread hall
  have hcount : (v s').seen = l.events.length := by
    rw [hseen, hstart, List.length_drop]
    exact Nat.add_sub_of_le h.seen
  refine ⟨⟨hcount.le, ?_⟩, hcount⟩
  rwa [hcount, List.take_length, List.drop_length]

variable {id : Nat} {x : β}

/-- The insertion of an entry was read, and the entry is neither there nor known any more. -/
structure Dropped (l : PoolLedger β) (f : Follower β γ) (id : Nat) : Prop where
  unknown : f.known id = none
  gone : l.entry? id = none
  read : id ∈ addedIn (l.events.take f.seen)

theorem mem_addedIn_of_prefix {events events' : List PoolEvent} (h : events <+: events')
    (hid : id ∈ addedIn events) : id ∈ addedIn events' := by
  obtain ⟨rest, rfl⟩ := h
  rw [addedIn_append]
  exact List.mem_append_left _ hid

theorem Dropped.develops (h : f.Dropped l id) (hbalanced : l.Balanced) (hdevelops : l.Develops l') :
    f.Dropped l' id := by
  obtain ⟨hevents, -, hnone⟩ := hdevelops.keeps
  refine ⟨h.unknown, hnone id ?_ h.gone, mem_addedIn_of_prefix (hevents.take _) h.read⟩
  have hmem := mem_addedIn_of_prefix (List.take_prefix _ _) h.read
  rwa [hbalanced.added, List.mem_range] at hmem

/-- Having read all events a follower knows what is there. -/
theorem Follows.known_iff (h : f.Follows L columnCount l) (hseen : f.seen = l.events.length)
    (hid : id ∈ addedIn l.events) : f.known id = l.entry? id := by
  have hread := h.read
  rw [hseen, List.take_length, List.drop_length] at hread
  cases hknown : f.known id with
  | some y => exact ((hread.known id y hknown).2.resolve_right List.not_mem_nil).symm
  | none =>
      cases hentry : l.entry? id with
      | none => rfl
      | some y => exact hknown.symm.trans (hread.complete id y hentry hid)

theorem Dropped.updates (h : f.Dropped l id) (hbalanced : l.Balanced)
    (hfollows : f.Follows L columnCount l) (hupdates : f.Updates L columnCount l f') :
    f'.Dropped l id := by
  cases hupdates with
  | same => exact h
  | read _ hread =>
      obtain ⟨hfollows', hseen⟩ := hread hbalanced hfollows
      have hmem := mem_addedIn_of_prefix (List.take_prefix _ _) h.read
      refine ⟨(hfollows'.known_iff hseen hmem).trans h.gone, h.gone, ?_⟩
      rwa [hseen, List.take_length]

/-- A known entry stays as it is until it is dropped. -/
theorem Updates.known_or_dropped (hupdates : f.Updates L columnCount l f') (hbalanced : l.Balanced)
    (hfollows : f.Follows L columnCount l) (h : f.known id = some x) :
    f'.known id = some x ∨ f'.Dropped l id := by
  cases hupdates with
  | same => exact .inl h
  | read _ hread =>
      obtain ⟨hfollows', hseen⟩ := hread hbalanced hfollows
      obtain ⟨hmem, hsource⟩ := hfollows.read.known id x h
      have hadded := mem_addedIn_of_prefix (List.take_prefix _ _) hmem
      have hnow := hfollows'.known_iff hseen hadded
      rcases hsource with hentry | hremoved
      · exact .inl (hnow.trans hentry)
      · have hgone : l.entry? id = none := by
          by_contra hentry
          exact ((hbalanced.entry? id).mp hentry).2
            (mem_removedIn.mpr (List.mem_of_mem_drop hremoved))
        refine .inr ⟨hnow.trans hgone, hgone, ?_⟩
        rwa [hseen, List.take_length]

end Follower

namespace CutPropagation

/-- A cut is listed under each of its columns with its coefficients there. -/
def listing : Listing (Inequality α) (CutId × α) where
  listed := fun c id cut => (cut.entries.filter fun e => e.1 = c).map fun e => (id, e.2)
  about := Prod.fst
  about_listed := fun c id cut o ho => by
    obtain ⟨e, -, rfl⟩ := List.mem_map.mp ho
    rfl

def follower (p : CutPropagation α) : Follower (Inequality α) (CutId × α) :=
  ⟨p.pool, p.seen, fun id => (p.known id).map Prod.fst, p.occurrences⟩

theorem follower_ofPool (pool columnCount : Nat) :
    (ofPool pool columnCount : CutPropagation α).follower = .ofPool pool columnCount := by
  rw [follower, Follower.ofPool]
  congr 1

theorem SameCuts.follower {p p' : CutPropagation α} (h : SameCuts p p')
    (hoccurrences : p'.occurrences = p.occurrences) : p'.follower = p.follower := by
  rw [CutPropagation.follower, CutPropagation.follower, h.pool, h.seen, hoccurrences, funext h.cuts]

theorem Agrees.follower {p p' : CutPropagation α} (h : Agrees p p') : p'.follower = p.follower := by
  rw [CutPropagation.follower, CutPropagation.follower, h.pool, h.seen, h.occurrences, h.known]

section Read

variable [Scalar α] {pool : CutPool α} {lower upper : Array (Bound α)} {p p' : CutPropagation α}
  {event : PoolEvent} {columnCount : Nat} {before after : List PoolEvent}

theorem readEvent_follower
    (hread : p.follower.HasRead listing columnCount pool.ledger before (event :: after))
    (h : readEvent pool lower upper p event = .ok p') :
    Follower.Reads listing pool.ledger.entry? p.follower event p'.follower := by
  cases event with
  | added id =>
      simp only [readEvent] at h
      split at h
      · next hnone =>
          cases h
          exact .gone hnone
      · next cut hcut =>
          simp only [bind_eq_ok, pure_eq_ok] at h
          obtain ⟨min, -, occurrences, hoccurrences, rfl⟩ := h
          obtain ⟨hsize, -, hlists⟩ := foldlM_update_eq_ok hoccurrences
          rw [(agrees_markDirty _ id).follower]
          refine Eq.subst (motive := Follower.Reads listing pool.ledger.entry? p.follower
            (.added id))
            ?_ (.learn hcut hsize fun c => ?_)
          · rw [follower, follower]
            congr 1
            funext other
            simp only [known, Slots.get?_insert, Function.update_apply, eq_comm]
            split <;> rfl
          · rw [hlists]
            exact congrArg (Option.map · _) (funext fun found => foldl_listed id _ found)
  | removed id =>
      simp only [readEvent] at h
      split at h
      · next hnone =>
          cases h
          refine .unknown ?_
          change (p.known id).map Prod.fst = none
          rw [known, hnone]
          rfl
      · next found hfound =>
          simp only [bind_eq_ok, pure_eq_ok] at h
          obtain ⟨occurrences, hoccurrences, rfl⟩ := h
          obtain ⟨hsize, -, hlists⟩ := foldlM_update_eq_ok hoccurrences
          have hknown : p.follower.known id = some found.cut := by
            change (p.known id).map Prod.fst = some found.cut
            rw [known, hfound]
            rfl
          refine Eq.subst (motive := Follower.Reads listing pool.ledger.entry? p.follower
            (.removed id))
            ?_ (.forget hsize fun c => ?_)
          · rw [follower, follower]
            congr 1
            funext other
            simp only [known, Slots.get?_erase, Function.update_apply, eq_comm]
            split <;> rfl
          · rw [hlists]
            refine Option.map_congr fun list hlist => ?_
            rw [foldl_unlisted]
            split
            · next hempty =>
                have hover : listing.listed c id found.cut = [] := by
                  rw [List.isEmpty_iff] at hempty
                  simp only [listing, hempty, List.map_nil]
                exact (hread.filter_about hknown hover hlist).symm
            · rfl

/-- Reading the news of a pool brings a follower up to date. -/
theorem synchronise_follower (hbalanced : pool.ledger.Balanced)
    (hfollows : p.follower.Follows listing columnCount pool.ledger)
    (h : (synchronise pool lower upper).perform p = (.ok (), p')) :
    p'.follower.Follows listing columnCount pool.ledger ∧
      p'.follower.seen = pool.ledger.events.length :=
  hfollows.replay (v := follower) hbalanced
    (fun _ _ _ _ _ hnext hevent => readEvent_follower hnext hevent) rfl (synchronise_eq_ok h)

end Read

end CutPropagation

namespace ConflictPropagation

/-- A conflict is listed once under each column of its literals. -/
def listing : Listing (List (BoundChange α)) ConflictId where
  listed := fun c id literals => if literals.filter (fun l => l.column = c) = [] then [] else [id]
  about := id
  about_listed := fun c id literals o ho => by
    split at ho
    · cases ho
    · exact List.mem_singleton.mp ho

def follower (p : ConflictPropagation α) : Follower (List (BoundChange α)) ConflictId :=
  ⟨p.pool, p.seen, p.known, p.occurrences⟩

theorem follower_ofPool (pool columnCount : Nat) :
    (ofPool pool columnCount : ConflictPropagation α).follower = .ofPool pool columnCount := by
  rw [follower, Follower.ofPool]
  congr 1

theorem Agrees.follower {p p' : ConflictPropagation α} (h : Agrees p p') :
    p'.follower = p.follower := by
  rw [ConflictPropagation.follower, ConflictPropagation.follower, h.pool, h.seen, h.known,
    h.occurrences]

/-- The literals over a column put a new conflict at the end of its list once. -/
theorem foldl_listed {id : ConflictId} {found : List ConflictId} (hid : id ∉ found)
    (literals : List (BoundChange α)) :
    literals.foldl (fun found _ =>
        if found.getLast? == some id then found else found ++ [id]) found =
      found ++ if literals = [] then [] else [id] := by
  have hstays : ∀ rest : List (BoundChange α), rest.foldl (fun found _ =>
      if found.getLast? == some id then found else found ++ [id]) (found ++ [id]) = found ++
        [id] := by
    intro rest
    induction rest with
    | nil => rfl
    | cons l rest ih =>
        rw [List.foldl_cons, List.getLast?_append_of_ne_nil _ (List.cons_ne_nil id []),
          List.getLast?_singleton, beq_self_eq_true, if_pos rfl]
        exact ih
  cases literals with
  | nil => simp
  | cons l rest =>
      have hlast : (found.getLast? == some id) = false :=
        beq_eq_false_iff_ne.mpr fun hlast => hid (List.mem_of_getLast? hlast)
      rw [List.foldl_cons, hlast, if_neg Bool.false_ne_true, hstays,
        if_neg (List.cons_ne_nil l rest)]

/-- The literals over a column remove a conflict from its list. -/
theorem foldl_unlisted (id : ConflictId) (literals : List (BoundChange α))
    (found : List ConflictId) :
    literals.foldl (fun found _ => found.filter (· != id)) found =
      if literals = [] then found else found.filter (· != id) := by
  induction literals generalizing found with
  | nil => rfl
  | cons l rest ih =>
      rw [List.foldl_cons, ih, if_neg (List.cons_ne_nil l rest), List.filter_filter]
      simp only [Bool.and_self, ite_self]

section Read

variable {pool : ConflictPool α} {p p' : ConflictPropagation α} {event : PoolEvent}
  {columnCount : Nat} {before after : List PoolEvent}

theorem readEvent_follower (hbalanced : pool.ledger.Balanced)
    (hread : p.follower.HasRead listing columnCount pool.ledger before (event :: after))
    (h : readEvent pool p event = .ok p') :
    Follower.Reads listing pool.ledger.entry? p.follower event p'.follower := by
  cases event with
  | added id =>
      simp only [readEvent] at h
      split at h
      · next hnone =>
          cases h
          exact .gone hnone
      · next literals hliterals =>
          simp only [bind_eq_ok, pure_eq_ok] at h
          obtain ⟨occurrences, hoccurrences, rfl⟩ := h
          obtain ⟨hsize, -, hlists⟩ := foldlM_update_eq_ok hoccurrences
          rw [(agrees_markDirty _ id).follower]
          refine Eq.subst (motive := Follower.Reads listing pool.ledger.entry? p.follower
            (.added id))
            ?_ (.learn hliterals hsize fun c => ?_)
          · rw [follower, follower]
            congr 1
            funext other
            simp only [known, Slots.get?_insert, Function.update_apply, eq_comm]
            split <;> rfl
          · rw [hlists]
            refine Option.map_congr fun found hfound => foldl_listed (fun hid => ?_) _
            exact hread.fresh hbalanced (hread.about_mem hfound hid)
  | removed id =>
      simp only [readEvent] at h
      split at h
      · next hnone =>
          cases h
          refine .unknown ?_
          change p.known id = none
          rw [known, hnone]
          rfl
      · next found hfound =>
          simp only [bind_eq_ok, pure_eq_ok] at h
          obtain ⟨occurrences, hoccurrences, rfl⟩ := h
          obtain ⟨hsize, -, hlists⟩ := foldlM_update_eq_ok hoccurrences
          have hknown : p.follower.known id = some found.literals := by
            change p.known id = some found.literals
            rw [known, hfound]
            rfl
          refine Eq.subst (motive := Follower.Reads listing pool.ledger.entry? p.follower
            (.removed id))
            ?_ (.forget hsize fun c => ?_)
          · rw [follower, follower]
            congr 1
            funext other
            simp only [known, Slots.get?_erase, Function.update_apply, eq_comm]
            split <;> rfl
          · rw [hlists]
            refine Option.map_congr fun list hlist => ?_
            rw [foldl_unlisted]
            split
            · next hempty => exact (hread.filter_about hknown (if_pos hempty) hlist).symm
            · rfl

/-- Reading the news of a pool brings a follower up to date. -/
theorem synchronise_follower (hbalanced : pool.ledger.Balanced)
    (hfollows : p.follower.Follows listing columnCount pool.ledger)
    (h : (synchronise pool).perform p = (.ok (), p')) :
    p'.follower.Follows listing columnCount pool.ledger ∧
      p'.follower.seen = pool.ledger.events.length := by
  simp only [synchronise, Action.perform_bind_eq_ok, Action.perform_get, Action.perform_modify,
    Prod.mk.injEq, Except.ok.injEq] at h
  obtain ⟨_, _, ⟨rfl, rfl⟩, _, _, ⟨-, rfl⟩, h⟩ := h
  exact hfollows.replay (v := follower) hbalanced
    (fun _ _ _ _ _ hnext hevent => readEvent_follower hbalanced hnext hevent) rfl
    (Action.perform_forM_change_eq_ok.mp h)

end Read

end ConflictPropagation

end BranchBound
