import BranchBound.Proofs.Domain.SoundRuns

/-!
# The names of conflicts

A reason names a conflict by the position of an attached pool and the identifier in it. Identifiers
are given once, so what stands behind a name may be forgotten but is never replaced, whatever
happens to the pools and to what a domain reads of them. `PropagationState.NamesKept` is what one
step does to names.
-/

namespace BranchBound

open Checked

variable {α : Type}

/-- The conflict behind a name is the one that the domain knows, or else the one in the pool. -/
theorem Domain.conflictBehind_eq_some {d : Domain α} {pools : Array (ConflictPool α)} {index : Nat}
    {id : ConflictId} {literals : List (BoundChange α)} :
    d.conflictBehind pools index id = some literals ↔ ∃ p, d.conflictPropagations[index]? = some p ∧
      (p.known id = some literals ∨ p.known id = none ∧
        ∃ pool, pools[p.pool]? = some pool ∧ pool.get? id = some literals) := by
  simp only [conflictBehind, Option.bind_eq_bind, Option.bind_eq_some_iff]
  refine exists_congr fun p => and_congr_right fun _ => ?_
  simp only [ConflictPropagation.known]
  cases p.conflicts.get? id with
  | none => simp [Option.bind_eq_some_iff]
  | some known => simp

/-- The cut behind a name is the one that the domain knows, or else the one in the pool. -/
theorem Domain.cutBehind_eq_some {d : Domain α} {pools : Array (CutPool α)} {index : Nat}
    {id : CutId} {cut : Inequality α} :
    d.cutBehind pools index id = some cut ↔ ∃ p, d.cutPropagations[index]? = some p ∧
      ((∃ min, p.known id = some (cut, min)) ∨ p.known id = none ∧
        ∃ pool, pools[p.pool]? = some pool ∧ pool.get? id = some cut) := by
  simp only [cutBehind, Option.bind_eq_bind, Option.bind_eq_some_iff]
  refine exists_congr fun p => and_congr_right fun _ => ?_
  simp only [CutPropagation.known]
  cases p.cuts.get? id with
  | none => simp [Option.bind_eq_some_iff]
  | some known => simp

namespace PropagationState

variable {s s' s'' : PropagationState α}

/-- A name of a conflict that was inserted into an attached pool. -/
def Named (s : PropagationState α) (index : Nat) (id : ConflictId) : Prop :=
  ∃ p pool, s.domain.conflictPropagations[index]? = some p ∧
    s.pools.conflicts[p.pool]? = some pool ∧ id < pool.record.size

/-- What a domain knows of a conflict is what its pool holds, if it is still there. -/
def NamesAgree (s : PropagationState α) : Prop :=
  ∀ (index : Nat) p id literals, s.domain.conflictPropagations[index]? = some p →
    p.known id = some literals → ∃ pool, s.pools.conflicts[p.pool]? = some pool ∧
      id < pool.record.size ∧ ∀ pooled, pool.get? id = some pooled → pooled = literals

/-- The conflict pools give every identifier once. -/
def NamesOnce (s : PropagationState α) : Prop :=
  ∀ (i : PoolId) pool, s.pools.conflicts[i]? = some pool → pool.record.Faithful

/-- What a step does to the names of conflicts: a domain may forget conflicts and read others from
their pools, and pools may lose conflicts and get new ones under new identifiers. -/
structure NamesKept (s s' : PropagationState α) : Prop where
  attached : ∀ (index : Nat) p, s.domain.conflictPropagations[index]? = some p →
    ∃ p', s'.domain.conflictPropagations[index]? = some p' ∧ p'.pool = p.pool
  known : ∀ (index : Nat) p', s'.domain.conflictPropagations[index]? = some p' →
    ∀ id literals, p'.known id = some literals →
      ∃ p, s.domain.conflictPropagations[index]? = some p ∧ p'.pool = p.pool ∧
        (p.known id = some literals ∨ ∃ pool, s.pools.conflicts[p.pool]? = some pool ∧
          pool.get? id = some literals)
  pools : ∀ (i : PoolId) pool, s.pools.conflicts[i]? = some pool →
    ∃ pool', s'.pools.conflicts[i]? = some pool' ∧ pool.record.size ≤ pool'.record.size ∧
      ∀ id literals, id < pool.record.size → pool'.get? id = some literals →
        pool.get? id = some literals

namespace NamesKept

variable (h : NamesKept s s')

include h

theorem named {index : Nat} {id : ConflictId} (hnamed : s.Named index id) : s'.Named index id := by
  obtain ⟨p, pool, hp, hpool, hlt⟩ := hnamed
  obtain ⟨p', hp', hsame⟩ := h.attached index p hp
  obtain ⟨pool', hpool', hle, -⟩ := h.pools p.pool pool hpool
  exact ⟨p', pool', hp', hsame ▸ hpool', Nat.lt_of_lt_of_le hlt hle⟩

/-- What stands behind a name stood behind it before. -/
theorem conflictBehind (hagree : s.NamesAgree) {index : Nat} {id : ConflictId}
    (hnamed : s.Named index id) {literals : List (BoundChange α)}
    (hbehind : s'.domain.conflictBehind s'.pools.conflicts index id = some literals) :
    s.domain.conflictBehind s.pools.conflicts index id = some literals := by
  obtain ⟨p, pool, hp, hpool, hlt⟩ := hnamed
  have hpooled : pool.get? id = some literals →
      s.domain.conflictBehind s.pools.conflicts index id = some literals := fun hget => by
    refine Domain.conflictBehind_eq_some.mpr ⟨p, hp, ?_⟩
    cases hknown : p.known id with
    | none => exact .inr ⟨rfl, pool, hpool, hget⟩
    | some found =>
        obtain ⟨pool', hpool', -, hsame⟩ := hagree index p id found hp hknown
        obtain rfl := Option.some.inj (hpool.symm.trans hpool')
        exact .inl (by rw [hsame literals hget])
  obtain ⟨p', hp', hsource⟩ := Domain.conflictBehind_eq_some.mp hbehind
  rcases hsource with hknown | ⟨-, pool', hpool', hget⟩
  · obtain ⟨q, hq, -, hbefore⟩ := h.known index p' hp' id literals hknown
    obtain rfl := Option.some.inj (hp.symm.trans hq)
    rcases hbefore with hbefore | ⟨pool', hpool', hget⟩
    · exact Domain.conflictBehind_eq_some.mpr ⟨p, hp, .inl hbefore⟩
    · obtain rfl := Option.some.inj (hpool.symm.trans hpool')
      exact hpooled hget
  · obtain ⟨q, hq, hsame⟩ := h.attached index p hp
    obtain rfl := Option.some.inj (hp'.symm.trans hq)
    obtain ⟨later, hlater, -, hback⟩ := h.pools p.pool pool hpool
    rw [hsame] at hpool'
    obtain rfl := Option.some.inj (hpool'.symm.trans hlater)
    exact hpooled (hback id literals hlt hget)

/-- A step keeps what is known in agreement with the pools. -/
theorem namesAgree (hagree : s.NamesAgree) (honce : s.NamesOnce) : s'.NamesAgree := by
  intro index p' id literals hp' hknown
  obtain ⟨p, hp, hsame, hbefore⟩ := h.known index p' hp' id literals hknown
  have hfound : ∃ pool, s.pools.conflicts[p.pool]? = some pool ∧ id < pool.record.size ∧
      ∀ pooled, pool.get? id = some pooled → pooled = literals := by
    rcases hbefore with hbefore | ⟨pool, hpool, hget⟩
    · exact hagree index p id literals hp hbefore
    · exact ⟨pool, hpool, (honce p.pool pool hpool).entry_lt id literals hget, fun pooled hpooled =>
        Option.some.inj (hpooled.symm.trans hget)⟩
  obtain ⟨pool, hpool, hlt, hsole⟩ := hfound
  obtain ⟨pool', hpool', hle, hback⟩ := h.pools p.pool pool hpool
  exact ⟨pool', hsame ▸ hpool', Nat.lt_of_lt_of_le hlt hle, fun pooled hpooled =>
    hsole pooled (hback id pooled hlt hpooled)⟩

end NamesKept

/-- A domain that knows the same conflicts keeps the names. -/
theorem NamesKept.of_agrees {d : Domain α} (h : List.Forall₂ ConflictPropagation.Agrees
    s.domain.conflictPropagations.toList d.conflictPropagations.toList) :
    NamesKept s { s with domain := d } := by
  refine ⟨fun index p hp => ?_, fun index p' hp' id literals hknown => ?_,
    fun _ pool hpool => ⟨pool, hpool, Nat.le_refl _, fun _ _ _ hget => hget⟩⟩
  · obtain ⟨p', hp', hagrees⟩ := Domain.forall₂_getElem? h.flip hp
    exact ⟨p', hp', hagrees.pool⟩
  · obtain ⟨p, hp, hagrees⟩ := Domain.forall₂_getElem? h hp'
    exact ⟨p, hp, hagrees.pool, .inl (hagrees.known ▸ hknown)⟩

theorem NamesKept.of_same
    (hpropagations : s'.domain.conflictPropagations = s.domain.conflictPropagations)
    (hpools : s'.pools.conflicts = s.pools.conflicts) : NamesKept s s' :=
  ⟨fun _ p hp => ⟨p, hpropagations ▸ hp, rfl⟩,
    fun _ p hp _ _ hknown => ⟨p, hpropagations ▸ hp, rfl, .inl hknown⟩,
    fun _ pool hpool => ⟨pool, hpools ▸ hpool, Nat.le_refl _, fun _ _ _ hget => hget⟩⟩

/-- A step of a pool gives identifiers that were not in use. -/
theorem NamesKept.onConflictPool {i : PoolId} {p p' : ConflictPool α}
    {P : List (BoundChange α) → Prop} (hp : s.pools.conflicts[i]? = some p)
    (hstep : PoolRecord.Step P p.record p'.record) :
    NamesKept s
      { s with pools := { s.pools with conflicts := s.pools.conflicts.setIfInBounds i p' } } := by
  refine ⟨fun _ p hp => ⟨p, hp, rfl⟩, fun _ p hp _ _ hknown => ⟨p, hp, rfl, .inl hknown⟩,
    fun j pool hpool => ?_⟩
  by_cases hij : i = j
  · subst hij
    obtain rfl := Option.some.inj (hp.symm.trans hpool)
    refine ⟨p', Array.getElem?_setIfInBounds_self_of_lt (Array.getElem?_eq_some_iff.mp hp).1, ?_⟩
    cases hstep with
    | keep hkeeps => exact ⟨hkeeps.size.ge, fun id literals _ => hkeeps.entry? id literals⟩
    | insert entry _ _ hsize hentry =>
        refine ⟨hsize ▸ Nat.le_succ _, fun id literals hlt hget => ?_⟩
        have hold := hentry id
        rw [if_neg (Nat.ne_of_lt hlt)] at hold
        exact hold.symm.trans hget
  · exact ⟨pool, (Array.getElem?_setIfInBounds_ne hij).trans hpool, Nat.le_refl _,
      fun _ _ _ hget => hget⟩

/-- Reading the news of a pool keeps the names. -/
theorem NamesKept.readConflicts {index : Nat} {p p' : ConflictPropagation α} {pool : ConflictPool α}
    (hindex : s.domain.conflictPropagations[index]? = some p)
    (hpool : s.pools.conflicts[p.pool]? = some pool) (h : ConflictPropagation.Reads pool p p') :
    NamesKept s { s with domain := { s.domain with
      conflictPropagations := s.domain.conflictPropagations.setIfInBounds index p' } } := by
  refine ⟨fun j q hq => ?_, fun j q hq id literals hknown => ?_,
    fun _ pool hpool => ⟨pool, hpool, Nat.le_refl _, fun _ _ _ hget => hget⟩⟩
  · by_cases hij : index = j
    · subst hij
      obtain rfl := Option.some.inj (hindex.symm.trans hq)
      exact ⟨p', Array.getElem?_setIfInBounds_self_of_lt (Array.getElem?_eq_some_iff.mp hindex).1,
        h.pool_eq⟩
    · exact ⟨q, (Array.getElem?_setIfInBounds_ne hij).trans hq, rfl⟩
  · rcases of_getElem?_setIfInBounds hq with ⟨rfl, rfl⟩ | ⟨-, hq⟩
    · exact ⟨p, hindex, h.pool_eq, (h.known id literals hknown).imp_right fun hget =>
        ⟨pool, hpool, hget⟩⟩
    · exact ⟨q, hq, rfl, .inl hknown⟩

theorem NamesOnce.onConflictPool (h : s.NamesOnce) {i : PoolId} {p p' : ConflictPool α}
    {P : List (BoundChange α) → Prop} (hp : s.pools.conflicts[i]? = some p)
    (hstep : PoolRecord.Step P p.record p'.record) :
    NamesOnce
      { s with pools := { s.pools with conflicts := s.pools.conflicts.setIfInBounds i p' } } := by
  intro j pool hpool
  rcases of_getElem?_setIfInBounds hpool with ⟨-, rfl⟩ | ⟨-, hpool⟩
  · exact (h i p hp).step hstep
  · exact h j pool hpool

end PropagationState

section Steps

variable {s s' : PropagationState Exact} {op : Operation Exact}

/-- Propagation keeps the names of conflicts. -/
theorem Advance.namesKept (hsettled : s.Settled (.exact .any)) (hadvance : Advance s s') :
    s.NamesKept s' := by
  cases hadvance with
  | requeue hrequeued => exact .of_agrees hrequeued.conflicts
  | refresh hrefresh =>
      rw [Domain.refreshActivity_eq_ok hrefresh]
      exact .of_same rfl rfl
  | readCuts _ _ _ _ => exact .of_same rfl rfl
  | readConflicts hindex hpool hread _ =>
      exact .readConflicts hindex hpool (ConflictPropagation.synchronise_reads hread)
  | change changes hderived hchanges =>
      obtain ⟨-, hcarried⟩ := hsettled.domain.changeBounds (fun y hy =>
        Exact.derives_any _ _ _ _ hsettled.domain hsettled.literals rfl (hderived y hy)) hchanges
      exact .of_agrees hcarried.conflicts
  | refute _ =>
      rw [Domain.markInfeasible_eq]
      exact .of_same rfl rfl
  | @renew pools pools' d pool id hrenew =>
      simp only [Pools.onConflicts, Pools.conflictPool, bind_eq_ok, pure_eq_ok, fetch_eq_ok,
        store_eq_ok, Prod.mk.injEq, true_and] at hrenew
      obtain ⟨p, hp, _, ⟨-, rfl⟩, rfl⟩ := hrenew
      refine .onConflictPool (P := fun _ => False) hp (.keep ?_)
      rw [p.resetAge_record]
      exact .refl _

theorem Advance.namesOnce (h : s.NamesOnce) (hadvance : Advance s s') : s'.NamesOnce := by
  obtain ⟨-, -, hconflicts⟩ := hadvance.contents
  intro i pool' hpool'
  obtain ⟨pool, hpool, hrecord⟩ := hconflicts i pool' hpool'
  exact hrecord ▸ h i pool hpool

/-- Operations that do not move bounds keep the names of conflicts. -/
theorem Operation.namesKept (hmoves : op.movesBounds = false) (hperform : op.perform s = .ok s') :
    s.NamesKept s' := by
  cases op with
  | newCutPool ageLimit =>
      cases hperform
      exact .of_same rfl rfl
  | newConflictPool ageLimit softLimit =>
      cases hperform
      refine ⟨fun _ p hp => ⟨p, hp, rfl⟩, fun _ p hp _ _ hknown => ⟨p, hp, rfl, .inl hknown⟩,
        fun i pool hpool => ⟨pool, ?_, Nat.le_refl _, fun _ _ _ hget => hget⟩⟩
      exact (Array.getElem?_push_lt (Array.getElem?_eq_some_iff.mp hpool).1).trans
        (congrArg some (Array.getElem?_eq_some_iff.mp hpool).2)
  | insertCut _ _ _ | removeCut _ _ | ageCuts _ _ =>
      obtain ⟨p, -, rfl⟩ := PropagationState.onCutPool_eq_ok hperform
      exact .of_same rfl rfl
  | addConflict pool literals =>
      obtain ⟨p, hp, rfl⟩ := PropagationState.onConflictPool_eq_ok hperform
      exact .onConflictPool hp (p.add_step literals)
  | removeConflict pool id =>
      obtain ⟨p, hp, rfl⟩ := PropagationState.onConflictPool_eq_ok hperform
      exact .onConflictPool (P := fun _ => False) hp (.keep (p.remove_keeps id))
  | resetAge pool id =>
      obtain ⟨p, hp, rfl⟩ := PropagationState.onConflictPool_eq_ok hperform
      refine .onConflictPool (P := fun _ => False) hp (.keep ?_)
      rw [p.resetAge_record]
      exact .refl _
  | ageConflicts pool =>
      obtain ⟨p, hp, rfl⟩ := PropagationState.onConflictPool_eq_ok hperform
      exact .onConflictPool (P := fun _ => False) hp (.keep p.age_keeps)
  | attachConflicts pool =>
      rw [perform, PropagationState.onDomain_eq_ok] at hperform
      obtain ⟨d', hd', rfl⟩ := hperform
      cases hd'
      refine ⟨fun i p hp => ⟨p, ?_, rfl⟩, fun i p hp id literals hknown => ?_,
        fun _ pool hpool => ⟨pool, hpool, Nat.le_refl _, fun _ _ _ hget => hget⟩⟩
      · exact (Array.getElem?_push_lt (Array.getElem?_eq_some_iff.mp hp).1).trans
          (congrArg some (Array.getElem?_eq_some_iff.mp hp).2)
      · rcases Domain.of_getElem?_push hp with hp | ⟨-, rfl⟩
        · exact ⟨p, hp, rfl, .inl hknown⟩
        · simp [ConflictPropagation.known, ConflictPropagation.ofPool, Slots.get?_empty] at hknown
  | attachCuts _ | setCliques _ | setVariableBounds _ | clearMoved =>
      rw [perform, PropagationState.onDomain_eq_ok] at hperform
      obtain ⟨d', hd', rfl⟩ := hperform
      cases hd'
      exact .of_same rfl rfl
  | setupObjective partitions =>
      rw [perform, PropagationState.onDomain_eq_ok] at hperform
      obtain ⟨d', hd', rfl⟩ := hperform
      rw [Domain.setupObjective_eq_ok hd']
      exact .of_same rfl rfl
  | setObjectiveCutoff cutoff =>
      rw [perform, PropagationState.onDomain_eq_ok] at hperform
      obtain ⟨d', hd', rfl⟩ := hperform
      cases hd'
      rw [Domain.setObjectiveCutoff_eq]
      exact .of_same rfl rfl
  | refreshActivities =>
      rw [perform, PropagationState.onDomain_eq_ok] at hperform
      obtain ⟨d', hd', rfl⟩ := hperform
      rw [Domain.refreshActivities_eq_ok hd']
      exact .of_same rfl rfl
  | markInfeasible reason =>
      rw [perform, PropagationState.onDomain_eq_ok] at hperform
      obtain ⟨d', hd', rfl⟩ := hperform
      cases hd'
      rw [Domain.markInfeasible_eq]
      exact .of_same rfl rfl
  | _ => cases hmoves

theorem Operation.namesOnce (h : s.NamesOnce) (hmoves : op.movesBounds = false)
    (hperform : op.perform s = .ok s') : s'.NamesOnce := by
  cases op with
  | newCutPool ageLimit =>
      cases hperform
      exact h
  | newConflictPool ageLimit softLimit =>
      cases hperform
      intro i pool hpool
      rcases Domain.of_getElem?_push hpool with hpool | ⟨-, rfl⟩
      · exact h i pool hpool
      · exact ConflictPool.record_empty ageLimit softLimit
  | insertCut _ _ _ | removeCut _ _ | ageCuts _ _ =>
      obtain ⟨p, -, rfl⟩ := PropagationState.onCutPool_eq_ok hperform
      exact h
  | addConflict pool literals =>
      obtain ⟨p, hp, rfl⟩ := PropagationState.onConflictPool_eq_ok hperform
      exact h.onConflictPool hp (p.add_step literals)
  | removeConflict pool id =>
      obtain ⟨p, hp, rfl⟩ := PropagationState.onConflictPool_eq_ok hperform
      exact h.onConflictPool (P := fun _ => False) hp (.keep (p.remove_keeps id))
  | resetAge pool id =>
      obtain ⟨p, hp, rfl⟩ := PropagationState.onConflictPool_eq_ok hperform
      refine h.onConflictPool (P := fun _ => False) hp (.keep ?_)
      rw [p.resetAge_record]
      exact .refl _
  | ageConflicts pool =>
      obtain ⟨p, hp, rfl⟩ := PropagationState.onConflictPool_eq_ok hperform
      exact h.onConflictPool (P := fun _ => False) hp (.keep p.age_keeps)
  | attachCuts _ | attachConflicts _ | setCliques _ | setVariableBounds _ | setupObjective _
  | setObjectiveCutoff _ | refreshActivities | clearMoved | markInfeasible _ =>
      rw [perform, PropagationState.onDomain_eq_ok] at hperform
      obtain ⟨d', -, rfl⟩ := hperform
      exact h
  | _ => cases hmoves

end Steps

end BranchBound
