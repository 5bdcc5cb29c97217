import BranchBound.Proofs.Domain.FollowingRuns
import BranchBound.Proofs.Domain.Unrolling

/-!
# Domains that share pools

Any number of domains may follow the same pools, each at its own pace, while entries are inserted,
removed and aged. An `Ensemble` is a number of domains with the pools they share, and its runs
interleave everything that can be done to them. However they do so, the events of a pool account for
its entries, and a domain that is propagated and stays feasible holds just the entries which its
pools have at that moment, listed under their columns.
-/

namespace BranchBound

open Checked Exact

variable {α : Type}

/-- Some domains with the pools that they share. -/
structure Ensemble (α : Type) where
  pools : Pools α
  domains : Array (Domain α)

namespace CutPool

/-- The events of a pool account for its cuts, the pool counts them, and the next identifier that it
gives was never used. -/
structure Accounted [Scalar α] (p : CutPool α) : Prop where
  balanced : p.ledger.Balanced
  size : p.size = p.toList.length
  unused : ∀ cut ageLimit id, (p.insertWithAgeLimit cut ageLimit).1 = some id →
    .added id ∉ p.events.toList ∧ .removed id ∉ p.events.toList

theorem accounted [Scalar α] {p : CutPool α} (h : p.ledger.Balanced) : p.Accounted := by
  refine ⟨h, ?_, fun cut ageLimit id hid => ?_⟩
  · rw [← List.length_map Prod.fst, map_fst_toList, h.length_live]
    rfl
  · rw [insertWithAgeLimit_fst hid]
    exact h.size_unused

end CutPool

namespace ConflictPool

/-- The events of a pool account for its conflicts, the pool counts them, and the next identifier
that it gives was never used. -/
structure Accounted [Scalar α] (p : ConflictPool α) : Prop where
  balanced : p.ledger.Balanced
  size : p.size = p.toList.length
  unused : ∀ literals id, (p.add literals).1 = some id →
    .added id ∉ p.events.toList ∧ .removed id ∉ p.events.toList

theorem accounted [Scalar α] {p : ConflictPool α} (h : p.ledger.Balanced) : p.Accounted := by
  refine ⟨h, ?_, fun literals id hid => ?_⟩
  · rw [← List.length_map Prod.fst, map_fst_toList, h.length_live]
    rfl
  · rw [add_fst hid]
    exact h.size_unused

end ConflictPool

/-- The entries found under some identifiers, one after the other. -/
theorem flatMap_filterMap {β γ : Type} (ids : List Nat) (lookup : Nat → Option β)
    (f : Nat × β → List γ) :
    (ids.filterMap fun id => (lookup id).map fun x => (id, x)).flatMap f =
      ids.flatMap fun id => (lookup id).elim [] fun x => f (id, x) := by
  induction ids with
  | nil => rfl
  | cons id rest ih => cases hentry : lookup id <;> simp [hentry, ih]

/-- A domain knows the cuts of a pool, and lists under every column the cuts over it with their
coefficients there. -/
structure CutPropagation.Mirrors (columnCount : Nat) (p : CutPropagation α) (pool : CutPool α) :
    Prop where
  known : ∀ id, (p.cuts.get? id).map PropagatedCut.cut = pool.get? id
  listed : ∀ c < columnCount, p.occurrences[c]? = some (pool.toList.flatMap fun (id, pooled) =>
    (pooled.cut.entries.filter fun e => e.1 = c).map fun e => (id, e.2))

/-- A domain knows the conflicts of a pool, and lists under every column the conflicts over it. -/
structure ConflictPropagation.Mirrors (columnCount : Nat) (p : ConflictPropagation α)
    (pool : ConflictPool α) : Prop where
  known : ∀ id, (p.conflicts.get? id).map PropagatedConflict.literals = pool.get? id
  listed : ∀ c < columnCount, p.occurrences[c]? = some ((pool.toList.filter fun (_, pooled) =>
    pooled.literals.any fun l => l.column = c).map Prod.fst)

/-- A domain mirrors every pool that is attached to it. -/
structure Domain.Mirrors (d : Domain α) (pools : Pools α) : Prop where
  cuts : ∀ (i : Nat) p, d.cutPropagations[i]? = some p →
    ∃ pool, pools.cuts[p.pool]? = some pool ∧ p.Mirrors d.columnCount pool
  conflicts : ∀ (i : Nat) p, d.conflictPropagations[i]? = some p →
    ∃ pool, pools.conflicts[p.pool]? = some pool ∧ p.Mirrors d.columnCount pool

/-- Having read all events a domain mirrors a cut pool. -/
theorem CutPropagation.mirrors {columnCount : Nat} {p : CutPropagation α} {pool : CutPool α}
    (hbalanced : pool.ledger.Balanced)
    (hfollows : p.follower.Follows listing columnCount pool.ledger)
    (hseen : p.seen = pool.ledger.events.length) : p.Mirrors columnCount pool := by
  have hread := hfollows.read
  rw [show p.follower.seen = pool.ledger.events.length from hseen, List.drop_length] at hread
  refine ⟨fun id => ?_, fun c hc => ?_⟩
  · refine Eq.trans ?_ (hread.known_eq hbalanced id)
    change _ = (p.known id).map Prod.fst
    rw [CutPropagation.known, Option.map_map]
    rfl
  · have hkeys : pool.cuts.keys = List.range pool.ledger.size := List.map_id _
    refine (hread.occurrences_eq hbalanced hc).trans (congrArg some ?_)
    rw [CutPool.toList, hkeys, flatMap_filterMap, Listing.under]
    refine List.flatMap_congr fun id _ => ?_
    change ((pool.pooled? id).map PooledCut.cut).elim [] _ = _
    cases pool.pooled? id <;> rfl

/-- The conflicts over a column, found by looking at each of them. -/
theorem ConflictPropagation.chosen_over (c : ColumnId)
    (items : List (ConflictId × PooledConflict α)) :
    (items.filter fun (_, pooled) => pooled.literals.any fun l => l.column = c).map Prod.fst =
      items.flatMap fun item => listing.listed c item.1 item.2.literals := by
  induction items with
  | nil => rfl
  | cons item rest ih =>
      have hsays : listing.listed c item.1 item.2.literals =
          if item.2.literals.filter (fun l => l.column = c) = [] then [] else [item.1] := rfl
      have hany : (item.2.literals.any fun l => l.column = c) = true ↔
          item.2.literals.filter (fun l => l.column = c) ≠ [] := by
        rw [List.any_eq_true, Ne, List.filter_eq_nil_iff]
        simp
      rw [List.flatMap_cons, ← ih, List.filter_cons, hsays]
      by_cases hover : item.2.literals.filter (fun l => l.column = c) = []
      · rw [if_neg (fun hmem => hany.mp hmem hover), if_pos hover, List.nil_append]
      · rw [if_pos (hany.mpr hover), if_neg hover, List.map_cons, List.singleton_append]

/-- Having read all events a domain mirrors a conflict pool. -/
theorem ConflictPropagation.mirrors {columnCount : Nat} {p : ConflictPropagation α}
    {pool : ConflictPool α} (hbalanced : pool.ledger.Balanced)
    (hfollows : p.follower.Follows listing columnCount pool.ledger)
    (hseen : p.seen = pool.ledger.events.length) : p.Mirrors columnCount pool := by
  have hread := hfollows.read
  rw [show p.follower.seen = pool.ledger.events.length from hseen, List.drop_length] at hread
  refine ⟨fun id => hread.known_eq hbalanced id, fun c hc => ?_⟩
  have hkeys : pool.conflicts.keys = List.range pool.ledger.size := List.map_id _
  refine (hread.occurrences_eq hbalanced hc).trans (congrArg some ?_)
  rw [chosen_over, ConflictPool.toList, hkeys, flatMap_filterMap, Listing.under]
  refine List.flatMap_congr fun id _ => ?_
  change ((pool.pooled? id).map PooledConflict.literals).elim [] _ = _
  cases pool.pooled? id <;> rfl

variable [Scalar α]

namespace Ensemble

def empty : Ensemble α := ⟨.empty, #[]⟩

/-- Something is done to one of the domains or to the pools. -/
inductive Step : Ensemble α → Ensemble α → Prop
  /-- A domain of some model joins. -/
  | start {e : Ensemble α} {model : Model α} {feastol : α} {d : Domain α}
      (h : Domain.ofModel model feastol = .ok d) : Step e { e with domains := e.domains.push d }
  /-- A copy of a domain joins, which follows the pools from where the domain stands. -/
  | clone {e : Ensemble α} {i : Nat} {d : Domain α} (h : e.domains[i]? = some d) :
      Step e { e with domains := e.domains.push d }
  /-- An operation is performed on a domain or on the pools. -/
  | perform {e : Ensemble α} {i : Nat} {d : Domain α} {op : Operation α} {s : PropagationState α}
      (h : e.domains[i]? = some d) (hperform : op.perform ⟨e.pools, d⟩ = .ok s) :
      Step e ⟨s.pools, e.domains.setIfInBounds i s.domain⟩
  /-- Somebody outside of the ensemble uses the pools. -/
  | tend {e : Ensemble α} {d : Domain α} {op : Operation α} {s : PropagationState α}
      (hperform : op.perform ⟨e.pools, d⟩ = .ok s) : Step e { e with pools := s.pools }

/-- The ensembles that come about from nothing. -/
abbrev Reachable : Ensemble α → Prop := Relation.ReflTransGen Step empty

theorem Reachable.performAll {e : Ensemble α} {i : Nat} {d : Domain α} {ops : List (Operation α)}
    {s : PropagationState α} (h : Reachable e) (hi : e.domains[i]? = some d)
    (hall : ops.foldlM (fun s op => op.perform s) ⟨e.pools, d⟩ = .ok s) :
    Reachable ⟨s.pools, e.domains.setIfInBounds i s.domain⟩ := by
  obtain ⟨hlt, hd⟩ := Array.getElem?_eq_some_iff.mp hi
  refine foldlM_keeps (P := fun t : PropagationState α =>
    Reachable ⟨t.pools, e.domains.setIfInBounds i t.domain⟩) (fun t op t' _ ht hperform => ?_) hall
      ?_
  · have hstep := ht.tail (.perform (i := i) (Array.getElem?_setIfInBounds_self_of_lt hlt) hperform)
    simpa only [Array.setIfInBounds_setIfInBounds] using hstep
  · have hsame : e.domains.setIfInBounds i d = e.domains := by
      rw [← hd, Array.setIfInBounds, dif_pos hlt, Array.set_getElem_self]
    rwa [hsame]

/-- The ledgers are balanced, and every domain observes the pools. -/
structure Orderly (e : Ensemble α) : Prop where
  pools : e.pools.Balanced
  domains : ∀ d ∈ e.domains, d.Observes e.pools

variable {e e' : Ensemble α}

theorem Orderly.step (h : e.Orderly) (hstep : Step e e') : e'.Orderly := by
  cases hstep with
  | start hstart =>
      refine ⟨h.pools, fun d hd => ?_⟩
      rcases Array.mem_push.mp hd with hd | rfl
      · exact h.domains d hd
      · exact Domain.ofModel_observes hstart e.pools
  | clone hclone =>
      refine ⟨h.pools, fun d hd => ?_⟩
      rcases Array.mem_push.mp hd with hd | rfl
      · exact h.domains d hd
      · exact h.domains d (Array.mem_of_getElem? hclone)
  | perform hi hperform =>
      have hobserves := Operation.observes h.pools (h.domains _ (Array.mem_of_getElem? hi)) hperform
      have hdevelops := Operation.develops hperform
      refine ⟨h.pools.develops hdevelops, fun d hd => ?_⟩
      rcases Array.mem_or_eq_of_mem_setIfInBounds hd with hd | rfl
      · exact (h.domains d hd).develops h.pools hdevelops
      · exact hobserves
  | tend hperform =>
      have hdevelops := Operation.develops hperform
      exact ⟨h.pools.develops hdevelops, fun d hd => (h.domains d hd).develops h.pools hdevelops⟩

theorem Reachable.orderly (h : Reachable e) : e.Orderly := by
  induction h with
  | refl => exact ⟨Pools.empty_balanced, fun d hd => absurd hd (by simp [empty])⟩
  | tail _ hstep ih => exact ih.step hstep

/-- The events of every shared pool account for its entries, and a domain that propagation leaves
feasible mirrors every pool that is attached to it. -/
theorem propagated_domain_mirrors_pools (h : Reachable e) :
    (∀ (i : Nat) pool, e.pools.cuts[i]? = some pool → pool.Accounted) ∧
      (∀ (i : Nat) pool, e.pools.conflicts[i]? = some pool → pool.Accounted) ∧
      ∀ (i : Nat) d pools d', e.domains[i]? = some d → d.propagate e.pools = .ok (pools, d') →
        d'.infeasible = none → d'.Mirrors pools := by
  obtain ⟨hpools, hdomains⟩ := h.orderly
  refine ⟨fun i pool hpool => CutPool.accounted ?_, fun i pool hpool => ConflictPool.accounted ?_,
    fun i d pools d' hd hpropagate hfeasible => ?_⟩
  · exact Pools.cutLedger_eq hpool ▸ hpools.cuts i
  · exact Pools.conflictLedger_eq hpool ▸ hpools.conflicts i
  have hobserves := hdomains d (Array.mem_of_getElem? hd)
  obtain ⟨hbalanced, hobserves'⟩ :=
    (Domain.propagate_advances hpropagate).observes hpools hobserves
  simp only [Domain.propagate, bind_eq_ok, pure_eq_ok, Prod.mk.injEq] at hpropagate
  obtain ⟨⟨_, after⟩, hfinish, rfl, rfl⟩ := hpropagate
  have hread := PropagationStep.propagate_upToDate hpools hobserves (Action.finish_eq_ok.mp hfinish)
    hfeasible
  refine ⟨fun i p hp => ?_, fun i p hp => ?_⟩
  · obtain ⟨hlt, hseen⟩ := hread .cut i p hp
    have hpool := Array.getElem?_eq_getElem hlt
    have hledger := Pools.cutLedger_eq hpool
    refine ⟨_, hpool, CutPropagation.mirrors ?_ ?_ ?_⟩
    · exact hledger ▸ hbalanced.cuts p.pool
    · exact hledger ▸ hobserves'.cuts i p hp
    · exact hledger ▸ hseen
  · obtain ⟨hlt, hseen⟩ := hread .conflict i p hp
    have hpool := Array.getElem?_eq_getElem hlt
    have hledger := Pools.conflictLedger_eq hpool
    refine ⟨_, hpool, ConflictPropagation.mirrors ?_ ?_ ?_⟩
    · exact hledger ▸ hbalanced.conflicts p.pool
    · exact hledger ▸ hobserves'.conflicts i p hp
    · exact hledger ▸ hseen

/-- Two binary columns of which at least one is one. -/
def shared : Draft Exact :=
  ⟨#[⟨1, 0, 1, .integer⟩, ⟨1, 0, 1, .integer⟩], #[⟨1, Scalar.infinity, [(0, 1), (1, 1)]⟩], 0⟩

/-- A pool of either kind is attached, and a cut is read. -/
def attachments : List (Operation Exact) :=
  [.newCutPool 0, .newConflictPool 5 5, .attachCuts 0, .attachConflicts 0,
    .insertCut 0 ⟨[(0, 2), (1, 1)], 2⟩ 3, .propagate]

/-- A cut comes and goes, the first one is removed, and others come; one cut is too old after
that. -/
def turnover : List (Operation Exact) :=
  [.insertCut 0 ⟨[(1, 2)], 2⟩ 3, .removeCut 0 1, .removeCut 0 0, .insertCut 0 ⟨[(0, 1), (1, 2)], 3⟩
    3,
    .insertCut 0 ⟨[(0, 1)], 5⟩ 0, .ageCuts 0 [2], .addConflict 0 [.atLeast 0 1, .atLeast 1 1],
    .changeBound (.atLeast 0 1) .branching, .propagate]

/-- A copy of a domain reads what happened to the pools while only the domain itself was used. -/
theorem copy_mirrors_pools :
    ∃ (e : Ensemble Exact) (d d' : Domain Exact) (pools : Pools Exact), Reachable e ∧
      e.domains[1]? = some d ∧ d.propagate e.pools = .ok (pools, d') ∧ d'.infeasible = none ∧
      d.cutPropagations.map CutPropagation.seen = #[1] ∧
      pools.cuts.map CutPool.events = #[#[.added 0, .added 1, .removed 1, .removed 0, .added 2,
        .added 3, .removed 3]] ∧
      d'.Mirrors pools := by
  have hrun : passes shared.build (fun model =>
      passes (Domain.ofModel model (number (1 / 1000000))) fun start =>
        passes (attachments.foldlM (fun s op => op.perform s) ⟨.empty, start⟩) fun s =>
          passes (turnover.foldlM (fun s op => op.perform s) s) fun t =>
            passes (s.domain.propagate t.pools) fun after =>
              after.2.infeasible.isNone &&
                s.domain.cutPropagations.map CutPropagation.seen == #[1] &&
                after.1.cuts.map CutPool.events == #[#[.added 0, .added 1, .removed 1, .removed 0,
                  .added 2, .added 3, .removed 3]]) = true := by
    rw [(Operation.performUnrolled 100).property, (Domain.propagateUnrolled 100).property]
    decide +kernel
  obtain ⟨model, -, hrun⟩ := passes_eq_true.mp hrun
  obtain ⟨start, hstart, hrun⟩ := passes_eq_true.mp hrun
  obtain ⟨s, hs, hrun⟩ := passes_eq_true.mp hrun
  obtain ⟨t, ht, hrun⟩ := passes_eq_true.mp hrun
  obtain ⟨⟨pools, d'⟩, hpropagate, hrun⟩ := passes_eq_true.mp hrun
  simp only [Bool.and_eq_true, beq_iff_eq, Option.isNone_iff_eq_none] at hrun
  obtain ⟨⟨hfeasible, hseen⟩, hevents⟩ := hrun
  have hfirst : Reachable (⟨s.pools, #[s.domain]⟩ : Ensemble Exact) :=
    Reachable.performAll (.single (.start hstart)) (i := 0) rfl hs
  have hcopy : Reachable (⟨s.pools, #[s.domain, s.domain]⟩ : Ensemble Exact) :=
    hfirst.tail (.clone (i := 0) rfl)
  have hused : Reachable (⟨t.pools, #[t.domain, s.domain]⟩ : Ensemble Exact) :=
    hcopy.performAll (i := 0) rfl ht
  exact ⟨_, s.domain, d', pools, hused, rfl, hpropagate, hfeasible, hseen, hevents,
    (propagated_domain_mirrors_pools hused).2.2 1 s.domain pools d' rfl hpropagate hfeasible⟩

end Ensemble

end BranchBound
