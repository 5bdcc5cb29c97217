import BranchBound.Conflict.Analysis
import BranchBound.Proofs.Conflict.EarlierPositions

/-!
# Resolving a conflict set

Every step of a resolution replaces the last position of a set by earlier ones, so a resolution
ends. What is learned are the literals of the sets on the way: while the resolution goes on, only of
sets with a single position on their deepest level. All other literals still hold when that level is
undone, so the negation of the last one follows there.
-/

namespace BranchBound

open Checked

variable {α : Type}

namespace ConflictSet

variable {s : ConflictSet} {p first : Nat} {positions : List Nat}

theorem mem_insertPosition {q : Nat} : q ∈ insertPosition p positions ↔ q = p ∨ q ∈ positions := by
  induction positions with
  | nil => simp [insertPosition]
  | cons r rest ih =>
      rw [insertPosition]
      split
      · exact List.mem_cons
      · split
        · next heq =>
            rw [beq_iff_eq.mp heq, List.mem_cons, or_self_left]
        · rw [List.mem_cons, ih, List.mem_cons, or_left_comm]

theorem insertPosition_increasing (h : positions.Pairwise (· < ·)) :
    (insertPosition p positions).Pairwise (· < ·) := by
  induction positions with
  | nil => exact List.pairwise_singleton _ _
  | cons q rest ih =>
      obtain ⟨hfirst, hrest⟩ := List.pairwise_cons.mp h
      rw [insertPosition]
      split
      · next hlt =>
          refine List.pairwise_cons.mpr ⟨fun r hr => ?_, h⟩
          rcases List.mem_cons.mp hr with rfl | hr
          · exact hlt
          · exact hlt.trans (hfirst r hr)
      · next hnot =>
          split
          · exact h
          · next hne =>
              refine List.pairwise_cons.mpr ⟨fun r hr => ?_, ih hrest⟩
              rcases mem_insertPosition.mp hr with rfl | hr
              · have hne : r ≠ q := by simpa using hne
                omega
              · exact hfirst r hr

/-- Only positions in the local part of the log are inserted. -/
theorem mem_insert :
    p ∈ (s.insert first positions).positions ↔ p ∈ s.positions ∨ p ∈ positions ∧ first ≤ p := by
  have hfold : ∀ (found : List Nat) (set : List Nat),
      p ∈ found.foldl (fun set p => insertPosition p set) set ↔ p ∈ set ∨ p ∈ found := by
    intro found
    induction found with
    | nil => simp
    | cons q rest ih =>
        intro set
        rw [List.foldl_cons, ih, mem_insertPosition, List.mem_cons, or_assoc, or_left_comm]
  rw [insert, hfold, List.mem_filter, decide_eq_true_eq]

theorem insert_increasing (h : s.positions.Pairwise (· < ·)) :
    (s.insert first positions).positions.Pairwise (· < ·) := by
  unfold insert
  dsimp only
  generalize positions.filter (first ≤ ·) = found
  generalize s.positions = set at h
  induction found generalizing set with
  | nil => exact h
  | cons q rest ih => exact ih _ (insertPosition_increasing h)

theorem mem_erase {q : Nat} : q ∈ (s.erase p).positions ↔ q ∈ s.positions ∧ q ≠ p := by
  simp [erase]

end ConflictSet

namespace Domain

section Literals

variable {entries : List (LogEntry α)} {entry : LogEntry α} {l : BoundChange α}

/-- The literals of a list of entries are among their changes. -/
theorem mem_tightestChanges (h : l ∈ tightestChanges entries) :
    ∃ entry ∈ entries, entry.change = l := by
  induction entries with
  | nil => cases h
  | cons entry rest ih =>
      have hrest (hmem : l ∈ tightestChanges rest) : ∃ e ∈ entry :: rest, e.change = l :=
        have ⟨e, he, hl⟩ := ih hmem
        ⟨e, List.mem_cons_of_mem _ he, hl⟩
      rw [tightestChanges] at h
      split at h
      · exact hrest h
      · rcases List.mem_cons.mp h with rfl | h
        · exact ⟨entry, List.mem_cons_self .., rfl⟩
        · exact hrest h

/-- The last change of a list of entries is a literal, after those of the others. -/
theorem tightestChanges_append (entries : List (LogEntry α)) (entry : LogEntry α) :
    ∃ others, tightestChanges (entries ++ [entry]) = others ++ [entry.change] ∧
      ∀ l ∈ others, ∃ e ∈ entries, e.change = l := by
  induction entries with
  | nil => exact ⟨[], rfl, nofun⟩
  | cons first rest ih =>
      obtain ⟨others, heq, hothers⟩ := ih
      have hlater : ∀ l ∈ others, ∃ e ∈ first :: rest, e.change = l := fun l hl =>
        have ⟨e, he, hchange⟩ := hothers l hl
        ⟨e, List.mem_cons_of_mem _ he, hchange⟩
      rw [List.cons_append, tightestChanges, heq]
      split
      · exact ⟨others, rfl, hlater⟩
      · refine ⟨first.change :: others, rfl, fun l hl => ?_⟩
        rcases List.mem_cons.mp hl with rfl | hl
        · exact ⟨first, List.mem_cons_self .., rfl⟩
        · exact hlater l hl

/-- No two literals of a list of entries are over one bound. -/
theorem tightestChanges_pairwise (entries : List (LogEntry α)) :
    (tightestChanges entries).Pairwise fun l l' => ¬(l.column = l'.column ∧ l.side = l'.side) := by
  induction entries with
  | nil => exact .nil
  | cons entry rest ih =>
      rw [tightestChanges]
      split
      · exact ih
      · next hlast =>
          refine List.pairwise_cons.mpr ⟨fun l hl hsame => ?_, ih⟩
          obtain ⟨later, hlater, rfl⟩ := mem_tightestChanges hl
          refine hlast (List.any_eq_true.mpr ⟨later, hlater, ?_⟩)
          simp [hsame.1, hsame.2]

/-- Where the literals of entries hold, all of the changes do, if later changes of a bound are
tighter than earlier ones. -/
theorem holds_of_tightestChanges [Scalar α] {R : Reading α}
    (htight : entries.Pairwise fun e later => later.change.column = e.change.column →
      later.change.side = e.change.side →
        e.change.side.tightOrEqual later.change.value e.change.value = true)
    (hliterals : ∀ l ∈ tightestChanges entries, R.Holds l) : ∀ e ∈ entries, R.Holds e.change := by
  induction entries with
  | nil => exact nofun
  | cons first rest ih =>
      obtain ⟨hfirst, hrest⟩ := List.pairwise_cons.mp htight
      rw [tightestChanges] at hliterals
      split at hliterals
      · next hlater =>
          have hall := ih hrest hliterals
          obtain ⟨later, hmem, hsame⟩ := List.any_eq_true.mp hlater
          rw [Bool.and_eq_true, beq_iff_eq, beq_iff_eq] at hsame
          have hholds := hall later hmem
          have htighter := hfirst later hmem hsame.1 hsame.2
          obtain ⟨⟨c, side, v⟩, reason, previous⟩ := later
          obtain ⟨rfl, rfl⟩ := hsame
          exact List.forall_mem_cons.mpr ⟨R.weaken hholds htighter, hall⟩
      · obtain ⟨hchange, hothers⟩ := List.forall_mem_cons.mp hliterals
        exact List.forall_mem_cons.mpr ⟨hchange, ih hrest hothers⟩

end Literals

section Levels

variable {d : Domain α} {p q k start : Nat}

/-- A local position is on some level. -/
theorem depthOf_pos (hlocal : d.globalLength ≤ p) (hlt : p < d.log.size) : 0 < d.depthOf p := by
  unfold globalLength at hlocal
  cases hfirst : d.branchings[0]? with
  | none =>
      rw [hfirst] at hlocal
      exact absurd hlt (Nat.not_lt.mpr hlocal)
  | some start =>
      rw [hfirst] at hlocal
      rw [← Array.getElem?_toList, ← List.head?_eq_getElem?] at hfirst
      obtain ⟨rest, hrest⟩ := List.head?_eq_some_iff.mp hfirst
      rw [depthOf, hrest, List.takeWhile_cons_of_pos (by simpa using hlocal)]
      exact Nat.succ_pos _

/-- The levels that were opened up to a position start at it or before. -/
theorem branchings_of_lt_depthOf (h : k < d.depthOf p) :
    ∃ start, d.branchings[k]? = some start ∧ start ≤ p := by
  rw [depthOf] at h
  have hget := List.IsPrefix.getElem (List.takeWhile_prefix (p := (· ≤ p))) h
  have hle := List.mem_takeWhile_imp (List.getElem_mem h)
  refine ⟨_, ?_, by simpa using hle⟩
  rw [hget, ← Array.getElem?_toList]
  exact List.getElem?_eq_getElem _

/-- What is before the start of a level is not on it. -/
theorem depthOf_le (hstart : d.branchings[k]? = some start) (hq : q < start) : d.depthOf q ≤ k := by
  by_contra hdepth
  obtain ⟨start', hstart', hle⟩ := branchings_of_lt_depthOf (Nat.lt_of_not_le hdepth)
  obtain rfl := Option.some.inj (hstart.symm.trans hstart')
  exact absurd hq (Nat.not_lt.mpr hle)

end Levels

section Resolving

variable [Scalar α] {d : Domain α} {pools : Pools α} {maxSize maxConflicts steps : Nat}
  {s s' : ConflictSet} {conflicts : List (List (BoundChange α))} {resolution : Resolution α}

/-- Only the last position of a set is on its deepest level. -/
def IsSingle (d : Domain α) (s : ConflictSet) : Prop :=
  ∃ deepest start, s.positions.getLast? = some deepest ∧
    d.branchings[d.depthOf deepest - 1]? = some start ∧
      (s.positions.filter (start ≤ ·)).length ≤ 1

/-- One step of a resolution: the last position of a set is replaced by what explains it. -/
def Resolves (d : Domain α) (pools : Pools α) (s s' : ConflictSet) : Prop :=
  ∃ deepest explanation, s.positions.getLast? = some deepest ∧
    d.explainChange pools deepest = .ok (some explanation) ∧
      s' = (s.erase deepest).insert d.globalLength explanation

/-- What is learned from a set: the literals of a set that it resolves to. -/
def Learns (d : Domain α) (pools : Pools α) (maxSize : Nat) (s : ConflictSet)
    (conflict : List (BoundChange α)) (t : ConflictSet) : Prop :=
  Relation.ReflTransGen (d.Resolves pools) s t ∧ d.literalsOf t = .ok conflict ∧
    conflict.length ≤ maxSize

theorem Learns.head {conflict : List (BoundChange α)} {t : ConflictSet}
    (hstep : d.Resolves pools s s')
    (h : d.Learns pools maxSize s' conflict t) : d.Learns pools maxSize s conflict t :=
  ⟨.head hstep h.1, h.2⟩

/-- What a resolution adds to the conflicts that were learned before: conflicts from sets on its
way, all but the last one from sets with a single position on their deepest level. -/
structure Adds (d : Domain α) (pools : Pools α) (maxSize maxConflicts : Nat) (s : ConflictSet)
    (conflicts learned : List (List (BoundChange α))) : Prop where
  count : conflicts.length ≤ maxConflicts → (conflicts ++ learned).length ≤ maxConflicts
  learns : ∀ c ∈ learned, ∃ t, d.Learns pools maxSize s c t
  single : ∀ c ∈ learned.dropLast, ∃ t, d.Learns pools maxSize s c t ∧ d.IsSingle t

theorem adds_nil : d.Adds pools maxSize maxConflicts s conflicts [] :=
  ⟨by simp, nofun, nofun⟩

theorem adds_last (hcount : ¬maxConflicts ≤ conflicts.length) {conflict : List (BoundChange α)}
    {t : ConflictSet} (h : d.Learns pools maxSize s conflict t) :
    d.Adds pools maxSize maxConflicts s conflicts [conflict] := by
  refine ⟨fun _ => ?_, fun c hc => List.mem_singleton.mp hc ▸ ⟨t, h⟩, nofun⟩
  rw [List.length_append, List.length_singleton]
  omega

variable {learned : List (List (BoundChange α))}

theorem Adds.head (hstep : d.Resolves pools s s')
    (h : d.Adds pools maxSize maxConflicts s' conflicts learned) :
    d.Adds pools maxSize maxConflicts s conflicts learned :=
  ⟨h.count, fun c hc => (h.learns c hc).imp fun _ => .head hstep,
    fun c hc => (h.single c hc).imp fun _ ht => ⟨ht.1.head hstep, ht.2⟩⟩

/-- A conflict from a set with a single position on its deepest level is added first. -/
theorem Adds.cons {conflict : List (BoundChange α)} {t : ConflictSet}
    (hmore : ¬maxConflicts ≤ (conflicts ++ [conflict]).length)
    (hconflict : d.Learns pools maxSize s conflict t) (hsingle : d.IsSingle t)
    (h : d.Adds pools maxSize maxConflicts s (conflicts ++ [conflict]) learned) :
    d.Adds pools maxSize maxConflicts s conflicts (conflict :: learned) := by
  refine ⟨fun _ => ?_, fun c hc => ?_, fun c hc => ?_⟩
  · rw [← List.singleton_append, ← List.append_assoc]
    exact h.count (Nat.le_of_not_le hmore)
  · rcases List.mem_cons.mp hc with rfl | hc
    · exact ⟨t, hconflict⟩
    · exact h.learns c hc
  · cases learned with
    | nil => cases hc
    | cons next rest =>
        rw [List.dropLast_cons_cons] at hc
        rcases List.mem_cons.mp hc with rfl | hc
        · exact ⟨t, hconflict, hsingle⟩
        · exact h.single c hc

/-- A resolution learns from the sets on its way, and goes on only after sets with a single position
on their deepest level. -/
theorem resolveWithin_adds
    (h : d.resolveWithin pools maxSize maxConflicts steps s conflicts = .ok resolution) :
    ∃ learned, resolution.conflicts = conflicts ++ learned ∧
      d.Adds pools maxSize maxConflicts s conflicts learned := by
  induction steps generalizing s conflicts with
  | zero => cases h
  | succ steps ih =>
      have hnothing : ∃ learned, conflicts = conflicts ++ learned ∧
          d.Adds pools maxSize maxConflicts s conflicts learned := ⟨[], by simp, adds_nil⟩
      rw [resolveWithin] at h
      split at h
      · cases h
        exact hnothing
      next hcount =>
      split at h
      · next hempty =>
          cases h
          refine ⟨[[]], rfl, adds_last hcount (t := s) ⟨.refl, ?_, Nat.zero_le _⟩⟩
          rw [literalsOf, entriesAt, List.getLast?_eq_none_iff.mp hempty]
          rfl
      next deepest hdeepest =>
      simp only [bind_eq_ok] at h
      obtain ⟨k, hk, start, hstart, literals, hliterals, h⟩ := h
      obtain ⟨-, rfl⟩ := uncount_eq_ok.mp hk
      have hstep : ∀ explanation, d.explainChange pools deepest = .ok (some explanation) →
          d.Resolves pools s ((s.erase deepest).insert d.globalLength explanation) :=
        fun explanation hexplain => ⟨deepest, explanation, hdeepest, hexplain, rfl⟩
      by_cases hone : (s.positions.filter (start ≤ ·)).length ≤ 1
      · simp only [hone, decide_true, Bool.true_and, decide_eq_true_eq, if_true, Bool.not_true,
          Bool.false_and, Bool.false_eq_true, if_false] at h
        split at h
        · obtain rfl := pure_eq_ok.mp h
          exact hnothing
        next hsize =>
        have hlearns : d.Learns pools maxSize s literals s :=
          ⟨.refl, hliterals, Nat.le_of_not_lt hsize⟩
        split at h
        · obtain rfl := pure_eq_ok.mp h
          exact ⟨[literals], rfl, adds_last hcount hlearns⟩
        next hmore =>
        obtain ⟨o, hexplain, h⟩ := bind_eq_ok.mp h
        cases o with
        | some explanation =>
            obtain ⟨learned, hall, hadds⟩ := ih h
            refine ⟨literals :: learned, by rw [hall, List.append_assoc, List.singleton_append], ?_⟩
            exact (hadds.head (hstep _ hexplain)).cons hmore hlearns
              ⟨deepest, start, hdeepest, fetch_eq_ok.mp hstart, hone⟩
        | none =>
            obtain rfl := pure_eq_ok.mp h
            exact ⟨[literals], rfl, adds_last hcount hlearns⟩
      · simp only [hone, decide_false, Bool.false_and, Bool.false_eq_true, if_false, Bool.not_false,
          Bool.true_and, decide_eq_true_eq, bind_eq_ok] at h
        obtain ⟨o, hexplain, h⟩ := h
        cases o with
        | some explanation =>
            obtain ⟨learned, hall, hadds⟩ := ih h
            exact ⟨learned, hall, hadds.head (hstep _ hexplain)⟩
        | none =>
            obtain rfl := pure_eq_ok.mp h
            dsimp only
            split
            · next hfits =>
                exact ⟨[literals], rfl, adds_last hcount (t := s) ⟨.refl, hliterals, hfits⟩⟩
            · exact hnothing

end Resolving

end Domain

/-- The positions of a set increase, and they are in the local part of the log. -/
structure ConflictSet.Local (d : Domain α) (s : ConflictSet) : Prop where
  increasing : s.positions.Pairwise (· < ·)
  inside : ∀ p ∈ s.positions, d.globalLength ≤ p ∧ p < d.log.size

theorem ConflictSet.local_insert_empty (d : Domain α) {positions : List Nat}
    (h : ∀ p ∈ positions, p < d.log.size) :
    (ConflictSet.empty.insert d.globalLength positions).Local d := by
  refine ⟨insert_increasing .nil, fun p hp => ?_⟩
  rcases mem_insert.mp hp with hp | ⟨hp, hfirst⟩
  · cases hp
  · exact ⟨hfirst, h p hp⟩

namespace Domain

variable {d d' : Domain α} {s s' : ConflictSet}

/-- The last position of a set comes after all others. -/
theorem lt_of_getLast? {positions : List Nat} (h : positions.Pairwise (· < ·)) {deepest : Nat}
    (hlast : positions.getLast? = some deepest) {p : Nat} (hp : p ∈ positions) (hne : p ≠ deepest) :
    p < deepest := by
  obtain ⟨others, rfl⟩ := List.getLast?_eq_some_iff.mp hlast
  rcases List.mem_append.mp hp with hp | hp
  · exact (List.pairwise_append.mp h).2.2 p hp deepest (List.mem_singleton_self _)
  · exact absurd (List.mem_singleton.mp hp) hne

/-- The literals of a set are changes on record. -/
theorem literalsOf_logged {literals : List (BoundChange α)} (h : d.literalsOf s = .ok literals) :
    ∀ l ∈ literals, ∃ entry ∈ d.log, entry.change = l := by
  simp only [literalsOf, entriesAt, bind_eq_ok, pure_eq_ok] at h
  obtain ⟨entries, hentries, rfl⟩ := h
  intro l hl
  obtain ⟨entry, hentry, rfl⟩ := mem_tightestChanges hl
  obtain ⟨position, -, hfetch⟩ := mem_mapM hentries hentry
  exact ⟨entry, Array.mem_of_getElem? (fetch_eq_ok.mp hfetch), rfl⟩

theorem literalsOf_succeeds (hs : s.Local d) : Succeeds (d.literalsOf s) := by
  refine Succeeds.bind ?_ fun _ _ => succeeds_pure _
  exact (mapM_returns (Q := fun _ => True) fun p hp => fetch_succeeds (hs.inside p hp).2).succeeds

variable [Scalar α] {pools : Pools α}

/-- Learned conflicts consist of changes on record. -/
theorem computeConflicts_logged {maxSize maxConflicts : Nat} {resolution : Resolution α}
    (h : d.computeConflicts pools s maxSize maxConflicts = .ok resolution) :
    ∀ conflict ∈ resolution.conflicts, ∀ l ∈ conflict, ∃ entry ∈ d.log, entry.change = l := by
  obtain ⟨learned, hall, hadds⟩ := resolveWithin_adds h
  intro conflict hconflict
  rw [hall, List.nil_append] at hconflict
  obtain ⟨t, -, hliterals, -⟩ := hadds.learns conflict hconflict
  exact literalsOf_logged hliterals

section Steps

variable [Scalar.LinearlyOrdered α] (h : d.Traced) (hrefers : d.Refers pools)

include h hrefers

/-- A step of a resolution leaves only positions before the one that it replaces. -/
theorem Resolves.local (hstep : d.Resolves pools s s') (hs : s.Local d) :
    s'.Local d ∧ ∃ deepest ∈ s.positions, ∀ p ∈ s'.positions, p < deepest := by
  obtain ⟨deepest, explanation, hlast, hexplain, rfl⟩ := hstep
  have hmem := List.mem_of_getLast? hlast
  obtain ⟨hfirst, hlt⟩ := hs.inside deepest hmem
  have hearlier := (h.explainChange_earlier hrefers hlt).of_eq_ok hexplain explanation rfl
  have hbefore : ∀ p ∈ ((s.erase deepest).insert d.globalLength explanation).positions,
      d.globalLength ≤ p ∧ p < deepest := by
    intro p hp
    rcases ConflictSet.mem_insert.mp hp with hp | ⟨hp, hlocal⟩
    · obtain ⟨hp, hne⟩ := ConflictSet.mem_erase.mp hp
      exact ⟨(hs.inside p hp).1, lt_of_getLast? hs.increasing hlast hp hne⟩
    · exact ⟨hlocal, hearlier p hp⟩
  exact ⟨⟨ConflictSet.insert_increasing (hs.increasing.filter _),
    fun p hp => ⟨(hbefore p hp).1, (hbefore p hp).2.trans hlt⟩⟩,
    deepest, hmem, fun p hp => (hbefore p hp).2⟩

theorem resolves_local (hsteps : Relation.ReflTransGen (d.Resolves pools) s s') (hs : s.Local d) :
    s'.Local d := by
  induction hsteps with
  | refl => exact hs
  | tail _ hstep ih => exact (hstep.local h hrefers ih).1

/-- The last position of a set moves towards the front with every step, so there are enough
steps. -/
theorem Traced.resolveWithin_succeeds {maxSize maxConflicts steps bound : Nat}
    {conflicts : List (List (BoundChange α))} (hs : s.Local d)
    (hbound : ∀ p ∈ s.positions, p < bound)
    (hsteps : bound < steps) :
    Succeeds (d.resolveWithin pools maxSize maxConflicts steps s conflicts) := by
  induction steps generalizing s bound conflicts with
  | zero => exact absurd hsteps (Nat.not_lt_zero _)
  | succ steps ih =>
      rw [resolveWithin]
      refine .ite (fun _ => succeeds_pure _) fun _ => ?_
      cases hlast : s.positions.getLast? with
      | none => exact succeeds_pure _
      | some deepest =>
          have hmem := List.mem_of_getLast? hlast
          obtain ⟨hfirst, hlt⟩ := hs.inside deepest hmem
          have hdepth := depthOf_pos hfirst hlt
          obtain ⟨start, hstart, -⟩ :=
            branchings_of_lt_depthOf (Nat.sub_lt hdepth Nat.one_pos : d.depthOf deepest - 1 < _)
          have hlevel : uncount (d.depthOf deepest) 1 = .ok (d.depthOf deepest - 1) :=
            uncount_eq_ok.mpr ⟨hdepth, rfl⟩
          dsimp only
          rw [hlevel, ok_bind, fetch_eq_ok.mpr hstart, ok_bind]
          refine (literalsOf_succeeds hs).bind fun literals _ => .ite (fun _ => succeeds_pure _)
            fun _ => .ite (fun _ => succeeds_pure _) fun _ => ?_
          refine Returns.bind (h.explainChange_earlier hrefers hlt) fun o ho _ => ?_
          cases o with
          | none => exact succeeds_pure _
          | some explanation =>
              have hstep : d.Resolves pools s _ := ⟨deepest, explanation, hlast, ho, rfl⟩
              obtain ⟨hs', replaced, hreplaced, hbefore⟩ := hstep.local h hrefers hs
              exact ih hs' hbefore (Nat.lt_of_lt_of_le (hbound replaced hreplaced)
                (Nat.le_of_lt_succ hsteps))

end Steps

section Asserting

variable [Scalar.LinearlyOrdered α]

/-- A later change of a bound is at least as tight as an earlier one. -/
theorem Traced.logged_tightens (h : d.Traced) {p q : Nat} {entry later : LogEntry α}
    (hp : d.log[p]? = some entry) (hq : d.log[q]? = some later) (hlt : p < q)
    (hcolumn : later.change.column = entry.change.column)
    (hside : later.change.side = entry.change.side) :
    entry.change.side.tightOrEqual later.change.value entry.change.value = true := by
  have htight := (h.shrunkBefore (q + 1)).logged entry (mem_logBefore hp (by omega))
  have hforce : d.InForce entry.change.side entry.change.column (q + 1)
    ⟨later.change.value, some q⟩ :=
    .set (Nat.lt_succ_self q) hq ⟨hside, hcolumn⟩ fun r _ hfirst hr =>
      absurd hr (Nat.not_lt.mpr hfirst)
  have hvalue : d.valuesBefore (q + 1) _ _ = later.change.value :=
    h.valuesBefore_eq (h.column_lt hp) hforce
  rw [← hvalue]
  exact htight

/-- Where the literals of a set hold, the changes at its positions do. -/
theorem Traced.meets_of_literals (h : d.Traced) (hs : s.Local d) {literals : List (BoundChange α)}
    (hliterals : d.literalsOf s = .ok literals) {R : Reading α}
    (hholds : ∀ l ∈ literals, R.Holds l) :
    d.Meets s.positions R := by
  simp only [literalsOf, entriesAt, bind_eq_ok, pure_eq_ok] at hliterals
  obtain ⟨entries, hentries, rfl⟩ := hliterals
  have hfound := mapM_eq_ok.mp hentries
  have htight : entries.Pairwise fun e later => later.change.column = e.change.column →
      later.change.side = e.change.side →
        e.change.side.tightOrEqual later.change.value e.change.value = true := by
    refine List.pairwise_iff_getElem.mpr fun i j hi hj hij hcolumn hside => ?_
    have hlength := hfound.length_eq
    have hbefore := List.pairwise_iff_getElem.mp hs.increasing i j (by omega) (by omega) hij
    exact h.logged_tightens (fetch_eq_ok.mp (hfound.get (by omega) hi))
      (fetch_eq_ok.mp (hfound.get (by omega) hj)) hbefore hcolumn hside
  have hall := holds_of_tightestChanges htight hholds
  intro p hp _ entry hentry
  obtain ⟨i, hi, rfl⟩ := List.getElem_of_mem hp
  have hat := fetch_eq_ok.mp (hfound.get hi (hfound.length_eq ▸ hi))
  obtain rfl := Option.some.inj (hentry.symm.trans hat)
  exact hall _ (List.getElem_mem _)

/-- A logged change holds for the present bounds. -/
theorem Traced.isActive_logged (h : d.Traced) {entry : LogEntry α} (hentry : entry ∈ d.log) :
    d.isActive entry.change = .ok true := by
  obtain ⟨p, hp⟩ := Array.mem_iff_getElem?.mp hentry
  obtain ⟨b, hb, -⟩ := h.inForce_current entry.change.side (h.column_lt hp)
  have htight := (h.shrinking.shrunk h.numeric).logged entry hentry
  rw [trail_values, values_eq hb] at htight
  simp only [isActive, boundValue, bound, fetch_eq_ok.mpr hb, ok_bind, bind_eq_ok, pure_eq_ok]
  exact ⟨b.value, rfl, htight⟩

omit [Scalar.LinearlyOrdered α] in
/-- Backtracking leaves the changes before a position on record. -/
theorem Traced.backtrackTo (h : d.Traced) {position : Nat}
    (hback : d.backtrackTo position = .ok d') :
    d'.Traced ∧ ∀ p entry, p < position → d.log[p]? = some entry → entry ∈ d'.log := by
  have hmodel : d'.model = d.model := (backtrackTo_sameSetting hback).model
  refine ⟨⟨?_, ?_⟩, fun p entry hp hentry => ?_⟩
  · rw [hmodel]
    exact h.shrinking.backtrackTo h.numeric.fresh hback
  · rw [hmodel]
    exact h.numeric
  · rcases backtrackTo_eq_ok hback with ⟨-, rfl⟩ | ⟨hlt, -⟩
    · exact Array.mem_of_getElem? hentry
    · have hlog : d'.log = (d.trail.rewindTo position).log :=
        congrArg Trail.log (backtrackTo_trail hback hlt).1
      rw [hlog]
      exact mem_logBefore hentry hp

/-- A conflict asserts the negation of its last literal: no other literal became true on the level
of that one, and when this level is undone, all others still hold. -/
def Asserts (d : Domain α) (conflict : List (BoundChange α)) : Prop :=
  ∃ others last position start, conflict = others ++ [last] ∧
    d.log[position]?.map LogEntry.change = some last ∧
    d.branchings[d.depthOf position - 1]? = some start ∧ start ≤ position ∧
    (∀ l ∈ others, ∃ p, d.log[p]?.map LogEntry.change = some l ∧ d.depthOf p < d.depthOf position) ∧
    Returns (d.backtrackTo start) fun d' => ∀ l ∈ others, d'.isActive l = .ok true

/-- The literals of a set with a single position on its deepest level assert the negation of the
last one. -/
theorem Traced.asserts_of_isSingle {T : Tracking α} (h : d.Traced) (hsettled : d.Settled T)
    (hs : s.Local d) (hsingle : d.IsSingle s) {conflict : List (BoundChange α)}
    (hconflict : d.literalsOf s = .ok conflict) : d.Asserts conflict := by
  obtain ⟨deepest, start, hlast, hstart, hcount⟩ := hsingle
  obtain ⟨before, hpositions⟩ := List.getLast?_eq_some_iff.mp hlast
  obtain ⟨hfirst, hlt⟩ := hs.inside deepest (List.mem_of_getLast? hlast)
  have hdepth := depthOf_pos hfirst hlt
  have hle : start ≤ deepest := by
    obtain ⟨start', hstart', hle⟩ :=
      branchings_of_lt_depthOf (Nat.sub_lt hdepth Nat.one_pos : d.depthOf deepest - 1 < _)
    exact Option.some.inj (hstart.symm.trans hstart') ▸ hle
  -- the last position is the one that is counted on the level
  have hbefore : ∀ p ∈ before, p < start := by
    rw [hpositions, List.filter_append, List.filter_cons_of_pos (by simpa using hle),
      List.length_append] at hcount
    have hnone : before.filter (start ≤ ·) = [] := by
      refine List.length_eq_zero_iff.mp ?_
      simp only [List.filter_nil, List.length_singleton] at hcount
      omega
    exact fun p hp => by simpa using List.filter_eq_nil_iff.mp hnone p hp
  simp only [literalsOf, entriesAt, bind_eq_ok, pure_eq_ok, hpositions, List.mapM_append]
    at hconflict
  obtain ⟨entries, ⟨found, hfound, rest, hrest, rfl⟩, rfl⟩ := hconflict
  obtain ⟨entry, hentry, rfl⟩ : ∃ entry, fetch d.log deepest = .ok entry ∧ rest = [entry] := by
    simp only [List.mapM_cons, List.mapM_nil, bind_eq_ok, pure_eq_ok] at hrest
    obtain ⟨entry, hentry, _, rfl, rfl⟩ := hrest
    exact ⟨entry, hentry, rfl⟩
  obtain ⟨others, heq, hothers⟩ := tightestChanges_append found entry
  have hsource : ∀ l ∈ others, ∃ p e, p < start ∧ d.log[p]? = some e ∧ e.change = l := by
    intro l hl
    obtain ⟨e, he, rfl⟩ := hothers l hl
    obtain ⟨p, hp, hfetch⟩ := mem_mapM hfound he
    exact ⟨p, e, hbefore p hp, fetch_eq_ok.mp hfetch, rfl⟩
  refine ⟨others, entry.change, deepest, start, heq, ?_, hstart, hle, fun l hl => ?_, ?_⟩
  · rw [fetch_eq_ok.mp hentry, Option.map_some]
  · obtain ⟨p, e, hp, he, rfl⟩ := hsource l hl
    refine ⟨p, by rw [he, Option.map_some], ?_⟩
    have hlevel := depthOf_le hstart hp
    omega
  · refine (backtrackTo_returns hsettled start).mono fun d' hback _ l hl => ?_
    obtain ⟨p, e, hp, he, rfl⟩ := hsource l hl
    obtain ⟨htraced, hkept⟩ := h.backtrackTo hback
    exact htraced.isActive_logged (hkept p e hp he)

/-- What is learned from a conflict set: so many conflicts of so many literals that hold, no two of
one conflict over the same bound, where all but the last conflict assert the negation of a
literal. -/
structure Learnt (d : Domain α) (maxSize maxConflicts : Nat)
    (conflicts : List (List (BoundChange α))) : Prop where
  count : conflicts.length ≤ maxConflicts
  size : ∀ conflict ∈ conflicts, conflict.length ≤ maxSize
  active : ∀ conflict ∈ conflicts, ∀ l ∈ conflict, d.isActive l = .ok true
  distinct : ∀ conflict ∈ conflicts,
    conflict.Pairwise fun l l' => ¬(l.column = l'.column ∧ l.side = l'.side)
  asserting : ∀ conflict ∈ conflicts.dropLast, d.Asserts conflict

/-- Conflicts are computed from every set of local positions. -/
theorem Traced.computeConflicts_returns {T : Tracking α} (h : d.Traced) (hrefers : d.Refers pools)
    (hsettled : d.Settled T) (hs : s.Local d) (maxSize maxConflicts : Nat) :
    Returns (d.computeConflicts pools s maxSize maxConflicts) fun r =>
      d.Learnt maxSize maxConflicts r.conflicts := by
  refine (h.resolveWithin_succeeds hrefers hs (fun p hp => (hs.inside p hp).2) (by omega)).mono
    fun r hr _ => ?_
  obtain ⟨learned, hall, hadds⟩ := resolveWithin_adds hr
  rw [List.nil_append] at hall
  rw [hall]
  refine ⟨by simpa using hadds.count (Nat.zero_le _), fun c hc => ?_, fun c hc l hl => ?_,
    fun c hc => ?_, fun c hc => ?_⟩
  · obtain ⟨t, -, -, hsize⟩ := hadds.learns c hc
    exact hsize
  · obtain ⟨t, -, hliterals, -⟩ := hadds.learns c hc
    obtain ⟨entry, hentry, rfl⟩ := literalsOf_logged hliterals l hl
    exact h.isActive_logged hentry
  · obtain ⟨t, -, hliterals, -⟩ := hadds.learns c hc
    simp only [literalsOf, bind_eq_ok, pure_eq_ok] at hliterals
    obtain ⟨entries, -, rfl⟩ := hliterals
    exact tightestChanges_pairwise entries
  · obtain ⟨t, ⟨hsteps, hliterals, -⟩, hsingle⟩ := hadds.single c hc
    exact h.asserts_of_isSingle hsettled (resolves_local h hrefers hsteps hs) hsingle hliterals

end Asserting

/-- What explains an infeasibility or the violation of a proof is local. -/
theorem Traced.conflictSet?_local [Scalar.LinearlyOrdered α] (h : d.Traced)
    (hrefers : d.Refers pools)
    {proof : Option (Inequality α)} (hset : d.conflictSet? pools proof = .ok (some s)) :
    s.Local d := by
  have hlocal : ∀ {x : Checked (Option (List Nat))}, (do
      let explanation ← x
      return explanation.map (ConflictSet.empty.insert d.globalLength)) = .ok (some s) →
      (∀ positions, x = .ok (some positions) → ∀ p ∈ positions, p < d.log.size) → s.Local d := by
    intro x hx hpositions
    obtain ⟨o, hexplain, hx⟩ := bind_eq_ok.mp hx
    obtain ⟨positions, rfl, rfl⟩ := Option.map_eq_some_iff.mp (pure_eq_ok.mp hx)
    exact ConflictSet.local_insert_empty d (hpositions positions hexplain)
  cases proof with
  | none => exact hlocal hset fun _ hexplain => h.explainInfeasibility_lt hrefers hexplain
  | some i => exact hlocal hset fun _ hexplain p hp => (h.explainAtMost_between hexplain p hp).2

end Domain

end BranchBound
