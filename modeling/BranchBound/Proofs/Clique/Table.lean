import BranchBound.Clique.Table
import BranchBound.Proofs.Checked

/-!
# Clique tables

A table to which cliques are added one after the other lists every clique under its literals and
under no others. So the literals that a true literal makes false are the other ones of the cliques
which contain it, and looking them up cannot stop.
-/

namespace BranchBound

open Checked

theorem BinaryLiteral.index_inj {l l' : BinaryLiteral} (h : l.index = l'.index) : l = l' := by
  obtain ⟨c, value⟩ := l
  obtain ⟨c', value'⟩ := l'
  have hindex : ∀ (n m : Nat) (b b' : Bool),
      2 * n + (if b then 1 else 0) = 2 * m + (if b' then 1 else 0) → n = m ∧ b = b' := by
    intro n m b b' hnm
    cases b <;> cases b' <;> simp at hnm ⊢ <;> omega
  obtain ⟨rfl, rfl⟩ := hindex c c' value value' h
  rfl

theorem BinaryLiteral.index_lt {l : BinaryLiteral} {columnCount : Nat}
    (h : l.column < columnCount) :
    l.index < 2 * columnCount := by
  have hcolumn : (l.column : Nat) < columnCount := h
  rw [index]
  cases l.value with
  | true => exact Nat.lt_of_lt_of_le (Nat.lt_succ_self _) (Nat.mul_le_mul_left 2 hcolumn)
  | false => exact Nat.mul_lt_mul_of_pos_left hcolumn Nat.two_pos

namespace CliqueTable

/-- Of two equal neighbours the first one stays. -/
theorem eraseReps_cons_cons {β : Type} [BEq β] (x y : β) (xs : List β) :
    (x :: y :: xs).eraseReps =
      if x == y then (x :: xs).eraseReps else x :: (y :: xs).eraseReps := by
  have hloop : ∀ (xs acc : List β) (x : β), List.eraseRepsBy.loop (· == ·) x xs acc =
      acc.reverse ++ List.eraseRepsBy.loop (· == ·) x xs [] := by
    intro xs
    induction xs with
    | nil => intro acc x; simp [List.eraseRepsBy.loop]
    | cons z xs ih =>
        intro acc x
        rw [List.eraseRepsBy.loop, List.eraseRepsBy.loop]
        split
        · exact ih acc x
        · rw [ih (x :: acc), ih [x]]
          simp
  change List.eraseRepsBy.loop (· == ·) x (y :: xs) [] = _
  rw [List.eraseRepsBy.loop]
  cases x == y with
  | true => rfl
  | false => exact hloop xs [x] y

/-- Erasing repetitions loses nothing else. -/
theorem mem_eraseReps {β : Type} [BEq β] [LawfulBEq β] {xs : List β} {y : β} :
    y ∈ xs.eraseReps ↔ y ∈ xs := by
  cases xs with
  | nil => exact Iff.rfl
  | cons x xs =>
      induction xs generalizing x with
      | nil => exact Iff.rfl
      | cons z xs ih =>
          rw [eraseReps_cons_cons]
          split
          · next heq =>
              rw [ih, ← eq_of_beq heq]
              simp
          · rw [List.mem_cons, ih, List.mem_cons (l := z :: xs)]

/-- Erasing repetitions from a list in order leaves a list in strict order. -/
theorem increasing_eraseReps {xs : List BinaryLiteral} (h : xs.Pairwise fun a b =>
    a.index ≤ b.index) :
    xs.eraseReps.Pairwise fun a b => a.index < b.index := by
  cases xs with
  | nil => exact .nil
  | cons x xs =>
      induction xs generalizing x with
      | nil => exact List.pairwise_singleton ..
      | cons y xs ih =>
          obtain ⟨hx, hrest⟩ := List.pairwise_cons.mp h
          obtain ⟨hy, hxs⟩ := List.pairwise_cons.mp hrest
          rw [eraseReps_cons_cons]
          split
          · exact ih x (List.pairwise_cons.mpr ⟨fun z hz => hx z (List.mem_cons_of_mem _ hz), hxs⟩)
          · next hne =>
              refine List.pairwise_cons.mpr ⟨fun z hz => ?_, ih y hrest⟩
              have hlt : x.index < y.index := Nat.lt_of_le_of_ne (hx y (List.mem_cons_self ..))
                fun hindex => hne (beq_iff_eq.mpr (BinaryLiteral.index_inj hindex))
              rcases List.mem_cons.mp (mem_eraseReps.mp hz) with rfl | hz
              · exact hlt
              · exact Nat.lt_of_lt_of_le hlt (hy z hz)

theorem distinct_increasing (literals : List BinaryLiteral) :
    (distinct literals).Pairwise fun a b => a.index < b.index := by
  refine increasing_eraseReps ?_
  have htrans : ∀ a b c : BinaryLiteral, decide (a.index ≤ b.index) = true →
      decide (b.index ≤ c.index) = true → decide (a.index ≤ c.index) = true := fun a b c hab hbc =>
    decide_eq_true (Nat.le_trans (of_decide_eq_true hab) (of_decide_eq_true hbc))
  have htotal : ∀ a b : BinaryLiteral,
      (decide (a.index ≤ b.index) || decide (b.index ≤ a.index)) = true := fun a b => by
    simpa using Nat.le_total a.index b.index
  have h := List.pairwise_mergeSort htrans htotal literals
  exact h.imp of_decide_eq_true

theorem distinct_nodup {literals : List BinaryLiteral} : (distinct literals).Nodup := by
  refine (distinct_increasing literals).imp ?_
  rintro a _ hlt rfl
  exact Nat.lt_irrefl _ hlt

theorem mem_distinct {literals : List BinaryLiteral} {l : BinaryLiteral} :
    l ∈ distinct literals ↔ l ∈ literals :=
  mem_eraseReps.trans List.mem_mergeSort

variable (columnCount : Nat) (binary : ColumnId → Prop)

/-- The tables that result from adding cliques over binary columns. -/
inductive Made : CliqueTable → Prop
  | empty : Made (empty columnCount)
  | add {t t' : CliqueTable} {literals : List BinaryLiteral} {added : Bool} (h : Made t)
      (hliterals : ∀ l ∈ literals, binary l.column)
      (hadd : (CliqueTable.add literals).finish t = .ok (added, t')) : Made t'

/-- Every clique that is listed under a literal contains it. -/
structure Listed (t : CliqueTable) : Prop where
  size : t.occurrences.size = 2 * columnCount
  listed : ∀ (l : BinaryLiteral) found, t.occurrences[l.index]? = some found →
    ∀ i ∈ found, ∃ clique, t.cliques[i]? = some clique ∧ l ∈ clique
  literals : ∀ clique ∈ t.cliques, ∀ l ∈ clique, binary l.column

variable {columnCount binary} {t t' : CliqueTable}

theorem listed_empty : (empty columnCount).Listed columnCount binary where
  size := Array.size_replicate
  listed := fun l found h i hi => by
    rw [empty, Array.getElem?_replicate] at h
    split at h
    · cases h
      cases hi
    · cases h
  literals := fun clique h => by simp [empty] at h

/-- A clique can be listed under literals that have a list. -/
theorem foldlM_listUnder_returns (clique : Nat) {literals : List BinaryLiteral}
    (h : ∀ l ∈ literals, l.index < t.occurrences.size) :
    Returns (literals.foldlM (fun t l => t.listUnder clique l) t) fun _ => True := by
  refine (foldlM_returns (P := fun u : CliqueTable => u.occurrences.size = t.occurrences.size)
    (fun u l hl hu => ?_) rfl).mono fun _ _ _ => trivial
  obtain ⟨found, hfound⟩ : ∃ found, u.occurrences[l.index]? = some found :=
    ⟨_, Array.getElem?_eq_getElem (hu ▸ h l hl)⟩
  exact ⟨_, bind_eq_ok.mpr ⟨_, update_eq_ok.mpr ⟨found, _, hfound, rfl, rfl⟩, rfl⟩,
    (Array.size_setIfInBounds ..).trans hu⟩

/-- A clique is listed once under each of some literals and under no other one. -/
theorem foldlM_listUnder_eq_ok {clique : Nat} {literals : List BinaryLiteral}
    (hdistinct : literals.Nodup)
    (h : literals.foldlM (fun t l => t.listUnder clique l) t = .ok t') :
    t'.cliques = t.cliques ∧ t'.occurrences.size = t.occurrences.size ∧
      ∀ l : BinaryLiteral, t'.occurrences[l.index]? = t.occurrences[l.index]?.map fun found =>
        if l ∈ literals then found ++ [clique] else found := by
  induction literals generalizing t with
  | nil =>
      obtain rfl := pure_eq_ok.mp h
      exact ⟨rfl, rfl, fun l => by simp⟩
  | cons first rest ih =>
      obtain ⟨hfirst, hrest⟩ := List.nodup_cons.mp hdistinct
      rw [List.foldlM_cons, bind_eq_ok] at h
      obtain ⟨u, hu, h⟩ := h
      simp only [listUnder, bind_eq_ok, pure_eq_ok, update_eq_ok] at hu
      obtain ⟨_, ⟨entry, _, hentry, hnew, rfl⟩, rfl⟩ := hu
      cases hnew
      obtain ⟨hcliques, hsize, hoccurrences⟩ := ih hrest h
      refine ⟨hcliques, hsize.trans (Array.size_setIfInBounds ..), fun l => ?_⟩
      rw [hoccurrences l, Array.getElem?_setIfInBounds]
      by_cases hl : l = first
      · subst hl
        rw [if_pos rfl, if_pos (Array.getElem?_eq_some_iff.mp hentry).1, hentry]
        simp [hfirst]
      · rw [if_neg fun hindex => hl (BinaryLiteral.index_inj hindex).symm]
        simp [hl]

/-- Adding a clique lists it under its literals. -/
theorem Listed.add (h : t.Listed columnCount binary) {literals : List BinaryLiteral} {added : Bool}
    (hliterals : ∀ l ∈ literals, binary l.column)
    (hadd : (CliqueTable.add literals).finish t = .ok (added, t')) :
    t'.Listed columnCount binary := by
  rw [Action.finish_eq_ok] at hadd
  simp only [CliqueTable.add] at hadd
  split at hadd
  · simp only [Action.perform_pure, Prod.mk.injEq] at hadd
    rw [← hadd.2]
    exact h
  · simp only [Action.perform_bind_eq_ok, Action.perform_get, Action.perform_modify,
      Action.perform_forM_change_eq_ok, Action.perform_pure, Prod.mk.injEq, Except.ok.injEq] at hadd
    obtain ⟨_, _, ⟨rfl, rfl⟩, _, u, hlist, _, _, ⟨-, rfl⟩, -, rfl⟩ := hadd
    obtain ⟨hcliques, hsize, hlisted⟩ := foldlM_listUnder_eq_ok distinct_nodup hlist
    refine ⟨hsize.trans h.size, fun l found hfound i hi => ?_, fun clique hclique l hl => ?_⟩
    · rw [hcliques]
      rw [hlisted] at hfound
      obtain ⟨before, hbefore, rfl⟩ := Option.map_eq_some_iff.mp hfound
      have hold : i ∈ before → ∃ clique, (t.cliques.push (distinct literals))[i]? = some clique ∧
          l ∈ clique := fun hi => by
        obtain ⟨clique, hclique, hl⟩ := h.listed l before hbefore i hi
        refine ⟨clique, ?_, hl⟩
        have hlt := (Array.getElem?_eq_some_iff.mp hclique).1
        rw [Array.getElem?_push_lt hlt, ← Array.getElem?_eq_getElem hlt, hclique]
      split at hi
      · next hl =>
          rcases List.mem_append.mp hi with hi | hi
          · exact hold hi
          · obtain rfl := List.mem_singleton.mp hi
            exact ⟨_, Array.getElem?_push_size, hl⟩
      · exact hold hi
    · rw [hcliques] at hclique
      rcases Array.mem_push.mp hclique with hclique | rfl
      · exact h.literals clique hclique l hl
      · exact hliterals l (mem_distinct.mp hl)

theorem Made.listed (h : Made columnCount binary t) : t.Listed columnCount binary := by
  induction h with
  | empty => exact listed_empty
  | add _ hliterals hadd ih => exact ih.add hliterals hadd

/-- A literal that a true literal makes false: another one of a clique with both of them. -/
def Excludes (t : CliqueTable) (l other : BinaryLiteral) : Prop :=
  other ≠ l ∧ ∃ clique ∈ t.cliques, l ∈ clique ∧ other ∈ clique

/-- Collecting literals appends those that are new, each once. -/
theorem foldl_collect {l : BinaryLiteral} (literals seen : List BinaryLiteral)
    (hseen : seen.Nodup) :
    let collected := literals.foldl
      (fun seen other => if other != l && !seen.contains other then seen ++ [other] else seen) seen
    collected.Nodup ∧ ∀ other, other ∈ collected ↔ other ∈ seen ∨ other ≠ l ∧ other ∈ literals := by
  induction literals generalizing seen with
  | nil => simpa using hseen
  | cons first rest ih =>
      rw [List.foldl_cons]
      split
      · next hnew =>
          simp only [Bool.and_eq_true, bne_iff_ne, ne_eq, Bool.not_eq_true', List.contains_eq_mem,
            decide_eq_false_iff_not] at hnew
          have hlonger : (seen ++ [first]).Nodup := by
            refine List.nodup_append.mpr ⟨hseen, by simp, fun other hother _ hfirst => ?_⟩
            obtain rfl := List.mem_singleton.mp hfirst
            rintro rfl
            exact hnew.2 hother
          obtain ⟨hnodup, hmem⟩ := ih (seen ++ [first]) hlonger
          refine ⟨hnodup, fun other => (hmem other).trans ?_⟩
          rw [List.mem_append, List.mem_singleton, List.mem_cons]
          constructor
          · rintro ((h | rfl) | ⟨hne, h⟩)
            · exact .inl h
            · exact .inr ⟨hnew.1, .inl rfl⟩
            · exact .inr ⟨hne, .inr h⟩
          · rintro (h | ⟨hne, rfl | h⟩)
            · exact .inl (.inl h)
            · exact .inl (.inr rfl)
            · exact .inr ⟨hne, h⟩
      · next hold =>
          simp only [Bool.and_eq_true, bne_iff_ne, ne_eq, Bool.not_eq_true', List.contains_eq_mem,
            decide_eq_false_iff_not, not_and, not_not] at hold
          obtain ⟨hnodup, hmem⟩ := ih seen hseen
          refine ⟨hnodup, fun other => (hmem other).trans ?_⟩
          rw [List.mem_cons]
          constructor
          · exact Or.imp_right (And.imp_right .inr)
          · rintro (h | ⟨hne, rfl | h⟩)
            · exact .inl h
            · exact .inl (hold hne)
            · exact .inr ⟨hne, h⟩

/-- The literals of some cliques are collected, each once. -/
theorem gather_returns {l : BinaryLiteral} {found : List Nat} {seen : List BinaryLiteral}
    (hfound : ∀ i ∈ found, i < t.cliques.size) (hseen : seen.Nodup) :
    Returns (t.gather l found seen) fun literals => literals.Nodup ∧
      ∀ other, other ∈ literals ↔ other ∈ seen ∨
        other ≠ l ∧ ∃ i ∈ found, ∃ clique, t.cliques[i]? = some clique ∧ other ∈ clique := by
  induction found generalizing seen with
  | nil => exact .ok (by simpa using hseen)
  | cons i rest ih =>
      obtain ⟨clique, hclique⟩ : ∃ clique, t.cliques[i]? = some clique :=
        ⟨_, Array.getElem?_eq_getElem (hfound i (List.mem_cons_self ..))⟩
      obtain ⟨hnodup, hcollected⟩ := foldl_collect (l := l) clique seen hseen
      rw [gather, fetch_eq_ok.mpr hclique, ok_bind]
      refine (ih (fun j hj => hfound j (List.mem_cons_of_mem _ hj)) hnodup).mono ?_
      rintro literals - ⟨hliterals, hmem⟩
      refine ⟨hliterals, fun other => ?_⟩
      rw [hmem, hcollected, or_assoc, ← and_or_left]
      simp [hclique]

/-- The literals which a true literal makes false can be looked up. -/
theorem Listed.impliedBy_returns (h : t.Listed columnCount binary) {l : BinaryLiteral}
    (hl : l.column < columnCount) :
    Returns (t.impliedBy l) fun literals => ∀ other ∈ literals, t.Excludes l other := by
  have hlt : l.index < t.occurrences.size := h.size ▸ BinaryLiteral.index_lt hl
  unfold impliedBy occurrencesOf
  refine (fetch_returns hlt).bind fun found _ hfound => ?_
  have hlisted := h.listed l found hfound
  have hpositions : ∀ i ∈ found, i < t.cliques.size := fun i hi => by
    obtain ⟨clique, hclique, -⟩ := hlisted i hi
    exact (Array.getElem?_eq_some_iff.mp hclique).1
  refine (gather_returns hpositions List.nodup_nil).mono fun literals _ hliterals other hother => ?_
  obtain ⟨hne, i, hi, clique, hclique, hmem⟩ :=
    ((hliterals.2 other).mp hother).resolve_left List.not_mem_nil
  obtain ⟨clique', hclique', hl⟩ := hlisted i hi
  obtain rfl := Option.some.inj (hclique.symm.trans hclique')
  exact ⟨hne, clique, Array.mem_of_getElem? hclique, hl, hmem⟩

end CliqueTable

end BranchBound
