import BranchBound.Proofs.Clique.Table
import Mathlib

/-!
# Looking up cliques

Whatever lists of literals are added to a table, it lists under every literal the positions of the
cliques that contain it, in increasing order, and no others. Bisection works in such lists, so that
every lookup answers what it would by searching all the cliques: which literals share a clique with
one, whether two literals share one, and which columns can stand together in a part. A list is
stored if its literals are on columns of their own and there are at least two different ones.
-/

namespace BranchBound

open Checked

theorem BinaryLiteral.column_lt_or_eq {a b : BinaryLiteral} (h : a.index < b.index) :
    a.column < b.column ∨ a.column = b.column := by
  obtain ⟨c, value⟩ := a
  obtain ⟨c', value'⟩ := b
  have hcolumns : ∀ (n m : Nat) (v v' : Bool),
      2 * n + (if v then 1 else 0) < 2 * m + (if v' then 1 else 0) → n < m ∨ n = m := by
    intro n m v v' hlt
    cases v <;> cases v' <;> simp at hlt <;> omega
  exact hcolumns c c' value value' h

namespace CliqueTable

/-- Literals of which at most one can be true, as far as their columns tell: at least two different
ones, on columns of their own. -/
def FormsClique (literals : List BinaryLiteral) : Prop :=
  (∃ a ∈ literals, ∃ b ∈ literals, a ≠ b) ∧
    ∀ a ∈ literals, ∀ b ∈ literals, a ≠ b → a.column ≠ b.column

instance (literals : List BinaryLiteral) : Decidable (FormsClique literals) :=
  inferInstanceAs (Decidable (_ ∧ _))

/-- Among literals in strict order only neighbours can be on one column. -/
theorem all_neighbours_iff {clique : List BinaryLiteral}
    (h : clique.Pairwise fun a b => a.index < b.index) :
    (clique.zip clique.tail).all (fun (a, b) => a.column != b.column) = true ↔
      clique.Pairwise fun a b => a.column < b.column := by
  induction clique with
  | nil => simp
  | cons a rest ih =>
      cases rest with
      | nil => simp
      | cons b rest =>
          obtain ⟨ha, hrest⟩ := List.pairwise_cons.mp h
          rw [List.tail_cons, List.zip_cons_cons, List.all_cons, Bool.and_eq_true, bne_iff_ne,
            List.pairwise_cons, ← ih hrest]
          refine and_congr_left fun hneighbours => ?_
          obtain ⟨hb, -⟩ := List.pairwise_cons.mp ((ih hrest).mp hneighbours)
          constructor
          · intro hne x hx
            have hab : a.column < b.column :=
              (BinaryLiteral.column_lt_or_eq (ha b (List.mem_cons_self ..))).resolve_right hne
            rcases List.mem_cons.mp hx with rfl | hx
            · exact hab
            · exact Nat.lt_trans hab (hb x hx)
          · exact fun hall => Nat.ne_of_lt (hall b (List.mem_cons_self ..))

theorem isClique_iff {clique : List BinaryLiteral}
    (hclique : clique.Pairwise fun a b => a.index < b.index) :
    isClique clique = true ↔ FormsClique clique := by
  rw [isClique, Bool.and_eq_true, decide_eq_true_eq, all_neighbours_iff hclique]
  have hne : ∀ a b : BinaryLiteral, a.index < b.index → a ≠ b := by
    rintro a _ hlt rfl
    exact Nat.lt_irrefl _ hlt
  constructor
  · rintro ⟨hlength, hcolumns⟩
    constructor
    · match clique, hlength, hclique with
      | a :: b :: rest, _, hclique =>
        refine ⟨a, by simp, b, by simp, hne a b ?_⟩
        exact (List.pairwise_cons.mp hclique).1 b (by simp)
    · have hsymm : Std.Symm fun a b : BinaryLiteral => a.column ≠ b.column := ⟨fun _ _ h => h.symm⟩
      exact fun a ha b hb => (hcolumns.imp Nat.ne_of_lt).forall ha hb
  · rintro ⟨⟨a, ha, b, hb, hab⟩, hcolumns⟩
    constructor
    · match clique, ha, hb with
      | [x], ha, hb =>
        exact absurd ((List.mem_singleton.mp ha).trans (List.mem_singleton.mp hb).symm) hab
      | _ :: _ :: _, _, _ => simp
    · refine hclique.imp_of_mem fun ha hb hlt => ?_
      exact (BinaryLiteral.column_lt_or_eq hlt).resolve_right (hcolumns _ ha _ hb (hne _ _ hlt))

theorem formsClique_distinct {literals : List BinaryLiteral} :
    isClique (distinct literals) = true ↔ FormsClique literals := by
  rw [isClique_iff (distinct_increasing literals)]
  simp only [FormsClique, mem_distinct]

/-- Whether some clique contains both literals. -/
def Shares (t : CliqueTable) (a b : BinaryLiteral) : Prop :=
  ∃ clique ∈ t.cliques, a ∈ clique ∧ b ∈ clique

/-- The positions of the cliques that contain a literal, found by looking at all cliques. -/
def containing (t : CliqueTable) (l : BinaryLiteral) : List Nat :=
  (List.range t.cliques.size).filter fun i => t.cliques[i]?.any (·.contains l)

variable {t t' : CliqueTable} {n : Nat} {l : BinaryLiteral}

theorem mem_containing {i : Nat} :
    i ∈ t.containing l ↔ ∃ clique, t.cliques[i]? = some clique ∧ l ∈ clique := by
  rw [containing, List.mem_filter, List.mem_range]
  constructor
  · rintro ⟨hlt, hany⟩
    rw [Array.getElem?_eq_getElem hlt, Option.any_some, List.contains_iff_mem] at hany
    exact ⟨_, Array.getElem?_eq_getElem hlt, hany⟩
  · rintro ⟨clique, hclique, hl⟩
    refine ⟨(Array.getElem?_eq_some_iff.mp hclique).1, ?_⟩
    rw [hclique, Option.any_some, List.contains_iff_mem]
    exact hl

theorem containing_increasing : (t.containing l).Pairwise (· < ·) :=
  List.pairwise_lt_range.filter _

/-- Under a new clique its position comes last. -/
theorem containing_push {occurrences : Array (List Nat)} (clique : List BinaryLiteral) :
    containing ⟨t.cliques.push clique, occurrences⟩ l =
      if l ∈ clique then t.containing l ++ [t.cliques.size] else t.containing l := by
  have hold : ((List.range t.cliques.size).filter fun i =>
      (t.cliques.push clique)[i]?.any (·.contains l)) = t.containing l := by
    refine List.filter_congr fun i hi => ?_
    rw [Array.getElem?_push_lt (List.mem_range.mp hi),
      ← Array.getElem?_eq_getElem (List.mem_range.mp hi)]
  change ((List.range (t.cliques.push clique).size).filter fun i =>
    (t.cliques.push clique)[i]?.any (·.contains l)) = _
  rw [Array.size_push, List.range_succ, List.filter_append, hold]
  by_cases hl : l ∈ clique <;> simp [hl]

/-- Under every literal of the first columns its cliques are listed. -/
def Indexed (n : Nat) (t : CliqueTable) : Prop :=
  ∀ l : BinaryLiteral, l.column < n → t.occurrences[l.index]? = some (t.containing l)

theorem empty_indexed (n : Nat) : (empty n).Indexed n := by
  intro l hl
  rw [empty, Array.getElem?_replicate, if_pos (BinaryLiteral.index_lt hl)]
  rfl

/-- What adding literals does: they are stored, each once, if they form a clique. -/
theorem Indexed.add (h : t.Indexed n) {literals : List BinaryLiteral}
    (hliterals : ∀ l ∈ literals, l.column < n) :
    Returns ((CliqueTable.add literals).finish t) fun (added, t') => t'.Indexed n ∧
      (added = true ↔ FormsClique literals) ∧
      t'.cliques = if added then t.cliques.push (distinct literals) else t.cliques := by
  rw [← formsClique_distinct]
  cases hforms : isClique (distinct literals) with
  | false =>
      refine ⟨(false, t), Action.finish_eq_ok.mpr ?_, h, by simp, rfl⟩
      simp [CliqueTable.add, hforms]
  | true =>
      have hlisted : ∀ l ∈ distinct literals, l.index < t.occurrences.size := fun l hl =>
        (Array.getElem?_eq_some_iff.mp (h l (hliterals l (mem_distinct.mp hl)))).1
      obtain ⟨u, hu, -⟩ := foldlM_listUnder_returns t.cliques.size hlisted
      obtain ⟨hcliques, -, hoccurrences⟩ := foldlM_listUnder_eq_ok distinct_nodup hu
      refine ⟨(true, ⟨t.cliques.push (distinct literals), u.occurrences⟩),
        Action.finish_eq_ok.mpr ?_, fun l hl => ?_, by simp, rfl⟩
      · simp only [CliqueTable.add, hforms, Bool.not_true, Bool.false_eq_true, if_false,
          Action.perform_bind_eq_ok, Action.perform_get, Action.perform_modify,
          Action.perform_forM_change_eq_ok, Action.perform_pure, Prod.mk.injEq, Except.ok.injEq]
        exact ⟨_, _, ⟨rfl, rfl⟩, (), u, hu, (), _, ⟨trivial, rfl⟩, trivial, by rw [hcliques]⟩
      · rw [hoccurrences, h l hl, containing_push]
        rfl

/-- Adding lists of literals one after the other stores those which form a clique. -/
theorem Indexed.addAll (h : t.Indexed n) {lists : List (List BinaryLiteral)}
    (hlists : ∀ literals ∈ lists, ∀ l ∈ literals, l.column < n) :
    Returns ((lists.mapM CliqueTable.add).finish t) fun (stored, t') => t'.Indexed n ∧
      stored = lists.map (fun literals => decide (FormsClique literals)) ∧
      t'.cliques.toList = t.cliques.toList ++
        (lists.filter fun literals => decide (FormsClique literals)).map distinct := by
  induction lists generalizing t with
  | nil => exact ⟨([], t), Action.finish_eq_ok.mpr rfl, h, rfl, by simp⟩
  | cons literals rest ih =>
      obtain ⟨⟨added, u⟩, hadd, hu, hadded, hcliques⟩ :=
        h.add (hlists literals (List.mem_cons_self ..))
      obtain ⟨⟨stored, t'⟩, hrest, ht', hstored, hall⟩ :=
        ih hu fun other hother => hlists other (List.mem_cons_of_mem _ hother)
      have hflag : added = decide (FormsClique literals) := by
        rw [Bool.eq_iff_iff, hadded, decide_eq_true_eq]
      refine ⟨(added :: stored, t'), Action.finish_eq_ok.mpr ?_, ht', ?_, ?_⟩
      · rw [List.mapM_cons]
        simp only [Action.perform_bind_eq_ok, Action.perform_pure, Prod.mk.injEq, Except.ok.injEq]
        exact ⟨added, u, Action.finish_eq_ok.mp hadd, stored, t', Action.finish_eq_ok.mp hrest, rfl,
          rfl⟩
      · rw [List.map_cons, ← hflag, ← hstored]
      · rw [hall, hcliques, List.filter_cons, ← hflag]
        cases added <;> simp

section Lookups

variable (h : t.Indexed n) {a b : BinaryLiteral}
include h

theorem Indexed.occurrencesOf_eq (ha : a.column < n) : t.occurrencesOf a = .ok (t.containing a) :=
  fetch_eq_ok.mpr (h a ha)

theorem Indexed.shareClique_returns (ha : a.column < n) (hb : b.column < n) :
    Returns (t.shareClique a b) fun answer => answer = true ↔ t.Shares a b := by
  have hcommon : ∀ left right : List Nat, right.Pairwise (· < ·) →
      (left.any (Bisection.contains right) = true ↔ ∃ i, i ∈ left ∧ i ∈ right) := by
    intro left right hright
    simp only [List.any_eq_true, Bisection.contains_iff hright]
  have hboth : (∃ i, i ∈ t.containing a ∧ i ∈ t.containing b) ↔ t.Shares a b := by
    simp only [mem_containing]
    constructor
    · rintro ⟨i, ⟨clique, hclique, ha⟩, clique', hclique', hb⟩
      obtain rfl := Option.some.inj (hclique.symm.trans hclique')
      exact ⟨clique, Array.mem_of_getElem? hclique, ha, hb⟩
    · rintro ⟨clique, hclique, ha, hb⟩
      obtain ⟨i, hi⟩ := Array.mem_iff_getElem?.mp hclique
      exact ⟨i, ⟨clique, hi, ha⟩, clique, hi, hb⟩
  rw [shareClique, h.occurrencesOf_eq ha, h.occurrencesOf_eq hb, ok_bind, ok_bind]
  by_cases hfewer : (t.containing a).length ≤ (t.containing b).length
  · rw [if_pos hfewer]
    exact .pure ((hcommon _ _ containing_increasing).trans hboth)
  · rw [if_neg hfewer]
    refine .pure ((hcommon _ _ containing_increasing).trans (Iff.trans ?_ hboth))
    exact exists_congr fun i => and_comm

theorem Indexed.impliedBy_returns (ha : a.column < n) :
    Returns (t.impliedBy a) fun literals => literals.Nodup ∧
      ∀ b, b ∈ literals ↔ b ≠ a ∧ t.Shares a b := by
  have hpositions : ∀ i ∈ t.containing a, i < t.cliques.size := fun i hi =>
    List.mem_range.mp (List.mem_filter.mp hi).1
  rw [impliedBy, h.occurrencesOf_eq ha, ok_bind]
  refine (gather_returns hpositions List.nodup_nil).mono fun literals _ hliterals =>
    ⟨hliterals.1, fun b => ?_⟩
  rw [hliterals.2, or_iff_right List.not_mem_nil]
  refine and_congr_right fun _ => ⟨?_, ?_⟩
  · rintro ⟨i, hi, clique, hclique, hb⟩
    obtain ⟨clique', hclique', ha⟩ := mem_containing.mp hi
    obtain rfl := Option.some.inj (hclique.symm.trans hclique')
    exact ⟨clique, Array.mem_of_getElem? hclique, ha, hb⟩
  · rintro ⟨clique, hclique, ha, hb⟩
    obtain ⟨i, hi⟩ := Array.mem_iff_getElem?.mp hclique
    exact ⟨i, mem_containing.mpr ⟨clique, hi, ha⟩, clique, hi, hb⟩

end Lookups

/-- The columns of a part, any two of which share a clique through their literals for one. -/
def Related (t : CliqueTable) (part : List ColumnId) : Prop :=
  part.Pairwise fun c c' => t.Shares ⟨c, true⟩ ⟨c', true⟩

theorem Shares.symm {a b : BinaryLiteral} (h : t.Shares a b) : t.Shares b a := by
  obtain ⟨clique, hclique, ha, hb⟩ := h
  exact ⟨clique, hclique, hb, ha⟩

/-- A column comes to the end of a part with all of whose columns it shares a clique, or into a part
of its own. -/
theorem Indexed.place_returns (h : t.Indexed n) {c : ColumnId} (hc : c < n)
    {parts : List (List ColumnId)} (hparts : ∀ part ∈ parts, ∀ m ∈ part, m < n) :
    Returns (t.place c parts) fun parts' => parts'.flatten.Perm (parts.flatten ++ [c]) ∧
      ∀ part' ∈ parts', part' ∈ parts ∨ ∃ part, (part = [] ∨ part ∈ parts) ∧ part' = part ++ [c] ∧
        ∀ m ∈ part, t.Shares ⟨c, true⟩ ⟨m, true⟩ := by
  induction parts with
  | nil =>
      refine .ok ⟨.refl _, fun part' hpart' => .inr ⟨[], .inl rfl, ?_, by simp⟩⟩
      exact List.mem_singleton.mp hpart'
  | cons part rest ih =>
      have hpart := hparts part (List.mem_cons_self ..)
      have htest : Returns (allHold (fun m => t.shareClique ⟨c, true⟩ ⟨m, true⟩) part)
          fun answer => answer = true ↔ ∀ m ∈ part, t.Shares ⟨c, true⟩ ⟨m, true⟩ :=
        allHold_returns fun m hm => h.shareClique_returns hc (hpart m hm)
      refine htest.bind fun answer _ hanswer => ?_
      cases answer with
      | true =>
          refine .pure ⟨?_, fun part' hpart' => ?_⟩
          · rw [List.flatten_cons, List.flatten_cons, List.append_assoc, List.append_assoc]
            exact (List.perm_append_comm).append_left part
          · rcases List.mem_cons.mp hpart' with rfl | hold
            · exact .inr ⟨part, .inr (List.mem_cons_self ..), rfl, hanswer.mp rfl⟩
            · exact .inl (List.mem_cons_of_mem _ hold)
      | false =>
          refine (ih fun part' hpart' => hparts part' (List.mem_cons_of_mem _ hpart')).bind
            fun parts' _ hplaced => .pure ⟨?_, fun part' hpart' => ?_⟩
          · rw [List.flatten_cons, List.flatten_cons, List.append_assoc]
            exact hplaced.1.append_left part
          · rcases List.mem_cons.mp hpart' with rfl | hpart'
            · exact .inl (List.mem_cons_self ..)
            · refine (hplaced.2 part' hpart').imp (List.mem_cons_of_mem _) ?_
              rintro ⟨before, hbefore, heq, hshares⟩
              exact ⟨before, hbefore.imp_right (List.mem_cons_of_mem _), heq, hshares⟩

/-- Columns are parted: every one of them stands in one part, in the order in which they came, and
any two columns of a part share a clique. -/
structure Parted (t : CliqueTable) (columns : List ColumnId) (parts : List (List ColumnId)) :
    Prop where
  perm : parts.flatten.Perm columns
  kept : ∀ part ∈ parts, part ≠ [] ∧ part.Sublist columns
  related : ∀ part ∈ parts, t.Related part

theorem Indexed.partition_returns (h : t.Indexed n) {columns : List ColumnId}
    (hcolumns : ∀ c ∈ columns, c < n) : Returns (t.partition columns) (t.Parted columns) := by
  have hloop : ∀ (columns done : List ColumnId) (parts : List (List ColumnId)),
      (∀ c ∈ done ++ columns, c < n) → t.Parted done parts →
        Returns (columns.foldlM (fun parts c => t.place c parts) parts)
        (t.Parted (done ++ columns)) := by
    intro columns
    induction columns with
    | nil => exact fun done parts _ hparts => .pure (by simpa using hparts)
    | cons c columns ih =>
        intro done parts hlt hparts
        have hdone : ∀ part ∈ parts, ∀ m ∈ part, m < n := fun part hpart m hm =>
          hlt m (List.mem_append_left _ ((hparts.kept part hpart).2.subset hm))
        rw [List.foldlM_cons]
        refine (h.place_returns (hlt c (by simp)) hdone).bind fun parts' _ hplaced => ?_
        have hstep := ih (done ++ [c]) parts' (by simpa using hlt) ?_
        · simpa using hstep
        · refine ⟨hplaced.1.trans (hparts.perm.append_right [c]), fun part' hpart' => ?_,
            fun part' hpart' => ?_⟩
          · rcases hplaced.2 part' hpart' with hold | ⟨part, hpart, rfl, -⟩
            · exact ⟨(hparts.kept part' hold).1,
                (hparts.kept part' hold).2.trans (List.sublist_append_left ..)⟩
            · refine ⟨by simp, List.Sublist.append_right ?_ [c]⟩
              rcases hpart with rfl | hpart
              · exact List.nil_sublist _
              · exact (hparts.kept part hpart).2
          · rcases hplaced.2 part' hpart' with hold | ⟨part, hpart, rfl, hshares⟩
            · exact hparts.related part' hold
            · refine List.pairwise_append.mpr
                ⟨?_, List.pairwise_singleton .., fun m hm c' hc' => ?_⟩
              · rcases hpart with rfl | hpart
                · exact .nil
                · exact hparts.related part hpart
              · obtain rfl := List.mem_singleton.mp hc'
                exact (hshares m hm).symm
  exact hloop columns [] [] (by simpa using hcolumns) ⟨.refl _, by simp, by simp⟩

/-- **Clique table lookups are exact.** Add any lists of literals of the columns of a table, which
may repeat literals and overlap. A list is stored, each of its literals once, exactly if there are
two different literals in it and no two of them are on one column. Under a literal exactly the
cliques that contain it are listed, in increasing order. Two literals are found to share a clique
exactly if some stored clique contains both of them; for different literals that is to say that
either one is among the literals which the other one implies, and among these no literal comes twice
or implies itself. Columns are parted such that each of them stands in one part, in the order in
which they came, and the literals for one of any two columns of a part share a clique. -/
theorem clique_lookups_exact (n : Nat) (lists : List (List BinaryLiteral))
    (hlists : ∀ literals ∈ lists, ∀ l ∈ literals, l.column < n) :
    Returns ((lists.mapM add).finish (empty n)) fun (stored, t) =>
      stored = lists.map (fun literals => decide (FormsClique literals)) ∧
      t.cliques.toList = (lists.filter fun literals => decide (FormsClique literals)).map distinct ∧
      (∀ a : BinaryLiteral, a.column < n → Returns (t.occurrencesOf a) fun found =>
        found.Pairwise (· < ·) ∧ ∀ i, i ∈ found ↔ ∃ clique, t.cliques[i]? = some clique ∧
        a ∈ clique) ∧
      (∀ a b : BinaryLiteral, a.column < n → b.column < n →
        ∃ common impliedByA impliedByB, t.shareClique a b = .ok common ∧
          t.impliedBy a = .ok impliedByA ∧ t.impliedBy b = .ok impliedByB ∧
          (common = true ↔ t.Shares a b) ∧ impliedByA.Nodup ∧ a ∉ impliedByA ∧
          (a ≠ b → (common = true ↔ b ∈ impliedByA) ∧ (common = true ↔ a ∈ impliedByB))) ∧
      ∀ columns : List ColumnId, (∀ c ∈ columns, c < n) →
        Returns (t.partition columns) (t.Parted columns) := by
  refine ((empty_indexed n).addAll hlists).mono ?_
  rintro ⟨stored, t⟩ - ⟨ht, hstored, hcliques⟩
  refine ⟨hstored, hcliques, fun a ha => ?_, fun a b ha hb => ?_, fun _ => ht.partition_returns⟩
  · exact ⟨_, ht.occurrencesOf_eq ha, containing_increasing, fun _ => mem_containing⟩
  · obtain ⟨common, hcommon, hshares⟩ := ht.shareClique_returns ha hb
    obtain ⟨impliedByA, hA, hnodup, hmemA⟩ := ht.impliedBy_returns ha
    obtain ⟨impliedByB, hB, -, hmemB⟩ := ht.impliedBy_returns hb
    refine ⟨common, impliedByA, impliedByB, hcommon, hA, hB, hshares, hnodup,
      fun hself => ((hmemA a).mp hself).1 rfl, fun hne => ⟨?_, ?_⟩⟩
    · rw [hshares, hmemA, and_iff_right hne.symm]
    · rw [hshares, hmemB, and_iff_right hne]
      exact ⟨Shares.symm, Shares.symm⟩

/-- Two cliques that overlap, and lists with one literal or with both literals of a column. -/
def overlappingLists : List (List BinaryLiteral) :=
  [[⟨2, true⟩, ⟨0, true⟩, ⟨2, true⟩], [⟨1, true⟩, ⟨1, true⟩], [⟨1, true⟩, ⟨0, false⟩, ⟨1, false⟩],
    [⟨1, true⟩, ⟨2, true⟩, ⟨3, false⟩]]

/-- The first and the last of four lists are stored, and the columns fall into two parts. -/
theorem overlapping_cliques_looked_up :
    (∀ literals ∈ overlappingLists, ∀ l ∈ literals, l.column < 4) ∧
    ∃ t, (overlappingLists.mapM add).finish (empty 4) = .ok ([true, false, false, true], t) ∧
      t.cliques.toList = [[⟨0, true⟩, ⟨2, true⟩], [⟨1, true⟩, ⟨2, true⟩, ⟨3, false⟩]] ∧
      t.Shares ⟨2, true⟩ ⟨3, false⟩ ∧
      Returns (t.partition [3, 2, 1, 0]) fun parts =>
        parts = [[3], [2, 1], [0]] ∧ t.Parted [3, 2, 1, 0] parts := by
  have hlists : ∀ literals ∈ overlappingLists, ∀ l ∈ literals, l.column < 4 := by decide
  have hparted : passes ((overlappingLists.mapM add).finish (empty 4)) (fun (_, t) =>
      passes (t.shareClique ⟨2, true⟩ ⟨3, false⟩) (· = true) &&
        passes (t.partition [3, 2, 1, 0]) fun parts => parts == [[3], [2, 1], [0]]) = true := by
    cbv
  have hcliques : (overlappingLists.filter fun literals => decide (FormsClique literals)).map
      distinct = [[⟨0, true⟩, ⟨2, true⟩], [⟨1, true⟩, ⟨2, true⟩, ⟨3, false⟩]] := by
    cbv
  obtain ⟨⟨stored, t⟩, hrun, hstored, hstoredCliques, -, hlookups, hpartition⟩ :=
    clique_lookups_exact 4 overlappingLists hlists
  rw [hrun] at hparted
  obtain ⟨hshared, hparts⟩ := Bool.and_eq_true_iff.mp hparted
  obtain ⟨parts, hparts, hparts'⟩ := passes_eq_true.mp hparts
  obtain ⟨answer, hanswer, htrue⟩ := passes_eq_true.mp hshared
  obtain ⟨common, -, -, hcommon, -, -, hshares, -⟩ :=
    hlookups ⟨2, true⟩ ⟨3, false⟩ (by decide) (by decide)
  obtain rfl := Except.ok.inj (hanswer.symm.trans hcommon)
  have hflags : stored = [true, false, false, true] := hstored.trans (by decide)
  refine ⟨hlists, t, hflags ▸ hrun, hstoredCliques.trans hcliques,
    hshares.mp (of_decide_eq_true htrue), parts, hparts, beq_iff_eq.mp hparts', ?_⟩
  exact (hpartition [3, 2, 1, 0] (by decide)).of_eq_ok hparts

end CliqueTable

end BranchBound
