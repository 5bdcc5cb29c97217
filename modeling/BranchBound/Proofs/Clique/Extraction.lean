import BranchBound.Clique.Extraction
import BranchBound.Proofs.Action
import BranchBound.Proofs.Assignment
import BranchBound.Proofs.Clique.Table
import BranchBound.Proofs.Domain.BoundLog
import Mathlib.Data.List.ReduceOption
import Mathlib.Data.List.Sort

/-!
# The largest clique of a row

In a list of falling weights, a run in which any two neighbours exceed a limit together is a set in
which any two weights do. No such set is larger than the longest run at the start of the list: put
in falling order, each of its weights is at most the one at the same position of the list, so the
neighbours of the list exceed the limit as long as those of the set do.

For a side of a row over a box, the weights are the absolute coefficients of the binary columns that
are not fixed, and the limit is the right-hand side less the smallest activity of the row. Making
two literals true adds their weights to the smallest activity.
-/

namespace BranchBound

open Checked Exact

/-- A literal with the amount by which it raises the activity of a row. -/
abbrev WeightedLiteral := BinaryLiteral × ℚ

/-- A literal is true at an assignment. -/
def BinaryLiteral.TrueAt (l : BinaryLiteral) (a : Assignment) : Prop :=
  a l.column = if l.value then 1 else 0

namespace CliqueTable

variable {limit : Exact} {p p' w w' : ℚ} {literals found : List WeightedLiteral}

/-- Two weights are above a limit together. -/
def Exceed (limit : Exact) (w w' : ℚ) : Prop := limit < number (w + w')

theorem Exceed.mono (h : Exceed limit p w) (hp : p ≤ p') (hw : w ≤ w') : Exceed limit p' w' :=
  lt_of_lt_of_le h (number_le.mpr (add_le_add hp hw))

theorem Exceed.symm (h : Exceed limit w w') : Exceed limit w' w := by
  rw [Exceed, add_comm]
  exact h

/-- Literals of which any two are above a limit together. -/
abbrev Exclusive (limit : Exact) (literals : List WeightedLiteral) : Prop :=
  literals.Pairwise fun x y => Exceed limit x.2 y.2

/-- The literals are in the order of falling weights. -/
abbrev Falling (literals : List WeightedLiteral) : Prop := literals.Pairwise fun x y => y.2 ≤ x.2

/-- The weights as the numbers that extraction computes with. -/
def exactWeights (literals : List WeightedLiteral) : List (BinaryLiteral × Exact) :=
  literals.map fun x => (x.1, number x.2)

/-- In a falling list, any two literals of a run exceed the limit, and so does every one of them
with what came before the run. -/
theorem exceedingRun_exclusive (limit : Exact) (hfalling : Falling literals)
    (hp : ∀ x ∈ literals, x.2 ≤ p) :
    ∃ run, run <+: literals ∧
      exceedingRun limit (number p) (exactWeights literals) = run.map Prod.fst ∧
      (∀ x ∈ run, Exceed limit p x.2) ∧ Exclusive limit run := by
  induction literals generalizing p with
  | nil => exact ⟨[], List.nil_prefix, rfl, by simp, .nil⟩
  | cons x rest ih =>
      rw [exactWeights, List.map_cons, exceedingRun]
      by_cases hx : limit < number p + number x.2
      · rw [if_pos hx]
        rw [number_add] at hx
        obtain ⟨hfirst, hrest⟩ := List.pairwise_cons.mp hfalling
        obtain ⟨run, hprefix, hrun, hexceed, hexclusive⟩ := ih hrest hfirst
        refine ⟨x :: run, List.prefix_cons_inj x |>.mpr hprefix, ?_, ?_, ?_⟩
        · rw [List.map_cons, ← hrun]
          rfl
        · rw [List.forall_mem_cons]
          refine ⟨hx, fun y hy => (hexceed y hy).mono (hp x (List.mem_cons_self ..)) le_rfl⟩
        · exact List.pairwise_cons.mpr ⟨hexceed, hexclusive⟩
      · rw [if_neg hx]
        exact ⟨[], List.nil_prefix, rfl, by simp, .nil⟩

/-- Weights that are chosen from a falling list, after a weight that is not above what came before
the list, are not more than the run has literals if any two neighbours exceed the limit. -/
theorem length_le_exceedingRun {chosen : List ℚ} (hfalling : Falling literals)
    (hp : ∀ x ∈ literals, x.2 ≤ p) (hchosen : chosen.Sublist (literals.map Prod.snd)) (hw : w ≤ p)
    (hexceed : (w :: chosen).IsChain (Exceed limit)) :
    chosen.length ≤ (exceedingRun limit (number p) (exactWeights literals)).length := by
  induction literals generalizing p w chosen with
  | nil =>
      rw [List.map_nil, List.sublist_nil] at hchosen
      rw [hchosen]
      exact Nat.zero_le _
  | cons x rest ih =>
      cases chosen with
      | nil => exact Nat.zero_le _
      | cons v chosen =>
          obtain ⟨hfirst, hrest⟩ := List.pairwise_cons.mp hfalling
          have hv : v ≤ x.2 := by
            rcases List.mem_cons.mp (hchosen.subset (List.mem_cons_self ..)) with rfl | hv
            · exact le_rfl
            · obtain ⟨y, hy, rfl⟩ := List.mem_map.mp hv
              exact hfirst y hy
          obtain ⟨hexceedFirst, hexceedRest⟩ := List.isChain_cons_cons.mp hexceed
          have hx : limit < number p + number x.2 := by
            rw [number_add]
            exact hexceedFirst.mono hw hv
          rw [exactWeights, List.map_cons, exceedingRun, if_pos hx]
          exact Nat.succ_le_succ (ih hrest hfirst hchosen.tail hv hexceedRest)

theorem fallingOrder_number {a b : ℚ} :
    (Scalar.fallingOrder (number a) (number b) != .gt) = decide (b ≤ a) := by
  change (totalOrder (number b) (number a) != .gt) = decide (b ≤ a)
  simp only [totalOrder, less, decide_eq_true_eq]
  rcases lt_trichotomy b a with hlt | rfl | hgt
  · rw [if_pos hlt, decide_eq_true hlt.le]
    rfl
  · simp
  · rw [if_neg hgt.not_gt, if_pos hgt, decide_eq_false (not_le.mpr hgt)]
    rfl

/-- The order in which the literals are sorted. -/
def fallsTo (x y : WeightedLiteral) : Bool := decide (y.2 ≤ x.2)

theorem falling_mergeSort (literals : List WeightedLiteral) :
    Falling (literals.mergeSort fallsTo) := by
  refine (List.pairwise_mergeSort (fun x y z hxy hyz => ?_) (fun x y => ?_) literals).imp ?_
  · exact decide_eq_true ((of_decide_eq_true hyz).trans (of_decide_eq_true hxy))
  · rw [Bool.or_eq_true, fallsTo, fallsTo, decide_eq_true_eq, decide_eq_true_eq]
    exact le_total y.2 x.2
  · exact fun h => of_decide_eq_true h

theorem mergeSort_exactWeights (literals : List WeightedLiteral) :
    (exactWeights literals).mergeSort (fun x y => Scalar.fallingOrder x.2 y.2 != .gt) =
      exactWeights (literals.mergeSort fallsTo) :=
  (List.map_mergeSort fun _ _ _ _ => fallingOrder_number.symm).symm

/-- The weights of literals that are chosen from others are among those at the same or an earlier
position, if both are in falling order. -/
theorem sublist_weights (hfound : Falling found) (hfalling : Falling literals)
    (h : found.Subperm literals) :
    (found.map Prod.snd).Sublist (literals.map Prod.snd) := by
  obtain ⟨chosen, hperm, hsublist⟩ := h
  have hweights : (found.map Prod.snd).Subperm (literals.map Prod.snd) :=
    ⟨chosen.map Prod.snd, hperm.map _, hsublist.map _⟩
  have hfound : (found.map Prod.snd).Pairwise (· ≥ ·) := List.pairwise_map.mpr hfound
  have hfalling : (literals.map Prod.snd).Pairwise (· ≥ ·) := List.pairwise_map.mpr hfalling
  exact List.sublist_of_subperm_of_pairwise hweights hfound hfalling

/-- The set that extraction takes is exclusive, and no exclusive set is larger. -/
theorem largestClique_eq (feastol rhs : Exact) (literals : List WeightedLiteral) :
    ∃ clique : List WeightedLiteral,
      largestClique feastol rhs (exactWeights literals) = clique.map Prod.fst ∧
      clique.Subperm literals ∧ Exclusive (rhs + feastol) clique ∧
      ∀ other : List WeightedLiteral, other.Subperm literals → Exclusive (rhs + feastol) other →
        other.length ≤ clique.length := by
  have hfalling := falling_mergeSort literals
  have hperm := List.mergeSort_perm literals fallsTo
  rw [largestClique, mergeSort_exactWeights]
  generalize literals.mergeSort fallsTo = sorted at hfalling hperm
  cases sorted with
  | nil =>
      refine ⟨[], rfl, hperm.subperm, .nil, fun other hother _ => ?_⟩
      exact (hother.trans hperm.symm.subperm).length_le
  | cons x rest =>
      obtain ⟨hfirst, hrest⟩ := List.pairwise_cons.mp hfalling
      obtain ⟨run, hprefix, hrun, hexceed, hexclusive⟩ :=
        exceedingRun_exclusive (rhs + feastol) hrest hfirst
      refine ⟨x :: run, ?_, ?_, List.pairwise_cons.mpr ⟨hexceed, hexclusive⟩, ?_⟩
      · rw [List.map_cons, ← hrun]
        rfl
      · exact (List.cons_sublist_cons.mpr hprefix.sublist).subperm.trans hperm.subperm
      · intro other hother hexclusive
        have hsorted := List.mergeSort_perm other fallsTo
        have hchosen := sublist_weights (falling_mergeSort other) hfalling
          (hsorted.subperm.trans (hother.trans hperm.symm.subperm))
        have hall := (List.Perm.pairwise_iff Exceed.symm hsorted.symm).mp hexclusive
        have hlength : run.length = (run.map Prod.fst).length := (List.length_map ..).symm
        rw [← hsorted.length_eq, List.length_cons, hlength, ← hrun]
        cases hlist : other.mergeSort fallsTo with
        | nil => exact Nat.zero_le _
        | cons y others =>
            rw [hlist] at hchosen hall
            have hy : y.2 ≤ x.2 := by
              rcases List.mem_cons.mp (hchosen.subset (List.mem_cons_self ..)) with heq | hmem
              · exact heq.le
              · obtain ⟨z, hz, heq⟩ := List.mem_map.mp hmem
                exact heq ▸ hfirst z hz
            have hchain : ((y :: others).map Prod.snd).IsChain (Exceed (rhs + feastol)) :=
              (List.pairwise_map.mpr hall).isChain
            have hlength := length_le_exceedingRun hrest hfirst hchosen.tail hy hchain
            rw [List.map_cons, List.tail_cons, List.length_map] at hlength
            exact Nat.succ_le_succ hlength

/-! ### Adding a clique -/

variable {t : CliqueTable} {columnCount : Nat} {clique : List BinaryLiteral}

theorem distinct_perm (h : clique.Nodup) : (distinct clique).Perm clique :=
  (List.perm_ext_iff_of_nodup distinct_nodup h).mpr fun _ => mem_distinct

/-- Literals of different columns are a clique if there are two of them. -/
theorem isClique_of_columns (htwo : 2 ≤ clique.length)
    (hcolumns : clique.Pairwise fun l l' => l.column ≠ l'.column) : isClique clique = true := by
  rw [isClique, Bool.and_eq_true, decide_eq_true_eq, List.all_eq_true]
  refine ⟨htwo, fun pair hpair => ?_⟩
  obtain ⟨i, hi, rfl⟩ := List.mem_iff_getElem.mp hpair
  rw [List.length_zip, List.length_tail] at hi
  rw [List.getElem_zip, List.getElem_tail, bne_iff_ne]
  exact List.pairwise_iff_getElem.mp hcolumns i (i + 1) (by omega) (by omega) (Nat.lt_succ_self i)

/-- A clique of literals of different columns is stored as it is, in the order of its literals. -/
theorem add_perform (hsize : t.occurrences.size = 2 * columnCount) (htwo : 2 ≤ clique.length)
    (hcolumns : clique.Pairwise fun l l' => l.column ≠ l'.column)
    (hlt : ∀ l ∈ clique, l.column < columnCount) :
    ∃ t', (add clique).perform t = (.ok true, t') ∧ t'.occurrences.size = 2 * columnCount ∧
      ∃ stored : List BinaryLiteral, stored.Perm clique ∧ t'.cliques = t.cliques.push stored := by
  have hnodup : clique.Nodup := hcolumns.imp fun hne heq => hne (congrArg _ heq)
  have hperm := distinct_perm hnodup
  have hclique : isClique (distinct clique) = true :=
    isClique_of_columns (hperm.length_eq ▸ htwo)
      ((List.Perm.pairwise_iff (fun h => h.symm) hperm).mpr hcolumns)
  obtain ⟨u, hlist, -⟩ := foldlM_listUnder_returns t.cliques.size fun l hl =>
    hsize ▸ BinaryLiteral.index_lt (hlt l (hperm.subset hl))
  obtain ⟨hcliques, hoccurrences, -⟩ := foldlM_listUnder_eq_ok distinct_nodup hlist
  refine ⟨{ u with cliques := u.cliques.push (distinct clique) }, ?_, hoccurrences.trans hsize, _,
    hperm, ?_⟩
  · simp only [add, hclique, Bool.not_true, Bool.false_eq_true, if_false]
    rw [Action.perform_bind_eq_ok]
    refine ⟨t, t, rfl, ?_⟩
    rw [Action.perform_bind_eq_ok]
    exact ⟨(), u, Action.perform_forM_change_eq_ok.mpr hlist, rfl⟩
  · rw [hcliques]

end CliqueTable

/-! ### Sides of rows -/

namespace Domain

variable {d : Domain Exact} {entries : List (ColumnId × Exact)} {c : ColumnId}

/-- Whether a column is binary and not fixed. -/
def isFree (d : Domain Exact) (c : ColumnId) : Bool :=
  passes (d.isBinary c) id && passes (d.isFixed c) not

/-- The smallest value of a term in the box, where a free column is zero or one. -/
def leastTerm (d : Domain Exact) (e : ColumnId × Exact) : ℚ :=
  if d.isFree e.1 then min e.2.toRat 0 else e.2.toRat * (d.values (minSide e.2) e.1).toRat

/-- The smallest value of `Σ a x`. -/
def leastActivity (d : Domain Exact) (entries : List (ColumnId × Exact)) : ℚ :=
  (entries.map d.leastTerm).sum

/-- Some column that is not free has a term without a finite smallest value. -/
def Unbounded (d : Domain Exact) (entries : List (ColumnId × Exact)) : Prop :=
  ∃ e ∈ entries, d.isFree e.1 = false ∧ Scalar.isInfinite (d.values (minSide e.2) e.1) = true

/-- The literals of the free columns that raise the activity, with the amount by which they do. -/
def raising (d : Domain Exact) (entries : List (ColumnId × Exact)) : List WeightedLiteral :=
  (entries.filter fun e => d.isFree e.1).map fun e =>
    (⟨e.1, decide (0 < e.2.toRat)⟩, |e.2.toRat|)

/-- By how much the activity of `Σ a x ≤ rhs` can be raised above its smallest value until it
exceeds the right-hand side by the tolerance. -/
def room (d : Domain Exact) (i : Inequality Exact) : Exact :=
  i.rhs - number (d.leastActivity i.entries) + d.feastol

/-- There are bounds for all columns of the model, and they are numbers at least as tight as those
of the model. -/
structure Boxed (d : Domain Exact) : Prop where
  size : ∀ side, (d.bounds side).size = d.model.columns.size
  number : ∀ side c, c < d.model.columns.size → d.values side c ≠ nan
  within : ∀ (side : Side) c,
    side.tightOrEqual (d.values side c) ((Trail.ofModel d.model).values side c) = true

theorem Boxed.boundValue (h : d.Boxed) (side : Side) (hc : c < d.model.columns.size) :
    d.boundValue side c = .ok (d.values side c) :=
  boundValue_of_lt ((h.size side).symm ▸ hc)

theorem Boxed.isFree_eq (h : d.Boxed) (hc : c < d.model.columns.size) :
    ∃ isBinary isFixed, d.isBinary c = .ok isBinary ∧ d.isFixed c = .ok isFixed ∧
      d.isFree c = (isBinary && !isFixed) := by
  have hbinary : Returns (d.isBinary c) fun _ => True := by
    refine Returns.bind (P := fun _ => True) ?_ fun _ _ _ => .pure trivial
    exact (fetch_returns hc).mono fun _ _ _ => trivial
  have hfixed : Returns (d.isFixed c) fun _ => True := by
    rw [isFixed, h.boundValue _ hc, h.boundValue _ hc]
    exact .pure trivial
  obtain ⟨isBinary, hbinary, -⟩ := hbinary
  obtain ⟨isFixed, hfixed, -⟩ := hfixed
  refine ⟨isBinary, isFixed, hbinary, hfixed, ?_⟩
  rw [isFree, hbinary, hfixed]
  rfl

theorem sub_number_add (v : Exact) (x y : ℚ) : v - number x - number y = v - number (x + y) := by
  cases v with
  | number q => rw [number_sub, number_sub, number_sub, sub_sub]
  | _ => rfl

theorem sub_number_zero (v : Exact) : v - number 0 = v := by
  cases v with
  | number q => rw [number_sub, sub_zero]
  | _ => rfl

section Reading

open CliqueTable

variable {q : ℚ} {rest : List (ColumnId × Exact)}

theorem literalsOfSide_cons_of_free (h : d.Boxed) (hc : c < d.model.columns.size)
    (hfree : d.isFree c = true) (rhs : Exact) :
    literalsOfSide d rhs ((c, number q) :: rest) =
      (literalsOfSide d (rhs - number (min q 0)) rest >>= fun found => pure (found.map fun x =>
        ((⟨c, decide (0 < q)⟩, number |q|) :: x.1, x.2))) := by
  obtain ⟨isBinary, isFixed, hbinary, hfixed, hchoice⟩ := h.isFree_eq hc
  rw [hfree, eq_comm, Bool.and_eq_true, Bool.not_eq_true'] at hchoice
  obtain ⟨rfl, rfl⟩ := hchoice
  simp only [literalsOfSide, hbinary, hfixed, ok_bind, Bool.not_false, Bool.and_self, if_true,
    ofNat_eq, Nat.cast_zero, number_lt]
  by_cases hq : 0 < q
  · simp only [hq, if_true, min_eq_right hq.le, sub_number_zero, abs_of_pos hq, decide_true]
  · have hle := not_lt.mp hq
    simp only [hq, if_false, min_eq_left hle, abs_of_nonpos hle, decide_false, neg_number]

theorem literalsOfSide_cons_of_not_free (h : d.Boxed) (hc : c < d.model.columns.size)
    (hfree : d.isFree c = false) (rhs : Exact) :
    literalsOfSide d rhs ((c, number q) :: rest) =
      if Scalar.isInfinite (d.values (minSide (number q)) c) = true then .ok none
      else literalsOfSide d (rhs - number q * d.values (minSide (number q)) c) rest := by
  obtain ⟨isBinary, isFixed, hbinary, hfixed, hchoice⟩ := h.isFree_eq hc
  have hside : (if (0 : Exact) < number q then Side.lower else Side.upper) = minSide
    (number q) := by
    rw [minSide_number]
    simp
  rw [hfree] at hchoice
  cases isBinary with
  | true =>
      rw [Bool.true_and] at hchoice
      simp only [literalsOfSide, hbinary, hfixed, ok_bind, if_true, Bool.true_and, ← hchoice,
        Bool.false_eq_true, if_false, hside, h.boundValue _ hc]
      rfl
  | false =>
      simp only [literalsOfSide, hbinary, ok_bind, Bool.false_eq_true,
        if_false, Bool.false_and, hside,
        h.boundValue _ hc, pure_bind]
      rfl

theorem unbounded_cons {e : ColumnId × Exact} : d.Unbounded (e :: rest) ↔
    (d.isFree e.1 = false ∧ Scalar.isInfinite (d.values (minSide e.2) e.1) = true) ∨
      d.Unbounded rest := by
  simp only [Unbounded, List.exists_mem_cons_iff]

/-- What is read off a side of a row. -/
theorem literalsOfSide_eq (h : d.Boxed) (rhs : Exact)
    (hentries : ∀ e ∈ entries, e.1 < d.model.columns.size ∧ ∃ q, e.2 = number q) :
    (d.Unbounded entries ∧ literalsOfSide d rhs entries = .ok none) ∨
      ¬d.Unbounded entries ∧ literalsOfSide d rhs entries =
        .ok (some (exactWeights (d.raising entries), rhs - number (d.leastActivity entries))) := by
  induction entries generalizing rhs with
  | nil =>
      right
      refine ⟨fun ⟨_, he, _⟩ => absurd he List.not_mem_nil, ?_⟩
      rw [literalsOfSide, leastActivity, List.map_nil, List.sum_nil, sub_number_zero]
      rfl
  | cons e rest ih =>
      obtain ⟨c, v⟩ := e
      rw [List.forall_mem_cons] at hentries
      obtain ⟨⟨hc, q, hq⟩, hrest⟩ := hentries
      dsimp only at hc hq
      subst hq
      cases hfree : d.isFree c with
      | true =>
          rw [unbounded_cons, hfree, literalsOfSide_cons_of_free h hc hfree]
          rcases ih (rhs - number (min q 0)) hrest with ⟨hunbounded, heq⟩ | ⟨hbounded, heq⟩
          · left
            rw [heq]
            exact ⟨.inr hunbounded, rfl⟩
          · right
            refine ⟨by simpa using hbounded, ?_⟩
            have hleast : d.leastActivity ((c, number q) :: rest) =
                min q 0 + d.leastActivity rest := by
              rw [leastActivity, List.map_cons, List.sum_cons, leastTerm, hfree]
              rfl
            have hraising : d.raising ((c, number q) :: rest) =
                (⟨c, decide (0 < q)⟩, |q|) :: d.raising rest := by
              simp only [raising, List.filter_cons, hfree, if_true, List.map_cons, toRat_number]
              rfl
            rw [heq, sub_number_add, hleast, hraising]
            rfl
      | false =>
          rw [unbounded_cons, literalsOfSide_cons_of_not_free h hc hfree]
          by_cases hinfinite : Scalar.isInfinite (d.values (minSide (number q)) c) = true
          · left
            rw [if_pos hinfinite]
            exact ⟨.inl ⟨hfree, hinfinite⟩, rfl⟩
          · obtain ⟨r, hr⟩ := exists_number_of_finite (h.number (minSide (number q)) c hc)
              (Bool.eq_false_iff.mpr hinfinite)
            rw [if_neg hinfinite, hr, number_mul]
            rcases ih (rhs - number (q * r)) hrest with ⟨hunbounded, heq⟩ | ⟨hbounded, heq⟩
            · left
              exact ⟨.inr hunbounded, heq⟩
            · right
              refine ⟨fun hor => hor.elim (fun hhead => ?_) hbounded, ?_⟩
              · exact absurd hhead.2 Bool.false_ne_true
              · have hleast : d.leastActivity ((c, number q) :: rest) =
                    q * r + d.leastActivity rest := by
                  rw [leastActivity, List.map_cons, List.sum_cons, leastTerm, hfree]
                  simp only [Bool.false_eq_true, if_false, hr, toRat_number]
                  rfl
                have hraising : d.raising ((c, number q) :: rest) = d.raising rest := by
                  simp only [raising, List.filter_cons, hfree, Bool.false_eq_true, if_false]
                rw [heq, sub_number_add, hleast, hraising]

end Reading

/-! ### Points of the box -/

variable {a : Assignment}

/-- A point of the box with whole values in the binary columns. -/
structure HasBinary (d : Domain Exact) (a : Assignment) : Prop where
  inside : a.reading.Inside d.values d.model.columns.size
  whole : ∀ c, d.isBinary c = .ok true → ∃ k : ℤ, a c = k

/-- Binary columns are zero or one. -/
theorem HasBinary.zero_or_one (ha : d.HasBinary a) (h : d.Boxed) (hc : c < d.model.columns.size)
    (hbinary : d.isBinary c = .ok true) : a c = 0 ∨ a c = 1 := by
  obtain ⟨k, hk⟩ := ha.whole c hbinary
  simp only [isBinary, Model.column, bind_eq_ok, fetch_eq_ok, pure_eq_ok, Bool.and_eq_true,
    decide_eq_true_eq] at hbinary
  obtain ⟨column, hcolumn, ⟨-, hlower⟩, hupper⟩ := hbinary
  have hheld (side : Side) : a.reading.Holds ⟨c, side, (Trail.ofModel d.model).values side c⟩ :=
    a.reading.weaken (ha.inside side c hc) (h.within side c)
  have hge : (0 : ℚ) ≤ k := by
    have hvalue : (Trail.ofModel d.model).values .lower c = column.lower := by
      simp [Trail.values, Trail.bounds, Trail.ofModel, hcolumn]
    have hle : column.lower ≤ number (a c) := hvalue ▸ hheld .lower
    have hzero := Exact.le_trans hlower hle
    rw [ofNat_eq, Nat.cast_zero, number_le] at hzero
    exact hk ▸ hzero
  have hle : (k : ℚ) ≤ 1 := by
    have hvalue : (Trail.ofModel d.model).values .upper c = column.upper := by
      simp [Trail.values, Trail.bounds, Trail.ofModel, hcolumn]
    have hle : number (a c) ≤ column.upper := hvalue ▸ hheld .upper
    have hone := Exact.le_trans hle hupper
    rw [ofNat_eq, Nat.cast_one, number_le] at hone
    exact hk ▸ hone
  rw [hk]
  have hge' : 0 ≤ k := by exact_mod_cast hge
  have hle' : k ≤ 1 := by exact_mod_cast hle
  rcases Int.le_iff_eq_or_lt.mp hle' with rfl | hlt
  · right
    exact Int.cast_one
  · left
    have hzero : k = 0 := by omega
    rw [hzero, Int.cast_zero]

/-- What a term is above its smallest value. -/
def gain (d : Domain Exact) (a : Assignment) (e : ColumnId × Exact) : ℚ :=
  e.2.toRat * a e.1 - d.leastTerm e

theorem sum_gain (a : Assignment) (entries : List (ColumnId × Exact)) :
    (entries.map (d.gain a)).sum =
      a.total (entries : List (ColumnId × Exact)) - d.leastActivity entries := by
  induction entries with
  | nil => simp [leastActivity]
  | cons e rest ih =>
      have hleast : d.leastActivity (e :: rest) = d.leastTerm e + d.leastActivity rest := by
        rw [leastActivity, List.map_cons, List.sum_cons]
        rfl
      rw [List.map_cons, List.sum_cons, ih, Assignment.total_coe_cons, hleast, gain]
      ring

theorem isBinary_of_isFree (h : d.isFree c = true) : d.isBinary c = .ok true := by
  rw [isFree, Bool.and_eq_true, passes_eq_true] at h
  obtain ⟨⟨isBinary, hbinary, rfl⟩, -⟩ := h
  exact hbinary

/-- No term is below its smallest value. -/
theorem gain_nonneg (h : d.Boxed) (ha : d.HasBinary a) {e : ColumnId × Exact}
    (he : e.1 < d.model.columns.size ∧ ∃ q, e.2 = number q)
    (hbounded : d.isFree e.1 = false → Scalar.isInfinite (d.values (minSide e.2) e.1) = false) :
    0 ≤ d.gain a e := by
  obtain ⟨c, v⟩ := e
  obtain ⟨hc, q, hq⟩ := he
  dsimp only at hc hq hbounded
  subst hq
  cases hfree : d.isFree c with
  | true =>
      simp only [gain, leastTerm, hfree, if_true, toRat_number]
      rcases ha.zero_or_one h hc (isBinary_of_isFree hfree) with hzero | hone
      · rw [hzero, mul_zero, zero_sub, neg_nonneg]
        exact min_le_right q 0
      · rw [hone, mul_one, sub_nonneg]
        exact min_le_left q 0
  | false =>
      obtain ⟨r, hr⟩ := exists_number_of_finite (h.number _ c hc) (hbounded hfree)
      have hheld := ha.inside (minSide (number q)) c hc
      rw [hr] at hheld
      simp only [gain, leastTerm, hfree, Bool.false_eq_true, if_false, hr, toRat_number]
      exact sub_nonneg.mpr (Assignment.minTerm_number_le hheld)

/-- A literal that raises the activity belongs to a term which is above its smallest value by the
weight of the literal where the literal is true. -/
theorem gain_of_trueAt (hentries : ∀ e ∈ entries, ∃ q, e.2 = number q) {x : WeightedLiteral}
    (hx : x ∈ d.raising entries) (htrue : x.1.TrueAt a) :
    ∃ e ∈ entries, e.1 = x.1.column ∧ d.gain a e = x.2 := by
  obtain ⟨e, he, rfl⟩ := List.mem_map.mp hx
  obtain ⟨hmem, hfree⟩ := List.mem_filter.mp he
  obtain ⟨q, hq⟩ := hentries e hmem
  refine ⟨e, hmem, rfl, ?_⟩
  rw [BinaryLiteral.TrueAt, hq] at htrue
  simp only [gain, leastTerm, hfree, if_true, hq, toRat_number]
  by_cases hpos : 0 < q
  · have hone : a e.1 = 1 := by simpa [hpos] using htrue
    rw [hone, min_eq_right hpos.le, abs_of_pos hpos, mul_one, sub_zero]
  · have hzero : a e.1 = 0 := by simpa [hpos] using htrue
    have hle := not_lt.mp hpos
    rw [hzero, min_eq_left hle, abs_of_nonpos hle, mul_zero, zero_sub]

/-- Two of the numbers of a list without negative numbers are not more than the sum of all. -/
theorem add_le_sum {β : Type} {f : β → ℚ} {xs : List β} (hnonneg : ∀ x ∈ xs, 0 ≤ f x) {x y : β}
    (hx : x ∈ xs) (hy : y ∈ xs) (hne : x ≠ y) : f x + f y ≤ (xs.map f).sum := by
  have hsingle {ys : List β} (hys : ∀ z ∈ ys, 0 ≤ f z) {z : β} (hz : z ∈ ys) :
      f z ≤ (ys.map f).sum :=
    List.single_le_sum (by simpa using hys) _ (List.mem_map_of_mem hz)
  induction xs with
  | nil => cases hx
  | cons z rest ih =>
      obtain ⟨hz, hrest⟩ := List.forall_mem_cons.mp hnonneg
      rw [List.map_cons, List.sum_cons]
      rcases List.mem_cons.mp hx with rfl | hxrest
      · rcases List.mem_cons.mp hy with rfl | hyrest
        · exact absurd rfl hne
        · linarith [hsingle hrest hyrest]
      · rcases List.mem_cons.mp hy with rfl | hyrest
        · linarith [hsingle hrest hxrest]
        · exact (ih hrest hxrest hyrest).trans (le_add_of_nonneg_left hz)

/-- Two literals of different columns that are true raise the activity by both of their weights. -/
theorem least_add_le_total (h : d.Boxed) (ha : d.HasBinary a)
    (hentries : ∀ e ∈ entries, e.1 < d.model.columns.size ∧ ∃ q, e.2 = number q)
    (hbounded : ¬d.Unbounded entries) {x y : WeightedLiteral} (hx : x ∈ d.raising entries)
    (hy : y ∈ d.raising entries) (hne : x.1.column ≠ y.1.column) (hxtrue : x.1.TrueAt a)
    (hytrue : y.1.TrueAt a) :
    d.leastActivity entries + (x.2 + y.2) ≤ a.total (entries : List (ColumnId × Exact)) := by
  have hnumbers : ∀ e ∈ entries, ∃ q, e.2 = number q := fun e he => (hentries e he).2
  obtain ⟨e, he, hcolumn, hgain⟩ := gain_of_trueAt hnumbers hx hxtrue
  obtain ⟨e', he', hcolumn', hgain'⟩ := gain_of_trueAt hnumbers hy hytrue
  have hnonneg : ∀ e ∈ entries, 0 ≤ d.gain a e := fun e he =>
    gain_nonneg h ha (hentries e he) fun hfree =>
      Bool.eq_false_iff.mpr fun hinfinite => hbounded ⟨e, he, hfree, hinfinite⟩
  have hdifferent : e ≠ e' := by
    rintro rfl
    exact hne (hcolumn.symm.trans hcolumn')
  have hsum := add_le_sum hnonneg he he' hdifferent
  rw [hgain, hgain', sum_gain] at hsum
  linarith

theorem le_add_of_nonneg {q : ℚ} {t : Exact} (ht : 0 ≤ t) : number q ≤ number q + t := by
  cases t with
  | number f =>
      rw [ofNat_eq, Nat.cast_zero, number_le] at ht
      rw [number_add, number_le]
      exact le_add_of_nonneg_right ht
  | plus => rfl
  | minus => cases ht
  | nan => cases ht

/-- Two literals whose weights exceed the room of a side together are not both true where the side
holds. -/
theorem not_satisfies (h : d.Boxed) (ha : d.HasBinary a) (hfeastol : 0 ≤ d.feastol)
    {i : Inequality Exact} (hi : ∀ e ∈ i.entries, e.1 < d.model.columns.size ∧ ∃ q, e.2 = number q)
    (hbounded : ¬d.Unbounded i.entries) {x y : WeightedLiteral} (hx : x ∈ d.raising i.entries)
    (hy : y ∈ d.raising i.entries) (hne : x.1.column ≠ y.1.column)
    (hexceed : CliqueTable.Exceed (d.room i) x.2 y.2) (hxtrue : x.1.TrueAt a)
    (hytrue : y.1.TrueAt a) : ¬a.Satisfies i := by
  intro hsatisfied
  have htotal := least_add_le_total h ha hi hbounded hx hy hne hxtrue hytrue
  rw [CliqueTable.Exceed, room] at hexceed
  rw [Assignment.Satisfies] at hsatisfied
  generalize i.rhs = rhs at hexceed hsatisfied
  cases rhs with
  | number b =>
      rw [number_sub] at hexceed
      have hlt := number_lt.mp (lt_of_le_of_lt (le_add_of_nonneg hfeastol) hexceed)
      have hle := number_le.mp hsatisfied
      linarith
  | plus =>
      generalize d.feastol = t at hexceed
      cases t <;> cases hexceed
  | minus => cases hsatisfied
  | nan => cases hsatisfied

/-! ### Extraction -/

/-- What extraction finds on a side of a row: nothing if no weights of two literals exceed the room
together or if another column has no finite smallest term, and otherwise a largest set of literals
of which any two do. Where the side holds, at most one of its literals is true. -/
inductive SideOutcome (d : Domain Exact) (i : Inequality Exact) : Option (List BinaryLiteral) → Prop
  | none (h : d.Unbounded i.entries ∨
      (d.raising i.entries).Pairwise fun x y => ¬CliqueTable.Exceed (d.room i) x.2 y.2) :
      SideOutcome d i none
  | clique {stored : List BinaryLiteral} (clique : List WeightedLiteral)
      (hstored : stored.Perm (clique.map Prod.fst)) (htwo : 2 ≤ clique.length)
      (hraising : clique.Subperm (d.raising i.entries))
      (hexclusive : CliqueTable.Exclusive (d.room i) clique)
      (hlargest : ∀ other : List WeightedLiteral, other.Subperm (d.raising i.entries) →
        CliqueTable.Exclusive (d.room i) other → other.length ≤ clique.length)
      (himplied : ∀ a, d.HasBinary a → a.Satisfies i →
        ∀ l ∈ stored, ∀ l' ∈ stored, l.TrueAt a → l'.TrueAt a → l = l') :
      SideOutcome d i (some stored)

/-- Where every other column has a finite smallest term, a set of two or more literals that exclude
each other pairwise has something found that is no smaller. -/
theorem SideOutcome.length_le {i : Inequality Exact} {outcome : Option (List BinaryLiteral)}
    (h : d.SideOutcome i outcome) (hbounded : ¬d.Unbounded i.entries) (other : List WeightedLiteral)
    (hraising : other.Sublist (d.raising i.entries)) (htwo : 2 ≤ other.length)
    (hexclusive : CliqueTable.Exclusive (d.room i) other) :
    ∃ stored, outcome = some stored ∧ other.length ≤ stored.length := by
  cases h with
  | none h =>
      obtain ⟨x, y, rest, rfl⟩ : ∃ x y rest, other = x :: y :: rest := by
        match other, htwo with
        | x :: y :: rest, _ => exact ⟨x, y, rest, rfl⟩
      have hnot := (h.resolve_left hbounded).sublist hraising
      exact absurd ((List.pairwise_cons.mp hexclusive).1 y (List.mem_cons_self ..))
        ((List.pairwise_cons.mp hnot).1 y (List.mem_cons_self ..))
  | clique clique hstored _ _ _ hlargest _ =>
      refine ⟨_, rfl, ?_⟩
      rw [hstored.length_eq, List.length_map]
      exact hlargest other hraising.subperm hexclusive

/-- The literals of a row belong to different columns. -/
theorem raising_columns (hincreasing : entries.Pairwise fun e e' => e.1 < e'.1) :
    (d.raising entries).Pairwise fun x y => x.1.column ≠ y.1.column :=
  List.pairwise_map.mpr ((hincreasing.filter _).imp fun hlt heq => (Nat.ne_of_lt hlt) heq)

variable {t : CliqueTable} {i : Inequality Exact}

/-- Extraction from a side of a row returns and adds what it finds. -/
theorem extractFromSide_perform (h : d.Boxed) (hfeastol : 0 ≤ d.feastol)
    (hsize : t.occurrences.size = 2 * d.model.columns.size)
    (hi : ∀ e ∈ i.entries, e.1 < d.model.columns.size ∧ ∃ q, e.2 = number q)
    (hincreasing : i.entries.Pairwise fun e e' => e.1 < e'.1) :
    ∃ outcome t', (CliqueTable.extractFromSide d i.entries i.rhs).perform t =
        (.ok outcome.isSome, t') ∧ SideOutcome d i outcome ∧
      t'.occurrences.size = 2 * d.model.columns.size ∧
      t'.cliques.toList = t.cliques.toList ++ outcome.toList := by
  have hcolumns := raising_columns (d := d) hincreasing
  rcases literalsOfSide_eq h i.rhs hi with ⟨hunbounded, hread⟩ | ⟨hbounded, hread⟩
  · refine ⟨none, t, ?_, .none (.inl hunbounded), hsize, by simp⟩
    simp only [CliqueTable.extractFromSide, hread, Action.perform_bind, Action.perform_lift]
    rfl
  · obtain ⟨clique, hclique, hraising, (hexclusive : CliqueTable.Exclusive (d.room i) clique),
        hlargest⟩ := CliqueTable.largestClique_eq d.feastol
      (i.rhs - number (d.leastActivity i.entries)) (d.raising i.entries)
    have hperform : (CliqueTable.extractFromSide d i.entries i.rhs).perform t =
        (if (clique.map Prod.fst).length < 2 then pure false
          else CliqueTable.add (clique.map Prod.fst)).perform t := by
      simp only [CliqueTable.extractFromSide, hread, Action.perform_bind,
        Action.perform_lift, hclique]
    rw [hperform, List.length_map]
    by_cases htwo : 2 ≤ clique.length
    · rw [if_neg (not_lt.mpr htwo)]
      have hdifferent : clique.Pairwise fun x y => x.1.column ≠ y.1.column := by
        obtain ⟨found, hperm, hsublist⟩ := hraising
        exact (List.Perm.pairwise_iff (fun h => h.symm) hperm).mp (hcolumns.sublist hsublist)
      have hlt : ∀ l ∈ clique.map Prod.fst, l.column < d.model.columns.size := by
        intro l hl
        obtain ⟨x, hx, rfl⟩ := List.mem_map.mp hl
        obtain ⟨e, he, rfl⟩ := List.mem_map.mp (hraising.subset hx)
        exact (hi e (List.mem_filter.mp he).1).1
      obtain ⟨t', hadd, hsize', stored, hstored, hcliques⟩ := CliqueTable.add_perform hsize
        (by rwa [List.length_map]) (List.pairwise_map.mpr hdifferent) hlt
      refine ⟨some stored, t', hadd, ?_, hsize', by simp [hcliques]⟩
      refine .clique clique hstored htwo hraising hexclusive hlargest ?_
      intro a ha hsatisfied l hl l' hl' htrue htrue'
      by_contra hne
      obtain ⟨x, hx, rfl⟩ := List.mem_map.mp (hstored.subset hl)
      obtain ⟨y, hy, rfl⟩ := List.mem_map.mp (hstored.subset hl')
      have hxy : x ≠ y := fun heq => hne (congrArg Prod.fst heq)
      have hsymm : Std.Symm fun x y : WeightedLiteral =>
          x.1.column ≠ y.1.column ∧ CliqueTable.Exceed (d.room i) x.2 y.2 :=
        ⟨fun _ _ h => ⟨h.1.symm, h.2.symm⟩⟩
      obtain ⟨hcolumn, hexceed⟩ := (hdifferent.and hexclusive).forall hx hy hxy
      exact not_satisfies h ha hfeastol hi hbounded (hraising.subset hx) (hraising.subset hy)
        hcolumn
        hexceed htrue htrue' hsatisfied
    · rw [if_pos (not_le.mp htwo)]
      refine ⟨none, t, rfl, .none (.inr ?_), hsize, by simp⟩
      refine List.pairwise_iff_forall_sublist.mpr fun {x y} hsublist hexceed => htwo ?_
      exact hlargest [x, y] hsublist.subperm (List.pairwise_pair.mpr hexceed)

end Domain

/-- The sides of a row, as `Σ a x ≤ rhs`. -/
def Row.sides (row : Row Exact) : List (Inequality Exact) :=
  (if row.upper < Scalar.infinity then [⟨row.entries, row.upper⟩] else []) ++
    if -Scalar.infinity < row.lower then
      [⟨row.entries.map fun e => (e.1, -e.2), -row.lower⟩] else []

/-- Where a row holds, both of its sides do. -/
theorem Assignment.SatisfiesRow.side {a : Assignment} {row : Row Exact} (h : a.SatisfiesRow row)
    {i : Inequality Exact} (hi : i ∈ row.sides) : a.Satisfies i := by
  rcases List.mem_append.mp hi with hi | hi
  · split at hi
    · rw [List.mem_singleton.mp hi]
      exact h.2
    · cases hi
  · split at hi
    · rw [List.mem_singleton.mp hi, Satisfies, total_neg]
      exact Exact.neg_le_neg h.1
    · cases hi

namespace Domain

variable {d : Domain Exact} {sides sides' : List (Inequality Exact)} {t t' t'' : CliqueTable}
  {n n' : Nat}

/-- Extraction from some sides of rows led from one table to another: every side had an outcome, and
the cliques that were found were added in this order. -/
structure Extracts (d : Domain Exact) (sides : List (Inequality Exact)) (t : CliqueTable) (n : Nat)
    (t' : CliqueTable) : Prop where
  size : t'.occurrences.size = t.occurrences.size
  outcomes : ∃ outcomes, List.Forall₂ d.SideOutcome sides outcomes ∧
    t'.cliques.toList = t.cliques.toList ++ outcomes.reduceOption ∧ n = outcomes.reduceOption.length

theorem Extracts.nil (t : CliqueTable) : d.Extracts [] t 0 t :=
  ⟨rfl, [], .nil, by simp, rfl⟩

theorem Extracts.append (h : d.Extracts sides t n t') (h' : d.Extracts sides' t' n' t'') :
    d.Extracts (sides ++ sides') t (n + n') t'' := by
  obtain ⟨hsize, outcomes, hall, hcliques, rfl⟩ := h
  obtain ⟨hsize', outcomes', hall', hcliques', rfl⟩ := h'
  refine ⟨hsize'.trans hsize, outcomes ++ outcomes', List.rel_append hall hall', ?_, ?_⟩
  · rw [hcliques', hcliques, List.append_assoc, List.reduceOption_append]
  · rw [List.reduceOption_append, List.length_append]

theorem exists_of_forall₂ {β γ : Type} {R : β → γ → Prop} {xs : List β} {ys : List γ} {y : γ}
    (h : List.Forall₂ R xs ys) (hy : y ∈ ys) : ∃ x ∈ xs, R x y := by
  induction h with
  | nil => cases hy
  | cons hxy _ ih =>
      rcases List.mem_cons.mp hy with rfl | hy
      · exact ⟨_, List.mem_cons_self .., hxy⟩
      · obtain ⟨x, hx, hxy⟩ := ih hy
        exact ⟨x, List.mem_cons_of_mem _ hx, hxy⟩

/-- The entries of a row are numbers in increasing columns of the model. -/
structure ReadsRow (d : Domain Exact) (row : Row Exact) : Prop where
  entries : ∀ e ∈ row.entries, e.1 < d.model.columns.size ∧ ∃ q, e.2 = number q
  increasing : row.entries.Pairwise fun e e' => e.1 < e'.1

section Rows

variable (h : d.Boxed) (hfeastol : 0 ≤ d.feastol)

include h hfeastol

/-- Extraction from a side of a row, if there is one. -/
theorem extractFromSide_extracts (hsize : t.occurrences.size = 2 * d.model.columns.size)
    {p : Prop} [Decidable p] {i : Inequality Exact}
    (hi : ∀ e ∈ i.entries, e.1 < d.model.columns.size ∧ ∃ q, e.2 = number q)
    (hincreasing : i.entries.Pairwise fun e e' => e.1 < e'.1) :
    ∃ found t', (if p then CliqueTable.extractFromSide d i.entries i.rhs else pure false).perform
      t =
        (.ok found, t') ∧ d.Extracts (if p then [i] else []) t found.toNat t' := by
  by_cases hp : p
  · rw [if_pos hp, if_pos hp]
    obtain ⟨outcome, t', hperform, houtcome, hsize', hcliques⟩ :=
      extractFromSide_perform h hfeastol hsize hi hincreasing
    refine ⟨_, t', hperform, hsize'.trans hsize.symm, [outcome], .cons houtcome .nil, ?_, ?_⟩
    · rw [hcliques]
      cases outcome <;> rfl
    · cases outcome <;> rfl
  · rw [if_neg hp, if_neg hp]
    exact ⟨false, t, rfl, .nil t⟩

omit h hfeastol in
/-- What follows a choice follows each of the two actions. -/
theorem choice_bind {β γ : Type} (p : Prop) [Decidable p] (x y : Action CliqueTable β)
    (f : β → Action CliqueTable γ) :
    (if p then x >>= f else y >>= f) = (if p then x else y) >>= f := by
  split <;> rfl

theorem extractFromRow_extracts (hsize : t.occurrences.size = 2 * d.model.columns.size)
    {row : Row Exact} (hrow : d.ReadsRow row) (added : Nat) :
    ∃ n t', (CliqueTable.extractFromRow d added row).perform t = (.ok (added + n), t') ∧
      d.Extracts row.sides t n t' := by
  obtain ⟨upper, u, hupper, hu⟩ := extractFromSide_extracts (p := row.upper < Scalar.infinity)
    h hfeastol hsize (i := ⟨row.entries, row.upper⟩) hrow.entries hrow.increasing
  have hopposite : ∀ e ∈ row.entries.map fun e => (e.1, -e.2),
      e.1 < d.model.columns.size ∧ ∃ q, e.2 = number q := by
    intro e he
    obtain ⟨e, hmem, rfl⟩ := List.mem_map.mp he
    obtain ⟨hc, q, hq⟩ := hrow.entries e hmem
    exact ⟨hc, -q, by rw [hq, neg_number]⟩
  obtain ⟨lower, t', hlower, ht'⟩ := extractFromSide_extracts (p := -Scalar.infinity < row.lower)
    h hfeastol (hu.size.trans hsize)
    (i := ⟨row.entries.map fun e => (e.1, -e.2), -row.lower⟩) hopposite
    (List.pairwise_map.mpr hrow.increasing)
  refine ⟨upper.toNat + lower.toNat, t', ?_, hu.append ht'⟩
  simp only [CliqueTable.extractFromRow, choice_bind]
  rw [Action.perform_bind_eq_ok]
  refine ⟨upper, u, hupper, ?_⟩
  rw [Action.perform_bind_eq_ok]
  refine ⟨lower, t', hlower, ?_⟩
  rw [Action.perform_pure, Nat.add_assoc]

theorem foldlM_extractFromRow_extracts (hsize : t.occurrences.size = 2 * d.model.columns.size)
    {rows : List (Row Exact)} (hrows : ∀ row ∈ rows, d.ReadsRow row) (added : Nat) :
    ∃ n t', (rows.foldlM (CliqueTable.extractFromRow d) added).perform t = (.ok (added + n), t') ∧
      d.Extracts (rows.flatMap Row.sides) t n t' := by
  induction rows generalizing added t with
  | nil => exact ⟨0, t, rfl, .nil t⟩
  | cons row rest ih =>
      obtain ⟨hrow, hrest⟩ := List.forall_mem_cons.mp hrows
      obtain ⟨n, u, hperform, hu⟩ := extractFromRow_extracts h hfeastol hsize hrow added
      obtain ⟨n', t', hperform', ht'⟩ := ih (hu.size.trans hsize) hrest (added + n)
      refine ⟨n + n', t', ?_, hu.append ht'⟩
      rw [List.foldlM_cons, Action.perform_bind_eq_ok]
      refine ⟨added + n, u, hperform, ?_⟩
      rw [← Nat.add_assoc]
      exact hperform'

end Rows

end Domain

section Runs

variable {draft : Draft Exact} {model : Model Exact} {feastol : Exact} {s : PropagationState Exact}
  {t : CliqueTable}

/-- The box of a domain is within that of its model in every run over numbers. -/
theorem Reachable.boxed (hmodel : draft.build = .ok model)
    (h : Reachable (fun _ op => op.Brings (.exact .any)) model feastol s) : s.domain.Boxed := by
  have hread := Draft.readable_of_build hmodel
  have hnumbers := hread.boundedByNumbers
  have hshrinking := (h.logging_of_brings (fun _ _ hop => hop) (Draft.wellFormed_of_build hmodel)
    hread).shrinking hnumbers (Draft.ordered_of_build hmodel hnumbers)
  have hshrunk := hshrinking.shrunk (Trail.numeric_ofModel hnumbers)
  have hsame := h.constant.1
  refine ⟨fun side => ?_, fun side c _ => ?_, fun side c => ?_⟩
  · rw [hsame, ← Domain.trail_bounds, hshrinking.built.bounds_size, Trail.bounds_ofModel_size]
  · rw [← Domain.trail_values]
    exact isNaN_eq_false.mp (hshrunk.number side c)
  · rw [hsame, ← Domain.trail_values]
    exact hshrunk.within side c

/-- **Extracted cliques are implied and largest.** Take any state that a domain of a model reaches
by operations that bring numbers only, with a tolerance that is not negative, and any table over the
columns of the model. Extraction returns the number of cliques it adds, behind those of the table,
and every side of every row has an outcome. What is found on a side is a largest set of literals of
binary columns that are not fixed, of which any two have coefficients above the right-hand side by
more than the tolerance, once the columns are complemented and the smallest contribution of all
others is moved to the right. Nothing is found only if there are no two such literals or if the
smallest contribution of another column is infinite. No point of the box that satisfies the row and
has whole values in the binary columns makes two literals of a clique true. -/
theorem extracted_cliques_implied_and_largest (hmodel : draft.build = .ok model)
    (hfeastol : 0 ≤ feastol)
    (h : Reachable (fun _ op => op.Brings (.exact .any)) model feastol s)
    (hsize : t.occurrences.size = 2 * model.columns.size) :
    ∃ outcomes t', (CliqueTable.extract s.domain).perform t =
        (.ok outcomes.reduceOption.length, t') ∧
      List.Forall₂ s.domain.SideOutcome (model.rows.toList.flatMap Row.sides) outcomes ∧
      t'.cliques.toList = t.cliques.toList ++ outcomes.reduceOption ∧
      ∀ clique ∈ outcomes.reduceOption, ∃ row ∈ model.rows, ∀ a, s.domain.HasBinary a →
        a.SatisfiesRow row → ∀ l ∈ clique, ∀ l' ∈ clique, l.TrueAt a → l'.TrueAt a → l = l' := by
  obtain ⟨hsame, htolerance⟩ := h.constant
  have hwell := Draft.wellFormed_of_build hmodel
  have hrows : ∀ row ∈ s.domain.model.rows.toList, s.domain.ReadsRow row := by
    intro row hrow
    rw [hsame, Array.mem_toList_iff, Array.mem_iff_getElem?] at hrow
    obtain ⟨r, hr⟩ := hrow
    refine ⟨fun e he => ⟨?_, ?_⟩, hwell.increasing r row hr⟩
    · exact hsame ▸ hwell.entry_lt r row hr e he
    · exact Draft.number_of_build hmodel hr e he
  obtain ⟨n, t', hperform, -, outcomes, hall, hcliques, rfl⟩ :=
    Domain.foldlM_extractFromRow_extracts (h.boxed hmodel) (htolerance ▸ hfeastol) (hsame ▸ hsize)
      hrows 0
  rw [Nat.zero_add] at hperform
  refine ⟨outcomes, t', hperform, hsame ▸ hall, hcliques, fun clique hclique => ?_⟩
  obtain ⟨i, hi, houtcome⟩ := Domain.exists_of_forall₂ hall (List.reduceOption_mem_iff.mp hclique)
  obtain ⟨row, hrow, hside⟩ := List.mem_flatMap.mp hi
  refine ⟨row, hsame ▸ Array.mem_toList_iff.mp hrow, fun a ha hsatisfied => ?_⟩
  cases houtcome with
  | clique _ _ _ _ _ _ himplied => exact himplied a ha (hsatisfied.side hside)

end Runs

/-- Two rows over binary columns: one with a large clique, and one with coefficients of both signs
and two sides. -/
def knapsackRows : Draft Exact :=
  ⟨#[⟨0, 0, 1, .integer⟩, ⟨0, 0, 1, .integer⟩, ⟨0, 0, 1, .integer⟩, ⟨0, 0, 1, .integer⟩],
    #[⟨-Scalar.infinity, 8, [(0, 6), (1, 5), (2, 4), (3, 1)]⟩, ⟨0, 0, [(0, 1), (1, -1)]⟩], 0⟩

/-- The first side of these rows has a clique of three literals. -/
theorem knapsack_clique_extracted :
    ∃ (model : Model Exact) (s : PropagationState Exact)
    (outcomes : List (Option (List BinaryLiteral)))
      (t' : CliqueTable), knapsackRows.build = .ok model ∧
      Reachable (fun _ op => op.Brings (.exact .any)) model 1e-6 s ∧
      (CliqueTable.extract s.domain).perform (.empty 4) =
        (.ok outcomes.reduceOption.length, t') ∧
      List.Forall₂ s.domain.SideOutcome (model.rows.toList.flatMap Row.sides) outcomes ∧
      ∃ clique rest, outcomes = some clique :: rest ∧ 3 ≤ clique.length := by
  have hrun : passes knapsackRows.build (fun model => passes (Domain.ofModel model 1e-6) fun d =>
      model.columns.size == 4 &&
        (match model.rows.toList.flatMap Row.sides with
        | [] => false
        | i :: _ => i.entries.all (fun e => d.isFree e.1) &&
            decide (d.raising i.entries =
              [(⟨0, true⟩, 6), (⟨1, true⟩, 5), (⟨2, true⟩, 4), (⟨3, true⟩, 1)]) &&
            decide (d.room i = number (8 + 1 / 1000000)))) = true := by
    decide +kernel
  obtain ⟨model, hmodel, hrun⟩ := passes_eq_true.mp hrun
  obtain ⟨d, hd, hrun⟩ := passes_eq_true.mp hrun
  rw [Bool.and_eq_true, beq_iff_eq] at hrun
  obtain ⟨hsize, hrun⟩ := hrun
  have hreach : Reachable (fun _ op => op.Brings (.exact .any)) model 1e-6 ⟨.empty, d⟩ := .start hd
  obtain ⟨outcomes, t', hperform, hall, -⟩ := extracted_cliques_implied_and_largest
    (t := .empty 4) hmodel (by decide +kernel) hreach (by rw [hsize]; rfl)
  refine ⟨model, ⟨.empty, d⟩, outcomes, t', hmodel, hreach, hperform, hall, ?_⟩
  generalize model.rows.toList.flatMap Row.sides = sides at hall hrun
  cases hall with
  | nil => cases hrun
  | @cons i outcome sides outcomes houtcome _ =>
      simp only [Bool.and_eq_true, List.all_eq_true, decide_eq_true_eq] at hrun
      obtain ⟨⟨hfree, hraising⟩, hroom⟩ := hrun
      have hbounded : ¬d.Unbounded i.entries := by
        rintro ⟨e, he, hfixed, -⟩
        rw [hfree e he] at hfixed
        cases hfixed
      obtain ⟨clique, rfl, hlength⟩ := houtcome.length_le hbounded
        [(⟨0, true⟩, 6), (⟨1, true⟩, 5), (⟨2, true⟩, 4)]
        (by rw [hraising]; decide +kernel) (by decide)
        (by rw [hroom, CliqueTable.Exclusive]; simp only [CliqueTable.Exceed]; decide +kernel)
      exact ⟨clique, outcomes, rfl, hlength⟩

end BranchBound
