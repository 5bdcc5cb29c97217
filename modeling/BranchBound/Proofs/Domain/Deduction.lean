import BranchBound.Proofs.Domain.Satisfaction
import BranchBound.Proofs.Domain.Shrinking

/-!
# What propagation deduces holds

Whatever kind of constraint a change is derived from, it holds at every point that the domain admits
and respects, and no constraint that is called violated is satisfied by such a point. That is said
for the activities as they are, which stand for the terms at the present bounds, and for the sums
that are looked at while a bound moves, some terms of which are still those at the old bound.
-/

namespace BranchBound

open Checked Exact

variable {x : Point} {f : ℚ}

/-- Negating a sum negates the coefficients of its terms. -/
theorem PartialSum.Exactly.neg {s : PartialSum Exact} {terms : Multiset (Exact × Exact)}
    (h : s.Exactly terms 0) : s.neg.Exactly (terms.map fun t => (-t.1, t.2)) 0 := by
  have hnegated : ∀ v : Exact, (-v).toRat = -v.toRat := fun v => by
    cases v with
    | number q => rfl
    | plus | minus | nan => exact neg_zero.symm
  refine ⟨?_, ?_⟩
  · have hcount : infiniteTerms (terms.map fun t => (-t.1, t.2)) = infiniteTerms terms := by
      rw [infiniteTerms, Multiset.countP_map, infiniteTerms, Multiset.countP_eq_card_filter]
    exact h.infinite.trans hcount.symm
  · have hsum : finiteSum (terms.map fun t => (-t.1, t.2)) = -finiteSum terms := by
      simp only [finiteSum, Multiset.map_map, Function.comp_def, hnegated, neg_mul]
      exact Multiset.sum_map_neg
    simp [PartialSum.neg, h.finite, hsum, constantSum]

namespace Domain

variable {d : Domain Exact} {change : BoundChange Exact} {columnCount : Nat}

section Linear

variable {entries : List (ColumnId × Exact)} {entry : ColumnId × Exact} {s : PartialSum Exact}
  {K : Multiset Exact} {limit : Exact}

/-- What `Σ a x ≤ limit` implies holds at the points of the box that satisfy it. -/
theorem impliedChange_holds (hinteger : d.model.AllInteger) (hfeastol : d.feastol = number f)
    (hf : 0 < f) (hnan : ∀ side c, d.values side c ≠ nan) (hentries : Entries columnCount entries)
    (hx : d.values.Contains columnCount x) (hs : s.Exactly (termsAt d.values minSide entries) K)
    (hlimit : number (dot (entries : Multiset (ColumnId × Exact)) x + constantSum K) ≤ limit)
    (hentry : entry ∈ entries) (h : d.impliedChange limit s entry = .ok (some change)) :
    change.HoldsAt x := by
  have hitem : (entry, d.values (minSide entry.2) entry.1) ∈
      BoundedEntries.along d.values minSide entries :=
    Multiset.mem_map_of_mem (fun e : ColumnId × Exact => (e, d.values (minSide e.2) e.1)) hentry
  have hterms := Assignment.minTerms_le (a := x.assignment) hentries hx
  refine impliedChange_holdsAt (K := K) hinteger hfeastol hf ?_ (fun others hothers i hi =>
    hterms i (by rw [hothers]; exact Multiset.mem_cons_of_mem hi)) hitem (hentries entry hentry).2
      (hnan _ _) (fun _ => rfl) ?_ h
  · rw [BoundedEntries.terms_along]
    exact hs
  · rw [BoundedEntries.map_along]
    exact hlimit

/-- What `limit ≤ Σ a x` implies holds at the points of the box that satisfy it. -/
theorem impliedChange_neg_holds (hinteger : d.model.AllInteger) (hfeastol : d.feastol = number f)
    (hf : 0 < f) (hnan : ∀ side c, d.values side c ≠ nan) (hentries : Entries columnCount entries)
    (hx : d.values.Contains columnCount x) (hs : s.Exactly (termsAt d.values maxSide entries) 0)
    (hlimit : limit ≤ number (dot (entries : Multiset (ColumnId × Exact)) x))
    (hentry : entry ∈ entries)
    (h : d.impliedChange (-limit) s.neg (entry.1, -entry.2) = .ok (some change)) :
    change.HoldsAt x := by
  let negated : ColumnId × Exact → (ColumnId × Exact) × Exact :=
    fun e => ((e.1, -e.2), d.values (maxSide e.2) e.1)
  let items : BoundedEntries := (entries : Multiset (ColumnId × Exact)).map negated
  have hdot : dot (items.map Prod.fst) x = -dot (entries : Multiset (ColumnId × Exact)) x := by
    simp only [items, dot, Multiset.map_map, Function.comp_def, negated]
    rw [← Multiset.sum_map_neg]
    refine congrArg Multiset.sum (Multiset.map_congr rfl fun e he => ?_)
    obtain ⟨q, hq⟩ := (hentries e he).2
    rw [hq, neg_number, toRat_number, toRat_number, neg_mul]
  have hterms : items.terms = (termsAt d.values maxSide entries).map fun t => (-t.1, t.2) := by
    simp only [items, BoundedEntries.terms, termsAt, Multiset.map_map, Function.comp_def, negated]
  refine impliedChange_holdsAt (K := 0) hinteger hfeastol hf
    (hterms ▸ hs.neg) (fun others hothers i hi hfinite => ?_)
    (Multiset.mem_map_of_mem negated hentry)
    ?_ (hnan _ _) (fun hne => ?_) ?_ h
  · have hi : i ∈ negated entry ::ₘ others := Multiset.mem_cons_of_mem hi
    rw [← hothers] at hi
    obtain ⟨e, he, rfl⟩ := Multiset.mem_map.mp hi
    obtain ⟨hc, q, hq⟩ := hentries e he
    have hle := Assignment.le_maxTerm (a := x.assignment) ⟨q, hq⟩ (hx (maxSide e.2) e.1 hc) hfinite
    simp only [negated, hq, neg_number, toRat_number, neg_mul, neg_le_neg_iff] at hle ⊢
    exact hle
  · obtain ⟨q, hq⟩ := (hentries entry hentry).2
    exact ⟨-q, by simp only [negated, hq, neg_number]⟩
  · obtain ⟨q, hq⟩ := (hentries entry hentry).2
    have hside : maxSide entry.2 = minSide (-entry.2) := by
      have hq0 : q ≠ 0 := fun hzero => hne (by simp [negated, hq, hzero])
      rw [hq, neg_number, maxSide_number, minSide_number]
      rcases lt_or_gt_of_ne hq0 with hneg | hpos
      · rw [if_neg (not_lt.mpr hneg.le), if_pos (neg_pos.mpr hneg)]
      · rw [if_pos hpos, if_neg (not_lt.mpr (neg_nonpos.mpr hpos.le))]
    exact congrArg (fun side => d.values side entry.1) hside
  · rw [hdot, constantSum, Multiset.map_zero, Multiset.sum_zero, add_zero]
    cases limit with
    | number k =>
        rw [neg_number, number_le, neg_le_neg_iff]
        exact number_le.mp hlimit
    | minus => rfl
    | plus | nan => cases hlimit

end Linear

section Fixings

/-- Only binary columns are called fixed. -/
theorem fixedBy_binary {entry : LogEntry Exact} {c : ColumnId} {value : Bool}
    (h : d.fixedBy entry = .ok (some (c, value))) : d.model.Binary c := by
  simp only [fixedBy, bind_eq_ok] at h
  obtain ⟨isBinary, hbinary, h⟩ := h
  cases isBinary with
  | false => cases h
  | true =>
      simp only [Bool.not_true, Bool.false_eq_true, if_false] at h
      split at h
      · split at h
        · cases h
          exact isBinary_eq_ok.mp hbinary
        · cases h
      · split at h
        · cases h
          exact isBinary_eq_ok.mp hbinary
        · cases h

/-- What the value of a binary column implies through cliques and variable bounds holds where the
column has that value, if all binary columns are zero or one there. -/
theorem impliedByFixing_holds {pinned : ColumnId → Prop} (hmade : d.WellMade pinned)
    (hcliques : ∀ t, d.cliques = some t → t.HoldsAt x)
    (hbounds : ∀ t, d.variableBounds = some t → t.HoldsAt x)
    (hbinaries : ∀ c, d.model.Binary c → x c = 0 ∨ x c = 1) {c : ColumnId} {value : Bool}
    (hbinary : d.model.Binary c) (hvalue : BinaryLiteral.HoldsAt ⟨c, value⟩ x)
    {implied : List (BoundChange Exact × Reason)}
      (himplied : d.impliedByFixing c value = .ok implied)
    {y : BoundChange Exact × Reason} (hy : y ∈ implied) : y.1.HoldsAt x := by
  have hlt : c < d.model.columns.size := by
    obtain ⟨column, hcolumn, -⟩ := hbinary
    exact (Array.getElem?_eq_some_iff.mp hcolumn).1
  rcases mem_impliedByFixing himplied hy with
    ⟨cliques, literals, literal, hfound, hliterals, hmem, rfl⟩ |
      ⟨bounds, changes, change, hfound, hchanges, hmem, rfl⟩
  · have hmade := hmade.cliques cliques hfound
    obtain ⟨hne, clique, hclique, hl, hother⟩ :=
      (hmade.listed.impliedBy_returns hlt).of_eq_ok hliterals literal hmem
    have hfalse : ¬literal.HoldsAt x := fun htrue =>
      hne (hcliques cliques hfound clique hclique literal hother ⟨c, value⟩ hl htrue hvalue)
    have hliteral := hbinaries literal.column (hmade.listed.literals clique hclique literal hother)
    exact (BinaryLiteral.holdsAt_complement hliteral hfalse).fixing
  · have hmade := hmade.variableBounds bounds hfound
    exact hbounds bounds hfound c value change
      ((hmade.sized.impliedBy_returns hlt value).of_eq_ok hchanges change hmem) hvalue

variable (hshrunk : Trail.Shrunk (.ofModel d.model) d.trail)
  (hx : d.values.Contains d.model.columns.size x)

include hshrunk hx

omit hx in
/-- The box is within the model bounds. -/
theorem within_model {c : ColumnId} {column : Column Exact}
    (hcolumn : d.model.columns[c]? = some column) :
    column.lower ≤ d.values .lower c ∧ d.values .upper c ≤ column.upper := by
  have hvalues : (Trail.ofModel d.model).values .lower c = column.lower ∧
      (Trail.ofModel d.model).values .upper c = column.upper := by
    simp [Trail.values, Trail.bounds, Trail.ofModel, hcolumn]
  have hlower := hshrunk.within .lower c
  have hupper := hshrunk.within .upper c
  rw [hvalues.1, trail_values] at hlower
  rw [hvalues.2, trail_values] at hupper
  exact ⟨of_decide_eq_true hlower, of_decide_eq_true hupper⟩

/-- A binary column is zero or one at every point of the box. -/
theorem binary_values {c : ColumnId} (hc : d.model.Binary c) : x c = 0 ∨ x c = 1 := by
  obtain ⟨column, hcolumn, -, hlower, hupper⟩ := hc
  have hlt := (Array.getElem?_eq_some_iff.mp hcolumn).1
  obtain ⟨hlow, hhigh⟩ := within_model hshrunk hcolumn
  exact Point.zero_or_one (Exact.le_trans hlower (Exact.le_trans hlow (hx .lower c hlt)))
    (Exact.le_trans (hx .upper c hlt) (Exact.le_trans hhigh hupper))

/-- A change in the log holds at every point of the box. -/
theorem logged_holds {entry : LogEntry Exact} (hentry : entry ∈ d.log)
    (hc : entry.change.column < d.model.columns.size) : entry.change.HoldsAt x := by
  have htight := hshrunk.logged entry hentry
  rw [trail_values] at htight
  exact BoundChange.HoldsAt.weaken (hx entry.change.side entry.change.column hc) htight

/-- A binary column that a logged change fixes has the value it is fixed to at every point of the
box. -/
theorem fixedBy_holds {entry : LogEntry Exact} (hentry : entry ∈ d.log) {c : ColumnId}
    {value : Bool} (h : d.fixedBy entry = .ok (some (c, value))) :
    d.model.Binary c ∧ BinaryLiteral.HoldsAt ⟨c, value⟩ x := by
  simp only [fixedBy, bind_eq_ok] at h
  obtain ⟨isBinary, hbinary, h⟩ := h
  cases isBinary with
  | false => cases h
  | true =>
      have hcolumn := isBinary_eq_ok.mp hbinary
      have hlt : entry.change.column < d.model.columns.size := by
        obtain ⟨column, hfound, -⟩ := hcolumn
        exact (Array.getElem?_eq_some_iff.mp hfound).1
      have hholds := logged_holds hshrunk hx hentry hlt
      have hvalues := binary_values hshrunk hx hcolumn
      obtain ⟨⟨_, side, v⟩, reason, previous⟩ := entry
      cases side with
      | lower =>
          simp only [Bool.not_true, Bool.false_eq_true, if_false, pure_eq_ok] at h
          split at h
          · next hone =>
              cases h
              have hle : (1 : Exact) ≤ number (x c : ℚ) := Exact.le_trans hone hholds
              rw [ofNat_eq, number_le, Nat.cast_one] at hle
              have hle : 1 ≤ x c := by exact_mod_cast hle
              exact ⟨hcolumn, hvalues.resolve_left (by dsimp only; omega)⟩
          · cases h
      | upper =>
          simp only [Bool.not_true, Bool.false_eq_true, if_false, pure_eq_ok] at h
          split at h
          · next hzero =>
              cases h
              have hle : number (x c : ℚ) ≤ 0 := Exact.le_trans hholds hzero
              rw [ofNat_eq, number_le, Nat.cast_zero] at hle
              have hle : x c ≤ 0 := by exact_mod_cast hle
              exact ⟨hcolumn, hvalues.resolve_right (by dsimp only; omega)⟩
          · cases h

end Fixings

/-- A change that is worth making holds where the value it is rounded from does. -/
theorem Accepted.holdsAt_ofScalar (hfeastol : d.feastol = number f) (hf : 0 < f)
    {given accepted : BoundChange Exact}
    (h : d.Accepted given.side given.column (.ofScalar given.value) accepted)
    (hx : given.HoldsAt x) : accepted.HoldsAt x := by
  have hfinite := h.isFinite
  obtain ⟨c, side, value⟩ := given
  cases value with
  | number r => exact Accepted.holdsAt (CompensatedSum.ofScalar_number r ▸ h) hfeastol hf hx
  | plus | minus | nan => cases hfinite

section Conflicts

/-- A literal that holds for the bounds holds at the points of the box. -/
theorem isActive_holds (hx : d.values.Contains columnCount x) {literal : BoundChange Exact}
    (hc : literal.column < columnCount) (h : d.isActive literal = .ok true) :
    literal.HoldsAt x := by
  simp only [isActive, bind_eq_ok, pure_eq_ok] at h
  obtain ⟨bound, hbound, hholds⟩ := h
  rw [boundValue_eq_ok hbound] at hholds
  exact BoundChange.HoldsAt.weaken (hx literal.side literal.column hc) hholds

/-- What holds of a whole column where a bound with a whole value does not. -/
def negated (c : ColumnId) (side : Side) (k : ℤ) : BoundChange Exact :=
  match side with
  | .lower => .atMost c (number (k - 1 : ℤ))
  | .upper => .atLeast c (number (k + 1 : ℤ))

theorem half_eq : (0.5 : Exact) = number (1 / 2) := by
  change Exact.decimal 5 true 1 = _
  norm_num [Exact.decimal]

/-- Flipping a literal that rounds to a whole value gives the negation of that value. -/
theorem flip_eq_negated (hinteger : d.model.AllInteger) {literal : BoundChange Exact} {k : ℤ}
    (hk : literal.RoundsTo k) (h : d.flip literal = .ok change) :
    change = negated literal.column literal.side k := by
  obtain ⟨c, side, value⟩ := literal
  obtain ⟨q, hvalue, hnear⟩ := hk
  obtain rfl : value = number q := hvalue
  simp only [flip, bind_eq_ok, Model.isInteger, Model.column, fetch_eq_ok, pure_eq_ok] at h
  obtain ⟨_, ⟨column, hcolumn, rfl⟩, rfl⟩ := h
  rw [hinteger _ column hcolumn]
  cases side with
  | lower =>
      obtain ⟨hle, half_eqway⟩ : q ≤ k ∧ (k : ℚ) ≤ q + 1 / 2 := hnear
      have hround : ⌊q - 1 / 2⌋ = k - 1 := by
        rw [Int.floor_eq_iff]
        push_cast
        constructor <;> linarith
      have hfloor : Scalar.floor (number q - 0.5) = number ((k - 1 : ℤ) : ℚ) := by
        rw [half_eq, number_sub]
        exact congrArg (fun z : ℤ => number (z : ℚ)) hround
      exact congrArg (BoundChange.atMost c) hfloor
  | upper =>
      obtain ⟨hle, half_eqway⟩ : (k : ℚ) ≤ q ∧ q ≤ k + 1 / 2 := hnear
      have hround : ⌈q + 1 / 2⌉ = k + 1 := by
        rw [Int.ceil_eq_iff]
        push_cast
        constructor <;> linarith
      have hceil : Scalar.ceil (number q + 0.5) = number ((k + 1 : ℤ) : ℚ) := by
        rw [half_eq, number_add]
        exact congrArg (fun z : ℤ => number (z : ℚ)) hround
      exact congrArg (BoundChange.atLeast c) hceil

/-- Where a literal that rounds to a whole value does not hold, its negation does. -/
theorem flip_holds (hinteger : d.model.AllInteger) {literal : BoundChange Exact}
    (hrounds : ∃ k, literal.RoundsTo k) (hx : ¬literal.HoldsAt x)
    (h : d.flip literal = .ok change) : change.HoldsAt x := by
  obtain ⟨k, hk⟩ := hrounds
  rw [flip_eq_negated hinteger hk h]
  obtain ⟨c, side, value⟩ := literal
  obtain ⟨q, hvalue, hnear⟩ := hk
  obtain rfl : value = number q := hvalue
  cases side with
  | lower =>
      have hlt : x c < k := by
        have hnot : ¬q ≤ (x c : ℚ) := fun hle => hx (number_le.mpr hle)
        exact_mod_cast (not_le.mp hnot).trans_le hnear.1
      exact number_le.mpr (Int.cast_le.mpr (Int.le_sub_one_of_lt hlt))
  | upper =>
      have hlt : k < x c := by
        have hnot : ¬(x c : ℚ) ≤ q := fun hle => hx (number_le.mpr hle)
        exact_mod_cast hnear.1.trans_lt (not_le.mp hnot)
      exact number_le.mpr (Int.cast_le.mpr (Int.add_one_le_of_lt hlt))

/-- The negation of a literal of a whole column holds wherever the literal does not, exactly if the
literal is at most one half looser than a whole value. -/
theorem flip_exact_iff (hinteger : d.model.AllInteger) {c : ColumnId} {side : Side} {q : ℚ}
    (h : d.flip ⟨c, side, number q⟩ = .ok change) :
    (∀ x : Point, ¬(⟨c, side, number q⟩ : BoundChange Exact).HoldsAt x → change.HoldsAt x) ↔
      ∃ k, (⟨c, side, number q⟩ : BoundChange Exact).RoundsTo k := by
  refine ⟨fun hall => ?_, fun hrounds x hx => flip_holds hinteger hrounds hx h⟩
  simp only [flip, bind_eq_ok, Model.isInteger, Model.column, fetch_eq_ok, pure_eq_ok] at h
  obtain ⟨_, ⟨column, hcolumn, rfl⟩, rfl⟩ := h
  rw [hinteger _ column hcolumn] at hall
  cases side with
  | lower =>
      -- the greatest whole value below the bound does not satisfy the literal
      have hbelow : ((⌈q⌉ - 1 : ℤ) : ℚ) < q := Int.lt_ceil.mp (sub_one_lt _)
      have hkept := hall (fun _ => ⌈q⌉ - 1) fun hle => absurd (number_le.mp hle) (not_le.mpr hbelow)
      have hle : number ((⌈q⌉ - 1 : ℤ) : ℚ) ≤ Scalar.floor (number q - 0.5) := hkept
      rw [half_eq, number_sub] at hle
      have hfloor : ((⌈q⌉ - 1 : ℤ) : ℚ) ≤ q - 1 / 2 := (number_le.mp hle).trans (Int.floor_le _)
      refine ⟨⌈q⌉, q, rfl, Int.le_ceil q, ?_⟩
      push_cast at hfloor
      linarith
  | upper =>
      have habove : q < ((⌊q⌋ + 1 : ℤ) : ℚ) := Int.floor_lt.mp (lt_add_one _)
      have hkept := hall (fun _ => ⌊q⌋ + 1) fun hle => absurd (number_le.mp hle) (not_le.mpr habove)
      have hle : Scalar.ceil (number q + 0.5) ≤ number ((⌊q⌋ + 1 : ℤ) : ℚ) := hkept
      rw [half_eq, number_add] at hle
      have hceil : q + 1 / 2 ≤ ((⌊q⌋ + 1 : ℤ) : ℚ) := (Int.le_ceil _).trans (number_le.mp hle)
      refine ⟨⌊q⌋, q, rfl, Int.floor_le q, ?_⟩
      push_cast at hceil
      linarith

end Conflicts

end Domain

end BranchBound
