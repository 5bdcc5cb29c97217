import BranchBound.Proofs.Conflict.PastBounds

/-!
# Linear explanations

The bounds of the past that a linear constraint is explained with are either global or set by a
local change. So the activity that is collected for an explanation is not above the value of the
left-hand side at any point of the global box at which the changes that were taken hold. If it is
large enough, then the constraint implies the explained change at such a point, or is violated
there.
-/

namespace BranchBound

open Checked Exact

variable {f : ℚ}

namespace Contributions

/-- What some candidates add to the activity. -/
def increase (taken : Multiset (Exact × Nat)) : ℚ := (taken.map fun c => c.1.toRat).sum

@[simp] theorem increase_zero : increase 0 = 0 := rfl

@[simp] theorem increase_cons (c : Exact × Nat) (taken : Multiset (Exact × Nat)) :
    increase (c ::ₘ taken) = c.1.toRat + increase taken := by
  simp [increase]

/-- Candidates are taken from the front, all of them or until the activity is enough. -/
theorem takeUntil_eq (enough : CompensatedSum Exact → Bool) (q : ℚ) (positions : List Nat)
    {candidates : List (Exact × Nat)} (hnumbers : ∀ c ∈ candidates, ∃ r, c.1 = number r) :
    ∃ taken rest : List (Exact × Nat), candidates = taken ++ rest ∧
      takeUntil enough (.exactly q) positions candidates =
        (.exactly (q + increase taken), positions ++ taken.map Prod.snd) ∧
      (rest = [] ∨ enough (.exactly (q + increase taken)) = true) := by
  induction candidates generalizing q positions with
  | nil => exact ⟨[], [], rfl, by simp [takeUntil], .inl rfl⟩
  | cons c rest ih =>
      obtain ⟨increment, position⟩ := c
      rw [takeUntil]
      split
      · next henough => exact ⟨[], _, rfl, by simp, .inr (by simpa using henough)⟩
      · obtain ⟨r, rfl⟩ : ∃ r, increment = number r := hnumbers _ (List.mem_cons_self ..)
        rw [CompensatedSum.add_exactly]
        obtain ⟨taken, others, rfl, htaken, hend⟩ :=
          ih (q + r) (positions ++ [position]) fun c hc => hnumbers c (List.mem_cons_of_mem _ hc)
        have hsum : q + r + increase taken = q + increase
          ((number r, position) :: taken : List _) := by
          rw [← Multiset.cons_coe, increase_cons, toRat_number, add_assoc]
        rw [hsum] at htaken hend
        exact ⟨(number r, position) :: taken, others, rfl, by simp [htaken], hend⟩

end Contributions

namespace Domain

variable {d : Domain Exact} {limit : Nat}

/-- The changes at the positions of some candidates hold at an assignment. -/
def MeetsAll (d : Domain Exact) (taken : Multiset (Exact × Nat)) (a : Assignment) : Prop :=
  ∀ c ∈ taken, d.Meets [c.2] a.reading

open Contributions

/-- What is collected for some entries: an activity which is not above their value at the
assignments in the global box that meet the taken changes, and which becomes their minimal activity
before the limit when all candidates are taken. -/
structure Gathered (d : Domain Exact) (limit : Nat) (done : Multiset (ColumnId × Exact))
    (s : Contributions Exact) (q : ℚ) : Prop where
  activity : s.activity = .exactly q
  numbers : ∀ c ∈ s.candidates, ∃ r, c.1 = number r
  below : ∀ a : Assignment, a.reading.Inside d.globalBox d.model.columns.size →
    d.Meets s.positions a.reading → ∀ taken ≤ (s.candidates : Multiset (Exact × Nat)),
      d.MeetsAll taken a → q + increase taken ≤ a.total done
  total : q + increase s.candidates =
    finiteSum (BoundedEntries.along (d.valuesBefore limit) minSide done).terms

theorem gathered_zero : d.Gathered limit 0 ⟨.zero, [], []⟩ 0 where
  activity := by simp
  numbers := fun _ hc => by cases hc
  below := fun a _ _ taken htaken _ => by
    obtain rfl : taken = 0 := Multiset.le_zero.mp htaken
    simp
  total := by simp [BoundedEntries.along, BoundedEntries.terms, finiteSum]

variable {done : Multiset (ColumnId × Exact)} {s : Contributions Exact} {q : ℚ}

theorem finiteSum_along_cons (β : BoundValues Exact) (e : ColumnId × Exact) :
    finiteSum (BoundedEntries.along β minSide (e ::ₘ done)).terms =
      e.2.toRat * (β (minSide e.2) e.1).toRat +
        finiteSum (BoundedEntries.along β minSide done).terms := by
  simp only [BoundedEntries.along, BoundedEntries.terms, Multiset.map_cons, finiteSum_cons]

section Add

variable {c : ColumnId} {k r : ℚ}

/-- A term at a bound that holds globally is added to the activity. -/
theorem Gathered.addGlobal (hs : d.Gathered limit done s q)
    (hvalue : d.valuesBefore limit (minSide (number k)) c = number r)
    (hholds : ∀ a : Assignment, a.reading.Inside d.globalBox d.model.columns.size →
      a.reading.Holds ⟨c, minSide (number k), number r⟩) :
    d.Gathered limit ((c, number k) ::ₘ done)
      { s with activity := s.activity.addSum (.product (number k) (number r)) } (q + k * r) where
  activity := by rw [hs.activity, CompensatedSum.product_number, CompensatedSum.addSum_exactly]
  numbers := hs.numbers
  below := fun a ha hpositions taken htaken hmeets => by
    have hterm := Assignment.minTerm_number_le (hholds a ha)
    have hbelow := hs.below a ha hpositions taken htaken hmeets
    rw [Assignment.total_cons, toRat_number]
    linarith
  total := by
    rw [finiteSum_along_cons, hvalue, ← hs.total, toRat_number, toRat_number]
    ring

/-- A term at a bound that a local change set is added to the activity with the position of the
change. -/
theorem Gathered.addLocal {p : Nat} (hs : d.Gathered limit done s q)
    (hvalue : d.valuesBefore limit (minSide (number k)) c = number r)
    (hholds : ∀ a : Assignment, a.reading.Inside d.globalBox d.model.columns.size →
      d.Meets [p] a.reading → a.reading.Holds ⟨c, minSide (number k), number r⟩) :
    d.Gathered limit ((c, number k) ::ₘ done)
      { s with
        activity := s.activity.addSum (.product (number k) (number r))
        positions := s.positions ++ [p] } (q + k * r) where
  activity := by rw [hs.activity, CompensatedSum.product_number, CompensatedSum.addSum_exactly]
  numbers := hs.numbers
  below := fun a ha hpositions taken htaken hmeets => by
    obtain ⟨hbefore, hlast⟩ := Meets.append.mp hpositions
    have hterm := Assignment.minTerm_number_le (hholds a ha hlast)
    have hbelow := hs.below a ha hbefore taken htaken hmeets
    rw [Assignment.total_cons, toRat_number]
    linarith
  total := by
    rw [finiteSum_along_cons, hvalue, ← hs.total, toRat_number, toRat_number]
    ring

/-- A term at a global bound is added to the activity, and what a local change adds to it becomes a
candidate. -/
theorem Gathered.addCandidate {p : Nat} {g : ℚ} (hs : d.Gathered limit done s q)
    (hvalue : d.valuesBefore limit (minSide (number k)) c = number r)
    (hglobal : ∀ a : Assignment, a.reading.Inside d.globalBox d.model.columns.size →
      a.reading.Holds ⟨c, minSide (number k), number g⟩)
    (hholds : ∀ a : Assignment, a.reading.Inside d.globalBox d.model.columns.size →
      d.Meets [p] a.reading → a.reading.Holds ⟨c, minSide (number k), number r⟩) :
    d.Gathered limit ((c, number k) ::ₘ done)
      { s with
        activity := s.activity.addSum (.product (number k) (number g))
        candidates := s.candidates ++ [(number k * (number r - number g), p)] } (q + k * g) where
  activity := by rw [hs.activity, CompensatedSum.product_number, CompensatedSum.addSum_exactly]
  numbers := fun c' hc' => by
    rcases List.mem_append.mp hc' with hc' | hc'
    · exact hs.numbers c' hc'
    · rw [List.mem_singleton.mp hc']
      exact ⟨k * (r - g), by rw [number_sub, number_mul]⟩
  below := fun a ha hpositions taken htaken hmeets => by
    rw [← Multiset.coe_add, Multiset.coe_singleton, add_comm, Multiset.singleton_add] at htaken
    rw [Assignment.total_cons, toRat_number]
    by_cases hmem : (number k * (number r - number g), p) ∈ taken
    · obtain ⟨others, rfl⟩ := Multiset.exists_cons_of_mem hmem
      have hothers := (Multiset.cons_le_cons_iff _).mp htaken
      have hbelow := hs.below a ha hpositions others hothers
        fun c' hc' => hmeets c' (Multiset.mem_cons_of_mem hc')
      have hterm :=
        Assignment.minTerm_number_le (hholds a ha (hmeets _ (Multiset.mem_cons_self ..)))
      rw [increase_cons, number_sub, number_mul, toRat_number]
      linarith
    · have hbelow := hs.below a ha hpositions taken ((Multiset.le_cons_of_notMem hmem).mp htaken)
        hmeets
      have hterm := Assignment.minTerm_number_le (hglobal a ha)
      linarith
  total := by
    rw [finiteSum_along_cons, hvalue, ← hs.total, ← Multiset.coe_add, Multiset.coe_singleton,
      add_comm (s.candidates : Multiset (Exact × Nat)), Multiset.singleton_add, increase_cons,
      number_sub, number_mul]
    simp only [toRat_number]
    ring

end Add

section Gathering

variable (h : d.Traced)

include h

/-- The term of one more entry is collected. -/
theorem Gathered.add (hs : d.Gathered limit done s q) {e : ColumnId × Exact}
    {bound global : Bound Exact}
    (hc : e.1 < d.model.columns.size) (hnumber : ∃ k, e.2 = number k)
    (hbound : d.InForce (minSide e.2) e.1 limit bound)
    (hglobal : d.InForce (minSide e.2) e.1 d.globalLength global)
    (hfinite : Scalar.isInfinite bound.value = false) :
    ∃ q', d.Gathered limit (e ::ₘ done) (s.add d.globalLength e.2 bound global.value) q' := by
  obtain ⟨c, k⟩ := e
  obtain ⟨k, rfl⟩ : ∃ q, k = number q := hnumber
  dsimp only at hc hbound hglobal ⊢
  have hvalue := h.valuesBefore_eq hc hbound
  obtain ⟨r, hr⟩ := exists_number_of_finite
    (Exact.isNaN_eq_false.mp (h.inForce_number hc hbound)) hfinite
  rw [hr] at hvalue
  have hholds : ∀ a : Assignment, a.reading.Inside d.globalBox d.model.columns.size →
      d.Meets bound.position.toList a.reading →
        a.reading.Holds ⟨c, minSide (number k), number r⟩ := fun a ha hmeets =>
    hr ▸ h.inForce_holds ha hc hbound hmeets
  have hholdsGlobally : ∀ a : Assignment, a.reading.Inside d.globalBox d.model.columns.size →
      a.reading.Holds ⟨c, minSide (number k), global.value⟩ := fun a ha =>
    h.inForce_holds ha hc hglobal fun p hp hafter =>
      absurd (hglobal.position_lt h.numeric.unset p (by simpa using hp)) (Nat.not_lt.mpr hafter)
  simp only [Contributions.add]
  cases hposition : bound.position with
  | none =>
      rw [hposition] at hholds
      rw [if_pos (by rfl), hr]
      exact ⟨_, hs.addGlobal hvalue fun a ha => hholds a ha fun p hp => nomatch hp⟩
  | some p =>
      rw [hposition, Option.toList_some] at hholds
      dsimp only [Option.getD_some]
      rw [hr]
      split
      · next hnot =>
          refine ⟨_, hs.addGlobal hvalue fun a ha => ?_⟩
          rcases Nat.lt_or_ge p d.globalLength with hlt | hge
          · refine hholds a ha fun p' hp' hafter => ?_
            rw [List.mem_singleton.mp hp'] at hafter
            exact absurd hafter (Nat.not_le.mpr hlt)
          · have hsame : number r = global.value := by
              have hequal : (number r == global.value) = true := by
                simpa [hge, bne] using hnot
              exact (equal_iff.mp hequal).1
            rw [hsame]
            exact hholdsGlobally a ha
      · split
        · exact ⟨_, hs.addLocal hvalue hholds⟩
        · next hnot =>
            obtain ⟨g, hg⟩ := exists_number_of_finite
              (Exact.isNaN_eq_false.mp (h.inForce_number hc hglobal))
              (Bool.eq_false_of_not_eq_true hnot)
            rw [hg] at hholdsGlobally ⊢
            exact ⟨_, hs.addCandidate hvalue hholdsGlobally hholds⟩

/-- The entries of all columns but the explained one. -/
def others (explained : Option (Explained Exact)) (entries : List (ColumnId × Exact)) :
    List (ColumnId × Exact) :=
  entries.filter fun e => !(explained.any fun y => y.change.column == e.1)

omit h in
/-- If no column has two entries, then the other entries are missing one term. -/
theorem total_eq_others {entries : List (ColumnId × Exact)}
    (hdistinct : (entries.map Prod.fst).Nodup)
    {e : Explained Exact} (hmem : (e.change.column, e.coefficient) ∈ entries) (a : Assignment) :
    a.total entries = a.total (others (some e) entries) + e.coefficient.toRat *
      a e.change.column := by
  induction entries with
  | nil => cases hmem
  | cons first rest ih =>
      obtain ⟨c, k⟩ := first
      rw [List.map_cons, List.nodup_cons] at hdistinct
      rw [← Multiset.cons_coe, Assignment.total_cons, others]
      rcases List.mem_cons.mp hmem with heq | hmem
      · obtain ⟨hcolumn, hcoefficient⟩ := Prod.mk.inj heq
        have hrest : rest.filter
          (fun e' => !((some e).any fun y => y.change.column == e'.1)) = rest := by
          refine List.filter_eq_self.mpr fun e' he' => ?_
          have hne : e.change.column ≠ e'.1 := fun hsame =>
            hdistinct.1 (List.mem_map.mpr ⟨e', he', hsame.symm.trans hcolumn⟩)
          simpa using hne
        rw [List.filter_cons_of_neg (by simp [hcolumn]), hrest, hcolumn, hcoefficient, add_comm]
      · have hne : e.change.column ≠ c := fun hsame =>
          hdistinct.1 (List.mem_map.mpr ⟨_, hmem, hsame⟩)
        rw [List.filter_cons_of_pos (by simpa using hne), ← Multiset.cons_coe,
          Assignment.total_cons,
          ih hdistinct.2 hmem, others]
        ring

omit h in
theorem mem_of_coefficientOf {c : ColumnId} {k : Exact} {entries : List (ColumnId × Exact)}
    (hfound : coefficientOf c entries = some k) : (c, k) ∈ entries := by
  obtain ⟨⟨c', k'⟩, hfind, rfl⟩ := Option.map_eq_some_iff.mp hfound
  obtain rfl : c' = c := by simpa using List.find?_some hfind
  exact List.mem_of_find?_eq_some hfind

/-- The terms of all columns but the explained one are collected, unless one of them is infinite. -/
theorem Traced.contributions_returns {explained : Option (Explained Exact)}
    {entries : List (ColumnId × Exact)} (hentries : Entries d.model.columns.size entries)
    (hs : d.Gathered limit done s q) :
    Returns (d.contributions limit explained s entries) fun o =>
      (∀ s', o = some s' → ∃ q', d.Gathered limit (done + others explained entries) s' q') ∧
      ((∀ e ∈ others explained entries,
        Scalar.isInfinite (d.valuesBefore limit (minSide e.2) e.1) = false) → o ≠ none) := by
  induction entries generalizing done s q with
  | nil =>
      refine .ok ⟨fun s' hs' => ⟨q, ?_⟩, fun _ => by simp⟩
      obtain rfl := Option.some.inj hs'
      simpa [others] using hs
  | cons e rest ih =>
      obtain ⟨c, k⟩ := e
      have hrest : Entries d.model.columns.size (rest : Multiset (ColumnId × Exact)) :=
        fun e he => hentries e (List.mem_cons_of_mem _ he)
      obtain ⟨hc, hnumber⟩ := hentries (c, k) (List.mem_cons_self ..)
      simp only [contributions]
      split
      · next hexplained =>
          rw [others, List.filter_cons_of_neg (by simp [hexplained])]
          exact ih hrest hs
      · next hexplained =>
          rw [others, List.filter_cons_of_pos (by simpa using hexplained), ← others]
          have hside : (if 0 < k then Side.lower else Side.upper) = minSide k := rfl
          rw [hside]
          refine (h.boundBefore_returns hc).bind fun bound _ hbound => ?_
          have hvalue := h.valuesBefore_eq hc hbound
          split
          · next hinfinite =>
              refine .pure ⟨(fun s' hs' => nomatch hs'), fun hfinite => absurd hinfinite ?_⟩
              rw [← hvalue, hfinite (c, k) (List.mem_cons_self ..)]
              exact Bool.false_ne_true
          · next hfinite =>
              refine (h.boundBefore_returns hc).bind fun global _ hglobal => ?_
              obtain ⟨q', hs'⟩ := hs.add h hc hnumber hbound hglobal
                (Bool.eq_false_of_not_eq_true hfinite)
              refine (ih hrest hs').mono fun o _ ho => ⟨fun s'' hs'' => ?_, fun hall => ?_⟩
              · obtain ⟨q'', hgathered⟩ := ho.1 s'' hs''
                refine ⟨q'', ?_⟩
                rwa [Multiset.cons_add, ← Multiset.add_cons, Multiset.cons_coe] at hgathered
              · exact ho.2 fun e he => hall e (List.mem_cons_of_mem _ he)

end Gathering

/-- What is taken of what was collected: the activity is not above the value of the entries where
the changes at the positions hold, and it is enough or the minimal activity before the limit. -/
theorem Gathered.takeUntil (hs : d.Gathered limit done s q) (enough : CompensatedSum Exact → Bool) :
    ∃ (taken : ℚ) (positions : List Nat),
      Contributions.takeUntil enough s.activity s.positions
        (s.candidates.mergeSort Contributions.addsMore) = (.exactly taken, positions) ∧
      (∀ a : Assignment, a.reading.Inside d.globalBox d.model.columns.size →
        d.Meets positions a.reading → taken ≤ a.total done) ∧
      (enough (.exactly taken) = true ∨
        taken = finiteSum (BoundedEntries.along (d.valuesBefore limit) minSide done).terms) := by
  have hperm := List.mergeSort_perm s.candidates Contributions.addsMore
  obtain ⟨taken, rest, hsplit, htaken, hend⟩ := takeUntil_eq enough q s.positions
    fun c hc => hs.numbers c (hperm.mem_iff.mp hc)
  rw [hsplit, ← Multiset.coe_eq_coe, ← Multiset.coe_add] at hperm
  refine ⟨_, _, by rw [hs.activity, htaken], fun a ha hmeets => ?_, ?_⟩
  · obtain ⟨hbefore, hmet⟩ := Meets.append.mp hmeets
    refine hs.below a ha hbefore taken (hperm ▸ Multiset.le_add_right ..) fun c hc => ?_
    exact hmet.subset fun p hp => List.mem_map.mpr ⟨c, hc, (List.mem_singleton.mp hp).symm⟩
  · refine hend.symm.imp id fun hall => ?_
    rw [hall, Multiset.coe_nil, add_zero] at hperm
    rw [hperm]
    exact hs.total

end Domain

/-- By how much an explanation of a change of a column may miss the change. -/
def Column.slack (column : Column Exact) (f : ℚ) : ℚ :=
  match column.kind with
  | .integer => 1 - 10 * f
  | .continuous => f

namespace CompensatedSum

/-- Nothing is enough if the term of the explained column is not bounded. -/
theorem ge_subSum_eq_false {q : ℚ} {rhs : Exact} {t : CompensatedSum Exact}
    (h : t.hi = minus ∨ t.hi = nan) : (exactly q).ge ((ofScalar rhs).subSum t) = false := by
  obtain ⟨hi, lo⟩ := t
  rcases h with rfl | rfl
  · cases rhs <;> rfl
  · cases rhs <;> rfl

end CompensatedSum

namespace Domain

variable {d : Domain Exact} {limit : Nat}

section Required

variable {taken v k slack : ℚ} {rhs value : Exact} {c : ColumnId} {a : Assignment}
  (hv : taken ≤ v) (hle : number (v + k * a c) ≤ rhs)

include hv hle

/-- If the other entries take up what a column with a positive coefficient leaves of the right-hand
side, then an upper bound of the column follows. -/
theorem atMost_of_enough (hk : 0 < k) (henough : (CompensatedSum.exactly taken).ge
      ((CompensatedSum.ofScalar rhs).subSum (.product (number k) (value + number slack))) = true) :
    (BoundChange.mk c .upper value).HoldsUpTo slack a := by
  have hminus : infinityOf (-k) = minus := by
    rw [infinityOf, if_neg (by linarith), if_pos (by linarith)]
  cases value with
  | number r =>
      rw [number_add, CompensatedSum.product_number] at henough
      have hlimit := Exact.le_trans hle (CompensatedSum.le_of_ge_subSum henough)
      rw [number_le] at hlimit
      have hbound : a c ≤ r + slack := le_of_mul_le_mul_left (by linarith) hk
      exact number_le.mpr (by linarith)
  | plus => rfl
  | minus => cases henough.symm.trans (CompensatedSum.ge_subSum_eq_false (.inl hminus))
  | nan => cases henough.symm.trans (CompensatedSum.ge_subSum_eq_false (.inr rfl))

/-- If the other entries take up what a column with a negative coefficient leaves of the right-hand
side, then a lower bound of the column follows. -/
theorem atLeast_of_enough (hk : k < 0) (henough : (CompensatedSum.exactly taken).ge
      ((CompensatedSum.ofScalar rhs).subSum (.product (number k) (value - number slack))) = true) :
    (BoundChange.mk c .lower value).HoldsUpTo slack a := by
  have hminus : infinityOf k = minus := by
    rw [infinityOf, if_neg (by linarith), if_pos hk]
  cases value with
  | number r =>
      rw [number_sub, CompensatedSum.product_number] at henough
      have hlimit := Exact.le_trans hle (CompensatedSum.le_of_ge_subSum henough)
      rw [number_le] at hlimit
      have hbound : r - slack ≤ a c := (mul_le_mul_left_of_neg hk).mp (by linarith)
      exact number_le.mpr (by linarith)
  | minus => rfl
  | plus => cases henough.symm.trans (CompensatedSum.ge_subSum_eq_false (.inl hminus))
  | nan => cases henough.symm.trans (CompensatedSum.ge_subSum_eq_false (.inr rfl))

end Required

theorem relaxation_eq (hfeastol : d.feastol = number f) {c : ColumnId} {column : Column Exact}
    (hcolumn : d.model.columns[c]? = some column) :
    d.relaxation c = .ok (number (column.slack f)) := by
  simp only [relaxation, Model.isInteger, Model.column, fetch_eq_ok.mpr hcolumn, hfeastol, ofNat_eq,
    ok_bind, Column.slack]
  cases column.kind with
  | integer => simp [pure, Except.pure]
  | continuous => simp [pure, Except.pure]

/-- From the required activity on the other entries leave no room for a value beyond the change, up
to the slack of the column. -/
theorem requiredActivity_returns (hfeastol : d.feastol = number f) (rhs : Exact)
    {e : Explained Exact}
    {column : Column Exact} (hcolumn : d.model.columns[e.change.column]? = some column)
    (hcoefficient : ∃ k, e.coefficient = number k) :
    Returns (d.requiredActivity rhs e) fun o => ∀ required, o = some required →
      ∀ taken : ℚ, (CompensatedSum.exactly taken).ge required = true →
        ∀ (a : Assignment) (v : ℚ), taken ≤ v →
          number (v + e.coefficient.toRat * a e.change.column) ≤ rhs →
            e.change.HoldsUpTo (column.slack f) a := by
  obtain ⟨⟨c, side, value⟩, coefficient⟩ := e
  obtain ⟨k, rfl⟩ : ∃ k, coefficient = number k := hcoefficient
  rw [requiredActivity, relaxation_eq hfeastol hcolumn, ok_bind]
  cases side with
  | lower =>
      dsimp only
      split
      · next hnegative =>
          rw [ofNat_eq, Nat.cast_zero, number_lt] at hnegative
          refine .pure fun required hrequired taken henough a v hv hle => ?_
          obtain rfl := Option.some.inj hrequired
          exact atLeast_of_enough hv hle hnegative henough
      · exact .pure fun required hnone => nomatch hnone
  | upper =>
      dsimp only
      split
      · next hpositive =>
          rw [ofNat_eq, Nat.cast_zero, number_lt] at hpositive
          refine .pure fun required hrequired taken henough a v hv hle => ?_
          obtain rfl := Option.some.inj hrequired
          exact atMost_of_enough hv hle hpositive henough
      · exact .pure fun required hnone => nomatch hnone

section Explaining

variable (h : d.Traced) (hfeastol : d.feastol = number f) {entries : List (ColumnId × Exact)}
  {rhs : Exact} (hentries : Entries d.model.columns.size entries)

include h hfeastol hentries

/-- A violation is explained by positions at whose changes the inequality cannot hold. There is an
explanation if the minimal activity before the limit is above the right-hand side. -/
theorem Traced.explainAtMost_violated (hf : 0 < f) :
    Returns (d.explainAtMost entries rhs limit none) fun o =>
      (∀ positions, o = some positions → ∀ a : Assignment,
        a.reading.Inside d.globalBox d.model.columns.size → d.Meets positions a.reading →
          ¬number (a.total entries) ≤ rhs) ∧
      ((∀ e ∈ entries, Scalar.isInfinite (d.valuesBefore limit (minSide e.2) e.1) = false) →
        rhs < number (finiteSum (termsAt (d.valuesBefore limit) minSide entries)) → o ≠ none) := by
  have hall : others none entries = entries := by simp [others]
  refine (h.contributions_returns hentries gathered_zero).bind fun o _ ho => ?_
  rw [hall, zero_add] at ho
  cases o with
  | none =>
      exact .pure ⟨(fun positions hnone => nomatch hnone),
        fun hfinite _ => absurd rfl (ho.2 hfinite)⟩
  | some s =>
      obtain ⟨q, hs⟩ := ho.1 s rfl
      obtain ⟨taken, positions, htaken, hbelow, hend⟩ := hs.takeUntil
        fun activity => activity.gt ((CompensatedSum.ofScalar rhs).add d.feastol)
      rw [BoundedEntries.terms_along] at hend
      dsimp only
      rw [htaken]
      dsimp only
      split
      · next habove =>
          refine .pure ⟨fun found hfound a ha hmeets hle => ?_, fun _ _ => by simp⟩
          obtain rfl := Option.some.inj hfound
          have hlt := lt_of_le_of_lt hle (CompensatedSum.gt_ofScalar.mp habove)
          rw [number_lt] at hlt
          exact absurd (hbelow a ha hmeets) (not_le.mpr hlt)
      · next hbelow =>
          refine .pure ⟨(fun found hfound => nomatch hfound), fun _ hlt => absurd ?_ hbelow⟩
          rcases hend with henough | rfl
          · rw [hfeastol] at henough
            exact CompensatedSum.gt_of_gt_add hf.le henough
          · exact CompensatedSum.gt_ofScalar.mpr hlt

/-- A change is explained by positions at whose changes the inequality implies it, up to the slack
of its column. -/
theorem Traced.explainAtMost_implied (e : Explained Exact) {column : Column Exact}
    (hcolumn : d.model.columns[e.change.column]? = some column)
    (hcoefficient : ∃ k, e.coefficient = number k) :
    Returns (d.explainAtMost entries rhs limit (some e)) fun o =>
      ∀ positions, o = some positions → ∀ a : Assignment,
        a.reading.Inside d.globalBox d.model.columns.size → d.Meets positions a.reading →
          number (a.total (others (some e) entries) + e.coefficient.toRat * a e.change.column) ≤
            rhs →
            e.change.HoldsUpTo (column.slack f) a := by
  refine (h.contributions_returns hentries gathered_zero).bind fun o _ ho => ?_
  rw [zero_add] at ho
  cases o with
  | none => exact .pure fun positions hnone => nomatch hnone
  | some s =>
      obtain ⟨q, hs⟩ := ho.1 s rfl
      refine (requiredActivity_returns hfeastol rhs hcolumn hcoefficient).bind
        fun required _ hrequired => ?_
      cases required with
      | none => exact .pure fun positions hnone => nomatch hnone
      | some required =>
          obtain ⟨taken, positions, htaken, hbelow, -⟩ :=
            hs.takeUntil fun activity => activity.ge required
          dsimp only
          rw [htaken]
          dsimp only
          split
          · next henough =>
              refine .pure fun found hfound a ha hmeets hle => ?_
              obtain rfl := Option.some.inj hfound
              exact hrequired required rfl taken henough a _ (hbelow a ha hmeets) hle
          · exact .pure fun found hfound => nomatch hfound

end Explaining

section Negated

variable {entries : List (ColumnId × Exact)} {columnCount : Nat}

/-- Entries with the opposite coefficients. -/
def oppositeEntries (entries : List (ColumnId × Exact)) : List (ColumnId × Exact) :=
  entries.map fun e => (e.1, -e.2)

theorem entries_opposite (hentries : Entries columnCount entries) :
    Entries columnCount (oppositeEntries entries) := by
  intro e he
  obtain ⟨e, hmem, rfl⟩ := List.mem_map.mp (Multiset.mem_coe.mp he)
  obtain ⟨hc, q, hq⟩ := hentries e hmem
  exact ⟨hc, -q, by rw [hq, neg_number]⟩

theorem total_opposite (a : Assignment) :
    a.total (oppositeEntries entries) = -a.total entries :=
  a.total_neg entries

theorem minSide_neg {k : ℚ} (hk : k ≠ 0) : minSide (-number k) = maxSide (number k) := by
  rw [neg_number, maxSide_number, minSide_number]
  rcases lt_or_gt_of_ne hk with hneg | hpos
  · rw [if_neg (not_lt.mpr hneg.le), if_pos (neg_pos.mpr hneg)]
  · rw [if_pos hpos, if_neg (not_lt.mpr (neg_nonpos.mpr hpos.le))]

theorem finiteSum_opposite (hentries : Entries columnCount entries)
    (hnonzero : ∀ e ∈ entries, e.2 ≠ number 0) (β : BoundValues Exact) :
    finiteSum (termsAt β minSide (oppositeEntries entries)) =
      -finiteSum (termsAt β maxSide entries) := by
  rw [oppositeEntries, termsAt, ← Multiset.map_coe, termsAt, finiteSum, finiteSum, Multiset.map_map,
    Multiset.map_map, Multiset.map_map, ← Multiset.sum_map_neg]
  refine congrArg Multiset.sum (Multiset.map_congr rfl fun e he => ?_)
  obtain ⟨-, q, hq⟩ := hentries e he
  have hne : q ≠ 0 := fun hzero => hnonzero e he (by rw [hq, hzero])
  simp only [Function.comp_apply, hq]
  rw [minSide_neg hne, neg_number, toRat_number, toRat_number, neg_mul]

variable (h : d.Traced) (hfeastol : d.feastol = number f) {rhs : Exact}
  (hentries : Entries d.model.columns.size entries)

include h hfeastol hentries

theorem Traced.explainAtLeast_violated (hf : 0 < f) :
    Returns (d.explainAtLeast entries rhs limit none) fun o =>
      (∀ positions, o = some positions → ∀ a : Assignment,
        a.reading.Inside d.globalBox d.model.columns.size → d.Meets positions a.reading →
          ¬rhs ≤ number (a.total entries)) ∧
      ((∀ e ∈ entries, e.2 ≠ number 0) →
        (∀ e ∈ entries, Scalar.isInfinite (d.valuesBefore limit (maxSide e.2) e.1) = false) →
          number (finiteSum (termsAt (d.valuesBefore limit) maxSide entries)) < rhs →
          o ≠ none) := by
  have hopposite := @Traced.explainAtMost_violated f d limit h hfeastol _ (-rhs)
    (entries_opposite hentries) hf
  refine hopposite.mono fun o _ ho =>
    ⟨fun positions hpositions a ha hmeets hle => ?_, fun hnonzero hfinite hlt => ho.2 ?_ ?_⟩
  · refine ho.1 positions hpositions a ha hmeets ?_
    rw [total_opposite, ← neg_number]
    exact Exact.neg_le_neg hle
  · intro e he
    obtain ⟨e, hmem, rfl⟩ := List.mem_map.mp he
    obtain ⟨-, q, hq⟩ := hentries e hmem
    have hne : q ≠ 0 := fun hzero => hnonzero e hmem (by rw [hq, hzero])
    have hside : minSide (-e.2) = maxSide e.2 := hq ▸ minSide_neg hne
    rw [hside]
    exact hfinite e hmem
  · rw [finiteSum_opposite hentries hnonzero, ← neg_number]
    exact Exact.neg_lt_neg hlt

end Negated

end Domain

end BranchBound
