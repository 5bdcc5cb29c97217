import BranchBound.Proofs.Domain.Operation
import BranchBound.Proofs.Model.Numbers
import BranchBound.Proofs.VariableBound.Accepted

/-!
# Detected variable bounds are equivalent to their rows

A row over a binary and another column, solved for the other column, is a line over the binary one
for each of its sides. What detection records is followed action by action: each one adds to what a
table demands of the assignments in the box whose binary columns are zero or one. A line that the
box implies adds nothing, and a line that is merged with another one adds itself.
-/

namespace BranchBound

open Checked Exact

/-- A row holds at an assignment. -/
def Row.HoldsFor (row : Row Exact) (a : Assignment) : Prop :=
  row.lower ≤ number (a.total (row.entries : List (ColumnId × Exact))) ∧
    number (a.total (row.entries : List (ColumnId × Exact))) ≤ row.upper

namespace Domain

/-- An assignment is in the box, and its binary columns are zero or one. -/
structure Confines (d : Domain Exact) (a : Assignment) : Prop where
  box : ∀ side c value, d.boundValue side c = .ok value → a.reading.Holds ⟨c, side, value⟩
  binary : ∀ y, d.isBinary y = .ok true → a y = 0 ∨ a y = 1

/-- A row has two entries, one on a binary column and one on another column. -/
structure Links (d : Domain Exact) (row : Row Exact) : Prop where
  two : row.entries.length = 2
  binary : ∃ e ∈ row.entries, d.isBinary e.1 = .ok true
  other : ∃ e ∈ row.entries, d.isBinary e.1 = .ok false

end Domain

namespace VariableBounds

variable {n : Nat} {t : VariableBounds Exact} {d : Domain Exact} {a : Assignment} {side : Side}
  {x y : ColumnId} {b b' bound : VariableBound Exact}

/-! ### Merged bounds -/

/-- The tighter of two bounds holds if both of them hold. -/
theorem holds_tightest {v w : Exact} (hv : v ≠ nan) (hw : w ≠ nan) :
    a.reading.Holds ⟨x, side, tightest side v w⟩ ↔
      a.reading.Holds ⟨x, side, v⟩ ∧ a.reading.Holds ⟨x, side, w⟩ := by
  rcases tightest_cases side (isNaN_eq_false.mpr hv) (isNaN_eq_false.mpr hw) with
    ⟨heq, htight⟩ | ⟨heq, htight⟩
  · rw [heq]
    exact ⟨fun h => ⟨h, a.reading.weaken h htight⟩, And.left⟩
  · rw [heq]
    exact ⟨fun h => ⟨a.reading.weaken h htight, h⟩, And.right⟩

theorem exists_bool {v : ℚ} (hv : v = 0 ∨ v = 1) : ∃ value : Bool, v = if value then 1 else 0 := by
  rcases hv with rfl | rfl
  · exact ⟨false, rfl⟩
  · exact ⟨true, rfl⟩

/-- At zero and at one, merged lines bound a column as both of them do. -/
theorem holds_merge (hb : b.Proper) (hb' : b'.Proper) {v : ℚ} (hv : v = 0 ∨ v = 1) :
    a.reading.Holds ⟨x, side, (merge side b b').valueAt v⟩ ↔
      a.reading.Holds ⟨x, side, b.valueAt v⟩ ∧ a.reading.Holds ⟨x, side, b'.valueAt v⟩ := by
  obtain ⟨value, rfl⟩ := exists_bool hv
  simp only [VariableBound.valueAt_binary]
  rw [merge_evaluate side b b' value (merge_proper side hb hb').constant]
  exact holds_tightest (evaluate_not_nan hb value) (evaluate_not_nan hb' value)

/-- A column is on its side of the lines of a list. -/
def ListHolds (a : Assignment) (side : Side) (x : ColumnId)
    (list : List (ColumnId × VariableBound Exact)) : Prop :=
  ∀ line ∈ list, a.reading.Holds ⟨x, side, line.2.valueAt (a line.1)⟩

/-- A line that is merged into a list adds itself to what the list demands. -/
theorem listHolds_mergeInto {list : List (ColumnId × VariableBound Exact)}
    (hlist : ∀ line ∈ list, line.2.Proper) (hbound : bound.Proper) (hy : a y = 0 ∨ a y = 1) :
    ListHolds a side x (mergeInto side y bound list).2 ↔
      ListHolds a side x list ∧ a.reading.Holds ⟨x, side, bound.valueAt (a y)⟩ := by
  unfold ListHolds
  induction list with
  | nil => simp [mergeInto]
  | cons line rest ih =>
      obtain ⟨hline, hrest⟩ := List.forall_mem_cons.mp hlist
      rw [mergeInto]
      by_cases hkey : line.1 = y
      · subst hkey
        simp only [beq_self_eq_true, if_true, List.forall_mem_cons, holds_merge hline hbound hy]
        tauto
      · simp only [beq_eq_false_iff_ne.mpr hkey, Bool.false_eq_true, if_false, List.forall_mem_cons,
          ih hrest]
        tauto

theorem proper_mergeInto {list : List (ColumnId × VariableBound Exact)}
    (hlist : ∀ line ∈ list, line.2.Proper) (hbound : bound.Proper) :
    ∀ line ∈ (mergeInto side y bound list).2, line.2.Proper := by
  induction list with
  | nil => simpa [mergeInto] using hbound
  | cons line rest ih =>
      obtain ⟨hline, hrest⟩ := List.forall_mem_cons.mp hlist
      rw [mergeInto]
      by_cases hkey : line.1 = y
      · simp only [beq_iff_eq.mpr hkey, if_true, List.forall_mem_cons]
        exact ⟨merge_proper side hline hbound, hrest⟩
      · simp only [beq_eq_false_iff_ne.mpr hkey, Bool.false_eq_true, if_false, List.forall_mem_cons]
        exact ⟨hline, ih hrest⟩

/-! ### Actions that add to what a table demands -/

/-- A table of the bounds of the first columns, all of them with rational values at zero. -/
structure Regular (n : Nat) (t : VariableBounds Exact) : Prop where
  indexed : t.Indexed n
  proper : ∀ side x, ∀ line ∈ t.lines side x, line.2.Proper

theorem satisfiedBy_iff : t.SatisfiedBy a ↔ ∀ side x, ListHolds a side x (t.lines side x) := by
  constructor
  · intro h side x line hline
    exact h side x line.1 line.2 hline
  · intro h side x y b hline
    exact h side x (y, b) hline

/-- An action on regular tables returns, and adds `P` to what a table demands of the assignments
that a domain confines. -/
def Adds (n : Nat) (d : Domain Exact) {β : Type} (action : Action (VariableBounds Exact) β)
    (P : Assignment → Prop) : Prop :=
  ∀ t, t.Regular n → Returns (action.finish t) fun r => r.2.Regular n ∧
    ∀ a, d.Confines a → (r.2.SatisfiedBy a ↔ t.SatisfiedBy a ∧ P a)

namespace Adds

variable {β γ : Type} {action : Action (VariableBounds Exact) β}
  {next : β → Action (VariableBounds Exact) γ} {P Q : Assignment → Prop}

theorem congr (h : Adds n d action P) (hPQ : ∀ a, d.Confines a → (P a ↔ Q a)) :
    Adds n d action Q := by
  intro t ht
  refine (h t ht).mono fun r _ ⟨hr, hiff⟩ => ⟨hr, fun a ha => ?_⟩
  rw [hiff a ha, hPQ a ha]

theorem pure (result : β) : Adds n d (pure result) fun _ => True := by
  intro t ht
  exact ⟨(result, t), rfl, ht, fun a _ => (and_iff_left trivial).symm⟩

theorem bind (h : Adds n d action P) (hnext : ∀ result, Adds n d (next result) Q) :
    Adds n d (action >>= next) fun a => P a ∧ Q a := by
  intro t ht
  obtain ⟨⟨result, u⟩, hrun, hu, hfirst⟩ := h t ht
  obtain ⟨r, hrest, hr, hsecond⟩ := hnext result u hu
  refine ⟨r, Action.finish_eq_ok.mpr (Action.perform_bind_eq_ok.mpr
    ⟨result, u, Action.finish_eq_ok.mp hrun, Action.finish_eq_ok.mp hrest⟩), hr, fun a ha => ?_⟩
  rw [hsecond a ha, hfirst a ha, and_assoc]

theorem discard (h : Adds n d action P) : Adds n d (discard action) P := by
  intro t ht
  obtain ⟨⟨result, u⟩, hrun, hu⟩ := h t ht
  refine ⟨((), u), Action.finish_eq_ok.mpr ?_, hu⟩
  exact Action.perform_bind_eq_ok.mpr ⟨result, u, Action.finish_eq_ok.mp hrun, rfl⟩

/-- A lookup adds nothing. -/
theorem look {lookup : Checked β} {result : β} (hlookup : lookup = .ok result)
    (hnext : Adds n d (next result) P) : Adds n d (liftM lookup >>= next) P := by
  intro t ht
  obtain ⟨r, hrun, hr⟩ := hnext t ht
  refine ⟨r, Action.finish_eq_ok.mpr (Action.perform_bind_eq_ok.mpr ⟨result, t, ?_, ?_⟩), hr⟩
  · rw [Action.perform_lift, hlookup]
  · exact Action.finish_eq_ok.mp hrun

/-- An action that is repeated for the elements of a list adds what it adds for each of them. -/
theorem forM {action : β → Action (VariableBounds Exact) Unit} {P : β → Assignment → Prop}
    {items : List β} (h : ∀ item ∈ items, Adds n d (action item) (P item)) :
    Adds n d (items.forM action) fun a => ∀ item ∈ items, P item a := by
  induction items with
  | nil => exact (pure ()).congr fun a _ => by simp
  | cons item rest ih =>
      have hrest := ih fun other hother => h other (List.mem_cons_of_mem _ hother)
      refine ((h item (List.mem_cons_self ..)).bind fun _ => hrest).congr fun a _ => ?_
      rw [List.forall_mem_cons]

end Adds

theorem boundValue_eq_ok (hfits : (Request.add d side x y bound).Fits n) :
    ∃ current, d.boundValue side x = .ok current := by
  obtain ⟨hx, -, -, hbounds⟩ := hfits
  have hbound := Array.getElem?_eq_getElem (Nat.lt_of_lt_of_le hx (hbounds side))
  exact ⟨_, bind_eq_ok.mpr ⟨_, fetch_eq_ok.mpr hbound, rfl⟩⟩

/-- A line over a binary column is not accepted only if the box implies it at both values. -/
theorem tight_of_not_accepts {current : Exact} (hxy : x ≠ y) (hy : d.isBinary y = .ok true)
    (hcurrent : d.boundValue side x = .ok current) (h : accepts d side x y bound = false) :
    side.tightOrEqual current (bound.evaluate false) = true ∧
      side.tightOrEqual current (bound.evaluate true) = true := by
  rw [accepts, hy, hcurrent] at h
  simpa [passes, hxy] using h

/-- Adding a line over a binary column adds it to what the table demands, also if it is
redundant. -/
theorem adds_add (hfits : (Request.add d side x y bound).Fits n) (hbound : bound.Proper)
    (hxy : x ≠ y) (hy : d.isBinary y = .ok true) :
    Adds n d (VariableBounds.add d side x y bound) fun a =>
      a.reading.Holds ⟨x, side, bound.valueAt (a y)⟩ := by
  intro t ht
  obtain ⟨t', hrun, ht', hlines⟩ := ht.indexed.add hfits
  obtain ⟨r, hr, heq⟩ := bind_eq_ok.mp hrun
  cases heq
  refine ⟨r, hr, ⟨ht', fun side' x' => ?_⟩, fun a ha => ?_⟩
  · rw [hlines]
    split
    · exact proper_mergeInto (ht.proper side x) hbound
    · exact ht.proper side' x'
  · have hbinary := ha.binary y hy
    simp only [satisfiedBy_iff, hlines]
    cases haccepts : accepts d side x y bound with
    | true =>
        constructor
        · intro h
          have hhere := h side x
          rw [if_pos ⟨rfl, rfl, rfl⟩] at hhere
          obtain ⟨hlist, hnew⟩ := (listHolds_mergeInto (ht.proper side x) hbound hbinary).mp hhere
          refine ⟨fun side' x' => ?_, hnew⟩
          by_cases hsame : side' = side ∧ x' = x
          · obtain ⟨rfl, rfl⟩ := hsame
            exact hlist
          · have hother := h side' x'
            rwa [if_neg fun hall => hsame hall.2] at hother
        · rintro ⟨h, hnew⟩ side' x'
          split
          · next hall =>
              obtain ⟨-, rfl, rfl⟩ := hall
              exact (listHolds_mergeInto (ht.proper _ _) hbound hbinary).mpr ⟨h _ _, hnew⟩
          · exact h side' x'
    | false =>
        -- the box implies the line at both values
        have himplied : a.reading.Holds ⟨x, side, bound.valueAt (a y)⟩ := by
          obtain ⟨current, hcurrent⟩ := boundValue_eq_ok hfits
          obtain ⟨hzero, hone⟩ := tight_of_not_accepts hxy hy hcurrent haccepts
          obtain ⟨value, hvalue⟩ := exists_bool hbinary
          rw [hvalue, VariableBound.valueAt_binary]
          apply a.reading.weaken (ha.box side x current hcurrent)
          cases value with
          | false => exact hzero
          | true => exact hone
        simp [himplied]

/-! ### Rows -/

section Rows

variable {p q w : ℚ}

/-- A row over two columns, solved for the first one. -/
def solved (p q w : ℚ) : VariableBound Exact := ⟨-number q / number p, number w / number p⟩

theorem solved_proper (hp : p ≠ 0) : (solved p q w).Proper where
  constant := ⟨w / p, number_div hp⟩
  coefficient := by
    rw [solved, neg_number, number_div hp]
    exact Exact.noConfusion

theorem valueAt_solved (hp : p ≠ 0) (v : ℚ) :
    (solved p q w).valueAt v = number ((w - q * v) / p) := by
  unfold VariableBound.valueAt solved
  rw [neg_number, number_div hp, number_div hp]
  split
  · next hv => rw [hv, mul_zero, sub_zero]
  · rw [number_mul, number_add]
    congr 1
    field_simp
    ring

/-- The upper side of a row is an upper bound for a positive coefficient, and a lower one
otherwise. -/
theorem holds_solved_upper (hp : p ≠ 0) :
    a.reading.Holds ⟨x, if (0 : Exact) < number p then .upper else .lower,
        (solved p q w).valueAt (a y)⟩ ↔ p * a x + q * a y ≤ w := by
  rw [valueAt_solved hp, ofNat_eq, if_congr number_lt rfl rfl, Nat.cast_zero]
  rcases lt_or_gt_of_ne hp with hneg | hpos
  · rw [if_neg (not_lt.mpr hneg.le)]
    simp only [Assignment.reading, number_le, div_le_iff_of_neg hneg]
    constructor <;> intro h <;> linarith
  · rw [if_pos hpos]
    simp only [Assignment.reading, number_le, le_div_iff₀ hpos]
    constructor <;> intro h <;> linarith

theorem holds_solved_lower (hp : p ≠ 0) :
    a.reading.Holds ⟨x, if (0 : Exact) < number p then .lower else .upper,
        (solved p q w).valueAt (a y)⟩ ↔ w ≤ p * a x + q * a y := by
  rw [valueAt_solved hp, ofNat_eq, if_congr number_lt rfl rfl, Nat.cast_zero]
  rcases lt_or_gt_of_ne hp with hneg | hpos
  · rw [if_neg (not_lt.mpr hneg.le)]
    simp only [Assignment.reading, number_le, le_div_iff_of_neg hneg]
    constructor <;> intro h <;> linarith
  · rw [if_pos hpos]
    simp only [Assignment.reading, number_le, div_le_iff₀ hpos]
    constructor <;> intro h <;> linarith

/-- The sides of a row are numbers, or there is none below or above. -/
structure Sided (row : Row Exact) : Prop where
  lower : row.lower = minus ∨ ∃ w, row.lower = number w
  upper : row.upper = plus ∨ ∃ w, row.upper = number w

/-- The columns of a domain, each with a bound on each side. -/
structure Columned (n : Nat) (d : Domain Exact) : Prop where
  columns : d.model.columns.size = n
  bounds : ∀ side, (d.bounds side).size = n

theorem Columned.fits (h : Columned n d) (hx : x < n) (hy : y < n) :
    (Request.add d side x y bound).Fits n :=
  ⟨hx, hy, h.columns.ge, fun side => (h.bounds side).ge⟩

theorem Columned.isBinary_eq_ok (h : Columned n d) (hx : x < n) :
    ∃ answer, d.isBinary x = .ok answer := by
  have hcolumn := Array.getElem?_eq_getElem (h.columns.ge.trans_lt' hx)
  exact ⟨_, bind_eq_ok.mpr ⟨_, fetch_eq_ok.mpr hcolumn, rfl⟩⟩

/-- Solving a row for a column adds the row, if the column is not binary and the other one is. -/
theorem adds_detectInRow (h : Columned n d) {row : Row Exact} (hsided : Sided row) (hx : x < n)
    (hy : y < n) (hp : p ≠ 0) :
    Adds n d (detectInRow d row ((x, number p), (y, number q))) fun a =>
      d.isBinary x = .ok false → d.isBinary y = .ok true →
        row.lower ≤ number (p * a x + q * a y) ∧ number (p * a x + q * a y) ≤ row.upper := by
  obtain ⟨xBinary, hxBinary⟩ := h.isBinary_eq_ok hx
  obtain ⟨yBinary, hyBinary⟩ := h.isBinary_eq_ok hy
  have hzero : (number p == (0 : Exact)) = false := by simp [hp]
  unfold detectInRow
  simp only [hzero, Bool.false_eq_true, if_false]
  apply Adds.look hxBinary
  cases xBinary with
  | true => exact (Adds.pure ()).congr fun a _ => by simp [hxBinary]
  | false =>
      apply Adds.look hyBinary
      cases yBinary with
      | false => exact (Adds.pure ()).congr fun a _ => by simp [hyBinary]
      | true =>
          have hxy : x ≠ y := by
            rintro rfl
            rw [hxBinary] at hyBinary
            cases hyBinary
          have hline {side : Side} {w : ℚ} : Adds n d
              (VariableBounds.add d side x y (solved p q w)) fun a =>
                a.reading.Holds ⟨x, side, (solved p q w).valueAt (a y)⟩ :=
            adds_add (h.fits hx hy) (solved_proper hp) hxy hyBinary
          have hlower : Adds n d (if -Scalar.infinity < row.lower then
                discard <| VariableBounds.add d (if (0 : Exact) < number p then .lower else .upper)
                  x y
                  ⟨-number q / number p, row.lower / number p⟩
              else pure ()) fun a => row.lower ≤ number (p * a x + q * a y) := by
            rcases hsided.lower with hminus | ⟨w, hw⟩
            · rw [hminus]
              exact (Adds.pure ()).congr fun a _ => ⟨fun _ => rfl, fun _ => trivial⟩
            · rw [hw]
              refine hline.discard.congr fun a _ => ?_
              rw [holds_solved_lower hp, number_le]
          apply Adds.congr (P := fun a => row.lower ≤ number (p * a x + q * a y) ∧
            number (p * a x + q * a y) ≤ row.upper)
          · rcases hsided.upper with hplus | ⟨w, hw⟩
            · rw [hplus]
              exact hlower.congr fun a _ => (and_iff_left rfl).symm
            · rw [hw]
              refine (hline.discard.bind fun _ => hlower).congr fun a _ => ?_
              rw [holds_solved_upper hp, number_le, and_comm]
          · intro a _
            simp [hxBinary, hyBinary]

theorem total_pair (a : Assignment) (x y : ColumnId) (p q : ℚ) :
    a.total ([(x, number p), (y, number q)] : List (ColumnId × Exact)) = p * a x + q * a y := by
  simp [Assignment.total]

theorem links_pair {row : Row Exact} {e e' : ColumnId × Exact} (hentries : row.entries = [e, e']) :
    d.Links row ↔ d.isBinary e.1 = .ok false ∧ d.isBinary e'.1 = .ok true ∨
      d.isBinary e'.1 = .ok false ∧ d.isBinary e.1 = .ok true := by
  have hfirst : e ∈ row.entries := by simp [hentries]
  have hsecond : e' ∈ row.entries := by simp [hentries]
  constructor
  · rintro ⟨-, hbinary, hother⟩
    simp only [hentries, List.mem_cons, List.not_mem_nil, or_false, exists_eq_or_imp,
      exists_eq_left] at hbinary hother
    rcases hbinary with hbinary | hbinary <;> rcases hother with hother | hother <;>
      simp_all
  · rintro (⟨hother, hbinary⟩ | ⟨hother, hbinary⟩)
    · exact ⟨by simp [hentries], ⟨e', hsecond, hbinary⟩, ⟨e, hfirst, hother⟩⟩
    · exact ⟨by simp [hentries], ⟨e, hfirst, hbinary⟩, ⟨e', hsecond, hother⟩⟩

/-- Of the two ways to solve a row over two columns, the one that applies adds the row. -/
theorem adds_detectInPair (h : Columned n d) {row : Row Exact} (hsided : Sided row) (hx : x < n)
    (hy : y < n) (hp : p ≠ 0) (hq : q ≠ 0) (hentries : row.entries =
      [(x, number p), (y, number q)]) :
    Adds n d (do
        detectInRow d row ((x, number p), (y, number q))
        detectInRow d row ((y, number q), (x, number p)))
      fun a => d.Links row → row.HoldsFor a := by
  refine ((adds_detectInRow h hsided hx hy hp).bind fun _ =>
    adds_detectInRow h hsided hy hx hq).congr fun a _ => ?_
  rw [links_pair hentries, or_imp, and_imp, and_imp, Row.HoldsFor, hentries, total_pair,
    add_comm (q * a y)]

/-- Detection adds the rows with two entries, one on a binary and one on another column. -/
theorem adds_detectInRows (h : Columned n d) {draft : Draft Exact}
    (hbuild : draft.build = .ok d.model) (hsided : ∀ row ∈ d.model.rows, Sided row) :
    Adds n d (detectInRows d) fun a => ∀ row ∈ d.model.rows, d.Links row → row.HoldsFor a := by
  apply Adds.congr (P := fun a => ∀ row ∈ d.model.rows.toList, d.Links row → row.HoldsFor a)
  · apply Adds.forM
    intro row hmem
    rw [Array.mem_toList_iff] at hmem
    obtain ⟨r, hrow⟩ := Array.mem_iff_getElem?.mp hmem
    have hlt : ∀ e ∈ row.entries, e.1 < n :=
      h.columns ▸ (Draft.wellFormed_of_build hbuild).entry_lt r row hrow
    have hvalue : ∀ e ∈ row.entries, ∃ q, e = (e.1, number q) ∧ q ≠ 0 := by
      intro e he
      obtain ⟨q, hq⟩ := Draft.number_of_build hbuild hrow e he
      refine ⟨q, Prod.ext rfl hq, ?_⟩
      rintro rfl
      exact Draft.nonzero_of_build hbuild hrow e he hq
    split
    · next first second hentries =>
        have hfirst : first ∈ row.entries := by simp [hentries]
        have hsecond : second ∈ row.entries := by simp [hentries]
        obtain ⟨p, hp, hp0⟩ := hvalue first hfirst
        obtain ⟨q, hq, hq0⟩ := hvalue second hsecond
        rw [hp, hq] at hentries ⊢
        exact adds_detectInPair h (hsided row hmem) (hlt first hfirst) (hlt second hsecond) hp0 hq0
          hentries
    · next hpair =>
        refine (Adds.pure ()).congr fun a _ => ⟨fun _ hlinks => ?_, fun _ => trivial⟩
        obtain ⟨first, second, hentries⟩ := List.length_eq_two.mp hlinks.two
        exact absurd hentries (hpair first second)
  · intro a _
    simp only [Array.mem_toList_iff]

end Rows

/-- **Detected variable bounds are equivalent to their rows.** Let a domain be over a model that was
built, whose rows have numbers for sides or none below or above. Then detection returns, and an
assignment in the box whose binary columns are zero or one satisfies every row with two entries, one
on a binary and one on another column, if and only if it satisfies every bound that was recorded. -/
theorem detected_bounds_equivalent {draft : Draft Exact} {model : Model Exact}
    (hbuild : draft.build = .ok model) (hmodel : d.model = model)
    (hbounds : ∀ side, (d.bounds side).size = model.columnCount)
    (hsided : ∀ row ∈ model.rows, Sided row) :
    Returns (detect d) fun t => ∀ a, d.Confines a →
      ((∀ row ∈ model.rows, d.Links row → row.HoldsFor a) ↔ t.SatisfiedBy a) := by
  subst hmodel
  have hadds := adds_detectInRows ⟨rfl, hbounds⟩ hbuild hsided
  have hregular : (empty d.model.columnCount : VariableBounds Exact).Regular
    d.model.columnCount := by
    refine ⟨empty_indexed _, fun side x line hline => ?_⟩
    rw [lines_empty] at hline
    cases hline
  refine (hadds _ hregular).bind fun r _ ⟨_, hiff⟩ => .pure fun a ha => ?_
  rw [hiff a ha]
  refine ⟨fun h => ⟨fun side x y b hline => ?_, h⟩, And.right⟩
  rw [lines_empty] at hline
  cases hline

/-- A column `x` in `[0, 10]` with the rows `x - 6 y ≤ 2`, `-16 ≤ -2 x - 3 y`, `1 ≤ x + y` and
`x + y ≤ 20` over a binary column `y`. -/
def rowsOverBinary : Draft Exact :=
  ⟨#[⟨0, 0, 10, .continuous⟩, .binary 0],
    #[⟨minus, 2, [(0, 1), (1, -6)]⟩, ⟨-16, plus, [(0, -2), (1, -3)]⟩,
      ⟨1, plus, [(0, 1), (1, 1)]⟩, ⟨minus, 20, [(0, 1), (1, 1)]⟩], 0⟩

/-- The two upper bounds are merged, and the last row is implied by the box. -/
theorem rows_over_binary_detected : ∃ (model : Model Exact) (d : Domain Exact),
    rowsOverBinary.build = .ok model ∧ Domain.ofModel model 1e-6 = .ok d ∧
    Returns (detect d) fun t =>
      t.lines .upper 0 = [(1, ⟨9 / 2, 2⟩)] ∧ t.lines .lower 0 = [(1, ⟨-1, 1⟩)] ∧
      ∀ a, d.Confines a →
        ((∀ row ∈ model.rows, d.Links row → row.HoldsFor a) ↔ t.SatisfiedBy a) := by
  have hrun : passes rowsOverBinary.build (fun model =>
      (model.rows.map fun row => (row.lower, row.upper)) =
        #[(minus, number 2), (number (-16), plus), (number 1, plus), (minus, number 20)] &&
      passes (Domain.ofModel model 1e-6) fun d => passes (detect d) fun t =>
        decide (t.lines .upper 0 = [(1, ⟨9 / 2, 2⟩)] ∧
          t.lines .lower 0 = [(1, ⟨-1, 1⟩)])) = true := by
    decide +kernel
  obtain ⟨model, hbuild, hrun⟩ := passes_eq_true.mp hrun
  obtain ⟨hsides, hrun⟩ := Bool.and_eq_true_iff.mp hrun
  obtain ⟨d, hd, hrun⟩ := passes_eq_true.mp hrun
  obtain ⟨t, ht, hrun⟩ := passes_eq_true.mp hrun
  obtain ⟨hupper, hlower⟩ := of_decide_eq_true hrun
  have hsided : ∀ row ∈ model.rows, Sided row := by
    intro row hrow
    have hmem : (row.lower, row.upper) ∈ model.rows.map fun row => (row.lower, row.upper) :=
      Array.mem_map.mpr ⟨row, hrow, rfl⟩
    rw [of_decide_eq_true hsides] at hmem
    simp only [List.mem_toArray, List.mem_cons, List.not_mem_nil, or_false, Prod.mk.injEq] at hmem
    rcases hmem with ⟨hl, hu⟩ | ⟨hl, hu⟩ | ⟨hl, hu⟩ | ⟨hl, hu⟩
    · exact ⟨.inl hl, .inr ⟨_, hu⟩⟩
    · exact ⟨.inr ⟨_, hl⟩, .inl hu⟩
    · exact ⟨.inr ⟨_, hl⟩, .inl hu⟩
    · exact ⟨.inl hl, .inr ⟨_, hu⟩⟩
  have hmodel : d.model = model := by
    unfold Domain.ofModel at hd
    rw [Domain.refreshActivities_eq_ok hd]
  have hbounds (side : Side) : (d.bounds side).size = model.columnCount := by
    unfold Domain.ofModel at hd
    rw [Domain.refreshActivities_eq_ok hd]
    cases side <;> exact Array.size_map ..
  refine ⟨model, d, hbuild, hd, t, ht, hupper, hlower, ?_⟩
  exact (detected_bounds_equivalent hbuild hmodel hbounds hsided).of_eq_ok ht

end VariableBounds

end BranchBound
