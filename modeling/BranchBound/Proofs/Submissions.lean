import BranchBound.Proofs.Incumbent
import BranchBound.Proofs.Number.Arithmetic

/-!
# Points submitted one after the other

Every thread submits its points to one incumbent, and the calls come one after the other in some
order. Whatever the order is, a number that is not better leaves the incumbent as it is and a better
one takes its place. So the incumbent is the first of the best points, and the objective value only
falls. The cutoff of doubles falls with it although every operation of it is rounded, unless the
tolerance is more than three quarters and the allowance for the next objective value is a part of
the value.
-/

namespace BranchBound

namespace Incumbent

/-! ### Runs of submissions -/

section Runs

open Scalar

variable {α : Type} [Scalar α] {i final : Incumbent α} {value : α}
  {submissions : List (Array α × α)}

/-- The incumbent after some points with their objective values were submitted. -/
def submitAll (i : Incumbent α) (submissions : List (Array α × α)) : Incumbent α :=
  submissions.foldl (fun i submission => (i.tryUpdate submission.1 submission.2).2) i

theorem submitAll_append (i : Incumbent α) (first second : List (Array α × α)) :
    i.submitAll (first ++ second) = (i.submitAll first).submitAll second := List.foldl_append

/-- What is known of the objective and the tolerance stay as they are. -/
theorem submitAll_keeps (i : Incumbent α) (submissions : List (Array α × α)) :
    (i.submitAll submissions).integralObjective = i.integralObjective ∧
      (i.submitAll submissions).feastol = i.feastol := by
  induction submissions generalizing i with
  | nil => exact ⟨rfl, rfl⟩
  | cons submission rest ih =>
      obtain ⟨hintegral, hfeastol⟩ := ih (i.tryUpdate submission.1 submission.2).2
      refine ⟨hintegral.trans ?_, hfeastol.trans ?_⟩ <;>
        · unfold tryUpdate
          split <;> rfl

variable [LinearlyOrdered α]

/-- A number is refused if it is not below the objective value, and lowers it otherwise. -/
theorem tryUpdate_cases (hi : isNaN i.objective = false) (hvalue : isNaN value = false)
    (point : Array α) :
    i.objective ≤ value ∧ i.tryUpdate point value = (false, i) ∨
    value < i.objective ∧
      i.tryUpdate point value = (true, { i with solution := some point, objective := value }) := by
  unfold tryUpdate
  split
  · next hle => exact .inl ⟨hle, rfl⟩
  · next hnot => exact .inr ⟨lt_of_not_le hi hvalue hnot, rfl⟩

/-- What a call tells, and that it does not raise the objective value. -/
theorem tryUpdate_told (hi : isNaN i.objective = false) (hvalue : isNaN value = false)
    (point : Array α) :
    ((i.tryUpdate point value).1 = true ↔ (i.tryUpdate point value).2.objective < i.objective) ∧
      (i.tryUpdate point value).2.objective ≤ i.objective := by
  rcases tryUpdate_cases hi hvalue point with ⟨-, hsame⟩ | ⟨hlt, hbetter⟩
  · rw [hsame]
    have hle := Ordered.le_refl i.objective hi
    exact ⟨⟨fun h => (Bool.false_ne_true h).elim, fun h => (not_le_of_lt h hle).elim⟩, hle⟩
  · rw [hbetter]
    exact ⟨⟨fun _ => hlt, fun _ => rfl⟩, Ordered.le_of_lt _ _ hlt⟩

/-- The incumbent after some submissions: the one before if none of them is better, and otherwise
the first one of those that are best. -/
inductive BestOf (i : Incumbent α) (submissions : List (Array α × α)) (final : Incumbent α) : Prop
  | same (hfinal : final = i) (h : ∀ s ∈ submissions, i.objective ≤ s.2)
  | first {before after : List (Array α × α)} {point : Array α} {value : α}
      (hsplit : submissions = before ++ (point, value) :: after)
      (hfinal : final = { i with solution := some point, objective := value })
      (hbetter : value < i.objective) (hbefore : ∀ s ∈ before, value < s.2)
      (hafter : ∀ s ∈ after, value ≤ s.2)

theorem bestOf_submitAll (hi : isNaN i.objective = false)
    (hnumbers : ∀ s ∈ submissions, isNaN s.2 = false) :
    BestOf i submissions (i.submitAll submissions) := by
  induction submissions generalizing i with
  | nil => exact .same rfl fun s hs => absurd hs List.not_mem_nil
  | cons submission rest ih =>
      obtain ⟨point, value⟩ := submission
      obtain ⟨hvalue, hrest⟩ := List.forall_mem_cons.mp hnumbers
      change BestOf i _ ((i.tryUpdate point value).2.submitAll rest)
      rcases tryUpdate_cases hi hvalue point with ⟨hle, hsame⟩ | ⟨hlt, hbetter⟩
      · rw [hsame]
        rcases ih hi hrest with ⟨hfinal, h⟩ | ⟨hsplit, hfinal, hlower, hbefore, hafter⟩
        · exact .same hfinal (List.forall_mem_cons.mpr ⟨hle, h⟩)
        · exact .first (congrArg ((point, value) :: ·) hsplit) hfinal hlower
            (List.forall_mem_cons.mpr ⟨lt_of_lt_of_le hlower hle, hbefore⟩) hafter
      · rw [hbetter]
        rcases ih (i := { i with solution := some point, objective := value }) hvalue hrest with
          ⟨hfinal, h⟩ | ⟨hsplit, hfinal, hlower, hbefore, hafter⟩
        · have hnone : ∀ s ∈ ([] : List (Array α × α)), value < s.2 := fun s hs =>
            absurd hs List.not_mem_nil
          exact .first (List.nil_append _).symm hfinal hlt hnone h
        · exact .first (congrArg ((point, value) :: ·) hsplit) hfinal
            (lt_of_lt_of_le hlower (Ordered.le_of_lt _ _ hlt))
            (List.forall_mem_cons.mpr ⟨hlower, hbefore⟩) hafter

/-- The objective value is not above the one before, nor above any that was submitted. -/
theorem BestOf.least (hi : isNaN i.objective = false) (h : BestOf i submissions final) :
    final.objective ≤ i.objective ∧ ∀ s ∈ submissions, final.objective ≤ s.2 := by
  rcases h with ⟨rfl, h⟩ | ⟨rfl, rfl, hbetter, hbefore, hafter⟩
  · exact ⟨Ordered.le_refl _ hi, h⟩
  · refine ⟨Ordered.le_of_lt _ _ hbetter, fun s hs => ?_⟩
    rcases List.mem_append.mp hs with hs | hs
    · exact Ordered.le_of_lt _ _ (hbefore s hs)
    · rcases List.mem_cons.mp hs with rfl | hs
      · exact Ordered.le_refl _ (number_of_lt hbetter).1
      · exact hafter s hs

/-- If something better was submitted, the incumbent is the first submission with its objective
value. -/
theorem BestOf.exists_first (h : BestOf i submissions final) {s : Array α × α}
    (hs : s ∈ submissions)
    (hbetter : s.2 < i.objective) :
    ∃ before point after, submissions = before ++ (point, final.objective) :: after ∧
      final.solution = some point ∧ ∀ s ∈ before, final.objective < s.2 := by
  rcases h with ⟨rfl, h⟩ | ⟨hsplit, rfl, -, hbefore, -⟩
  · exact absurd (h s hs) (not_le_of_lt hbetter)
  · exact ⟨_, _, _, hsplit, rfl, hbefore⟩

omit [LinearlyOrdered α] in
/-- If nothing better was submitted, the incumbent is the one before. -/
theorem BestOf.eq_of_not_better (h : BestOf i submissions final)
    (hworse : ∀ s ∈ submissions, ¬s.2 < i.objective) : final = i := by
  rcases h with ⟨rfl, -⟩ | ⟨rfl, -, hbetter, -, -⟩
  · rfl
  · exact absurd hbetter (hworse _ (List.mem_append_right _ (List.mem_cons_self ..)))

theorem isNaN_submitAll (hi : isNaN i.objective = false)
    (hnumbers : ∀ s ∈ submissions, isNaN s.2 = false) :
    isNaN (i.submitAll submissions).objective = false :=
  number_left ((bestOf_submitAll hi hnumbers).least hi).1

end Runs

/-! ### Cutoffs of doubles -/

section Cutoffs

open Exact Binary64

variable {p q f : ℚ} {x y : Exact} {i j : Incumbent Float}

/-- How much better than a number the next objective value has to be. -/
def allowance (f q : ℚ) : ℚ := rounded (f * max |q| 1)

theorem allowance_mono (hf : 0 < f) (h : max |p| 1 ≤ max |q| 1) : allowance f p ≤ allowance f q :=
  rounded_mono (mul_le_mul_of_nonneg_left h hf.le)

theorem allowance_nonneg (hf : 0 < f) (q : ℚ) : 0 ≤ allowance f q :=
  rounded_nonneg (mul_nonneg hf.le (zero_le_one.trans (le_max_right _ _)))

theorem allowance_le (hf : f ≤ 1) (hq : IsShort q) : allowance f q ≤ max |q| 1 := by
  have hpos : (0 : ℚ) ≤ max |q| 1 := zero_le_one.trans (le_max_right _ _)
  calc allowance f q ≤ rounded (max |q| 1) := rounded_mono (mul_le_of_le_one_left hpos hf)
    _ = max |q| 1 := hq.abs.max_one.rounded_eq

/-- Numbers less their allowances are in the same order. -/
theorem sub_allowance_mono (hf : 0 < f) (hf' : f ≤ 3 / 4) (hp : IsShort p) (hq : IsShort q)
    (hpq : p ≤ q) : p - allowance f p ≤ q - allowance f q := by
  rcases le_or_gt (max |q| 1) (max |p| 1) with hle | hlt
  · linarith [allowance_mono hf hle]
  -- the larger number has the larger allowance only if it is above one
  have hone : 1 < q := by
    by_contra hnot
    have hneg : |q| ≤ max |p| 1 := by
      rcases abs_cases q with ⟨heq, -⟩ | ⟨heq, -⟩
      · exact heq.le.trans ((not_lt.mp hnot).trans (le_max_right _ _))
      · exact (heq.le.trans (neg_le_neg hpq)).trans ((neg_le_abs p).trans (le_max_left _ _))
    exact absurd hlt (not_lt.mpr (max_le hneg (le_max_right _ _)))
  have habs : max |q| 1 = q := by rw [abs_of_pos (by linarith), max_eq_left hone.le]
  have hbetween : max p 1 ≤ max |p| 1 := max_le_max_right 1 (le_abs_self p)
  have hallowance : rounded (f * max p 1) ≤ allowance f p :=
    rounded_mono (mul_le_mul_of_nonneg_left hbetween hf.le)
  have hchange :=
    rounded_mul_sub_le hf hf' hp.max_one hq (le_max_right p 1) (habs ▸ hbetween.trans_lt hlt)
  have hlarger : allowance f q = rounded (f * q) := by rw [allowance, habs]
  rw [hlarger]
  linarith [le_max_left p 1]

/-- A number less its allowance, as a double; an infinity stays. -/
def lessAllowance (f : ℚ) : Exact → Exact
  | number q => (number (q - allowance f q)).toDouble
  | x => x

/-- The cutoff of doubles as a function of the objective value. -/
def roundedCutoff (integralObjective : Bool) (f : ℚ) (x : Exact) : Exact :=
  if integralObjective then ((x - number 1).toDouble + number f).toDouble else lessAllowance f x

theorem lessAllowance_mono (hf : 0 < f) (hf' : f ≤ 3 / 4) (hx : ∀ q, x = number q → IsShort q)
    (hy : ∀ q, y = number q → IsShort q) (h : x ≤ y) : lessAllowance f x ≤ lessAllowance f y := by
  cases x with
  | nan => exact absurd rfl (not_nan_of_le h).1
  | number p =>
      cases y with
      | number q =>
          exact toDouble_mono (number_le.mpr
            (sub_allowance_mono hf hf' (hx p rfl) (hy q rfl) (number_le.mp h)))
      | plus => exact toDouble_mono (show number (p - allowance f p) ≤ plus from rfl)
      | minus | nan => cases h
  | plus =>
      cases y with
      | plus => rfl
      | number _ | minus | nan => cases h
  | minus =>
      cases y with
      | number q => exact toDouble_mono (show minus ≤ number (q - allowance f q) from rfl)
      | plus | minus => rfl
      | nan => cases h

theorem roundedCutoff_mono {integralObjective : Bool} (hf : 0 < f)
    (hpart : integralObjective = true ∨ f ≤ 3 / 4) (hx : ∀ q, x = number q → IsShort q)
    (hy : ∀ q, y = number q → IsShort q) (h : x ≤ y) :
    roundedCutoff integralObjective f x ≤ roundedCutoff integralObjective f y := by
  unfold roundedCutoff
  split
  · exact toDouble_mono (add_number_mono (toDouble_mono (add_number_mono h (-1))) f)
  · next hnot => exact lessAllowance_mono hf (hpart.resolve_left hnot) hx hy h

theorem exact_allowance (hf : 0 < f) (hf' : f ≤ 1) {tolerance objective : Float}
    (htolerance : exact tolerance = number f) (hobjective : exact objective = number q) :
    exact (tolerance * Scalar.max objective.abs (Scalar.decimal 1 false 0)) = number
      (allowance f q) := by
  obtain ⟨hshort, hlimit⟩ := isShort_of_exact hobjective
  obtain ⟨-, hone⟩ := isShort_of_exact exact_one
  have hbelow : |allowance f q| < doubleLimit := by
    rw [abs_of_nonneg (allowance_nonneg hf q)]
    exact (allowance_le hf' hshort).trans_lt (max_lt hlimit (by rwa [abs_one] at hone))
  have habs : Scalar.abs (number q) = number |q| := rfl
  rw [exact_mul, exact_max, exact_abs, hobjective, exact_one, htolerance,
    habs, max_number, number_mul]
  exact bounded_eq_number hbelow

theorem exact_cutoff (hf : 0 < f) (hf' : f ≤ 1) (htolerance : exact i.feastol = number f)
    (hi : Scalar.isNaN i.objective = false) :
    exact i.cutoff = roundedCutoff i.integralObjective f (exact i.objective) := by
  obtain ⟨solution, objective, integralObjective, feastol⟩ := i
  have hnan := isNaN_eq_false_iff.mp hi
  unfold cutoff roundedCutoff
  dsimp only at *
  split
  · next hinfinite =>
      have heq : exact objective = plus := (beq_iff_exact.mp hinfinite).1
      rw [heq]
      cases integralObjective <;> rfl
  · next hnot =>
      split
      · change exact (objective - Scalar.decimal 1 false 0 + feastol) = _
        rw [exact_add, exact_sub, exact_one, htolerance]
      · change exact (objective - feastol * Scalar.max objective.abs (Scalar.decimal 1 false 0)) = _
        rw [exact_sub]
        cases hvalue : exact objective with
        | nan => exact absurd hvalue hnan
        | plus => exact absurd (beq_iff_exact.mpr ⟨hvalue, hnan⟩) hnot
        | minus =>
            have hproduct : number f * Scalar.max (Scalar.abs minus) (number 1) = plus :=
              infinityOf_of_pos hf
            rw [exact_mul, exact_max, exact_abs, hvalue, exact_one, htolerance, hproduct]
            rfl
        | number q => rw [exact_allowance hf hf' htolerance hvalue, number_sub, lessAllowance]

/-- A smaller objective value has no larger cutoff. -/
theorem cutoff_mono (hf : 0 < f) (hf' : f ≤ 1) (hpart : i.integralObjective = true ∨ f ≤ 3 / 4)
    (htolerance : exact i.feastol = number f) (hfeastol : j.feastol = i.feastol)
    (hintegral : j.integralObjective = i.integralObjective) (h : j.objective ≤ i.objective) :
    j.cutoff ≤ i.cutoff := by
  obtain ⟨hj, hi⟩ := Scalar.Ordered.number_of_le _ _ h
  rw [le_iff_exact, exact_cutoff hf hf' (hfeastol ▸ htolerance) hj, exact_cutoff hf hf' htolerance
    hi,
    hintegral]
  exact roundedCutoff_mono hf hpart (fun q hq => (isShort_of_exact hq).1)
    (fun q hq => (isShort_of_exact hq).1) (le_iff_exact.mp h)

/-- A tolerance is the double of a number. -/
theorem exists_exact_tolerance {f : Float} (hf : 0 < f) (hf' : f < 1) :
    ∃ q, exact f = number q ∧ 0 < q ∧ q < 1 := by
  have hzero : exact 0 = number 0 := rfl
  have hone : exact 1 = number 1 := exact_one
  have hlow := lt_iff_exact.mp hf
  have hhigh := lt_iff_exact.mp hf'
  rw [hzero] at hlow
  rw [hone] at hhigh
  obtain ⟨q, hq⟩ := exists_number_of_between (Exact.le_of_lt hlow) (Exact.le_of_lt hhigh)
  rw [hq, number_lt] at hlow hhigh
  exact ⟨q, hq, hlow, hhigh⟩

theorem exact_le_three_quarters {f : Float} (h : f ≤ 0.75) (hf : exact f = number q) :
    q ≤ 3 / 4 := by
  have hparts : parts (0.75 : Float) = .finite .positive (3 * 2 ^ 51) (-53) (by norm_num) := rfl
  have hle := le_iff_exact.mp h
  rw [hf, exact, hparts, value_finite, number_le] at hle
  refine hle.trans (le_of_eq ?_)
  norm_num [Float.Model.UnpackedFloat.Sign.apply]

/-- After more submissions the cutoff is no larger. -/
theorem cutoff_submitAll_le {f : Float} (hf : 0 < f) (hf' : f < 1) (hfeastol : i.feastol = f)
    (hpart : i.integralObjective = true ∨ f ≤ 0.75) {submissions : List (Array Float × Float)}
    (hi : Scalar.isNaN i.objective = false)
      (hnumbers : ∀ s ∈ submissions, Scalar.isNaN s.2 = false) :
    (i.submitAll submissions).cutoff ≤ i.cutoff := by
  obtain ⟨q, hq, hpos, hone⟩ := exists_exact_tolerance hf hf'
  obtain ⟨hintegral, htolerance⟩ := submitAll_keeps i submissions
  exact cutoff_mono hpos hone.le (hpart.imp_right fun h => exact_le_three_quarters h hq)
    (hfeastol ▸ hq) htolerance hintegral ((bestOf_submitAll hi hnumbers).least hi).1

end Cutoffs

/-! ### The incumbent of a solve -/

/-- Numbers that are submitted only improve the incumbent. Its objective value and its cutoff never
rise, a call tells exactly whether it lowered the objective value, and in the end the incumbent is
the first submission of the least number, or still empty if no number below infinity was
submitted. -/
theorem submissions_only_improve {f : Float} {integralObjective : Bool}
    {submissions : List (Array Float × Float)} (hf : 0 < f) (hf' : f < 1)
    (hnumbers : ∀ s ∈ submissions, s.2.isNaN = false) :
    let start : Incumbent Float := empty integralObjective f
    let final := start.submitAll submissions
    (∀ before point value after, submissions = before ++ (point, value) :: after →
      let i := start.submitAll before
      (i.tryUpdate point value).1 = true ↔ (i.tryUpdate point value).2.objective < i.objective) ∧
    (∀ before later after, submissions = before ++ later ++ after →
      (start.submitAll (before ++ later)).objective ≤ (start.submitAll before).objective ∧
      (integralObjective = true ∨ f ≤ 0.75 →
        (start.submitAll (before ++ later)).cutoff ≤ (start.submitAll before).cutoff)) ∧
    (∀ s ∈ submissions, final.objective ≤ s.2) ∧
    (∀ s ∈ submissions, s.2 < Scalar.infinity →
      ∃ before point after, submissions = before ++ (point, final.objective) :: after ∧
        final.solution = some point ∧ ∀ s ∈ before, final.objective < s.2) ∧
    ((∀ s ∈ submissions, ¬s.2 < Scalar.infinity) → final = start) := by
  intro start final
  have hstart : Scalar.isNaN start.objective = false := Scalar.number_infinity
  have hfinal : BestOf start submissions final := bestOf_submitAll hstart hnumbers
  refine ⟨?told, ?falls, (hfinal.least hstart).2, fun s => hfinal.exists_first,
    hfinal.eq_of_not_better⟩
  case told =>
    intro before point value after hsplit
    subst hsplit
    obtain ⟨hbefore, hrest⟩ := List.forall_mem_append.mp hnumbers
    have hvalue := (List.forall_mem_cons.mp hrest).1
    exact (tryUpdate_told (isNaN_submitAll hstart hbefore) hvalue point).1
  case falls =>
    intro before later after hsplit
    subst hsplit
    obtain ⟨hearlier, -⟩ := List.forall_mem_append.mp hnumbers
    obtain ⟨hbefore, hlater⟩ := List.forall_mem_append.mp hearlier
    have hi := isNaN_submitAll hstart hbefore
    obtain ⟨hintegral, hfeastol⟩ := submitAll_keeps start before
    rw [submitAll_append]
    exact ⟨((bestOf_submitAll hi hlater).least hi).1,
      fun hpart => cutoff_submitAll_le hf hf' hfeastol (hintegral ▸ hpart) hi hlater⟩

/-- Three points, of which the last is the best. -/
def threePoints : List (Array Float × Float) := [(#[1, 0], 5), (#[0, 1], 5), (#[0, 0], 3)]

theorem third_point_improves : (0 : Float) < 1e-6 ∧ (1e-6 : Float) < 1 ∧
    (∀ s ∈ threePoints, s.2.isNaN = false) ∧
    let start : Incumbent Float := empty false 1e-6
    (start.submitAll threePoints).cutoff ≤ (start.submitAll (threePoints.take 1)).cutoff ∧
    ∃ before point after, threePoints = before ++
      (point, (start.submitAll threePoints).objective) :: after ∧
      (start.submitAll threePoints).solution = some point ∧
      ∀ s ∈ before, (start.submitAll threePoints).objective < s.2 := by
  have hf : (0 : Float) < 1e-6 := by decide +kernel
  have hf' : (1e-6 : Float) < 1 := by decide +kernel
  have hnumbers : ∀ s ∈ threePoints, s.2.isNaN = false := by decide +kernel
  obtain ⟨-, hfalls, -, hfirst, -⟩ :=
    @submissions_only_improve 1e-6 false threePoints hf hf' hnumbers
  refine ⟨hf, hf', hnumbers, ?_, ?_⟩
  · exact (hfalls (threePoints.take 1) (threePoints.drop 1) [] rfl).2 (.inr (by decide +kernel))
  · exact hfirst (#[0, 0], 3) (.tail _ (.tail _ (.head _))) (by decide +kernel)

/-- A value that is no number is neither refused nor better, and afterwards a worse point is
accepted. -/
theorem worse_point_after_nan :
    let start : Incumbent Float := empty false 1e-6
    let i := start.submitAll [(#[1], 3), (#[2], 0 / 0)]
    (start.submitAll [(#[1], 3)]).objective < (i.tryUpdate #[3] 5).2.objective ∧
      (i.tryUpdate #[3] 5).1 = true ∧ ¬(i.tryUpdate #[3] 5).2.objective < i.objective := by
  decide +kernel

/-- With a tolerance above three quarters the rounded allowance may grow by more than the value. -/
theorem larger_cutoff_of_better_point :
    let start : Incumbent Float := empty false 0.79
    let i := start.submitAll [(#[1], 1.2658227848101267)]
    (i.tryUpdate #[2] 1.2658227848101264).1 = true ∧
      i.cutoff < (i.tryUpdate #[2] 1.2658227848101264).2.cutoff := by
  decide +kernel

end Incumbent

end BranchBound
