import BranchBound.Action
import Mathlib.Data.List.Forall2
import Mathlib.Order.Basic

/-!
# Operations that return

A checked operation either stops with a fault or returns a value. Two kinds of statements are made
about it: what holds of the value if there is one, and that there is one. For the former the
equation `x = .ok b` is taken apart along the operation; for the latter `Returns x Q` says that the
operation returns a value which satisfies `Q`. Loops over lists carry an invariant from one element
to the next, in both kinds.
-/

namespace BranchBound

namespace Checked

variable {β γ σ : Type}

/-- The operation returns a value which satisfies `Q`. -/
def Returns (x : Checked β) (Q : β → Prop) : Prop :=
  ∃ b, x = .ok b ∧ Q b

theorem bind_eq_ok {ε : Type} {x : Except ε β} {f : β → Except ε γ} {c : γ} :
    (x >>= f) = .ok c ↔ ∃ b, x = .ok b ∧ f b = .ok c := by
  cases x with
  | error fault => simp [bind, Except.bind]
  | ok b => simp [bind, Except.bind]

theorem pure_eq_ok {ε : Type} {b c : β} : (pure b : Except ε β) = .ok c ↔ b = c := by
  simp [pure, Except.pure]

@[simp] theorem throw_ne_ok {fault : Fault} {c : β} :
    ((throw fault : Checked β) = .ok c) = False := by
  simp [throw, throwThe, MonadExceptOf.throw]

@[simp] theorem throw_bind {fault : Fault} {f : β → Checked γ} :
    ((throw fault : Checked β) >>= f) = throw fault := rfl

@[simp] theorem ok_bind {b : β} {f : β → Checked γ} : ((.ok b : Checked β) >>= f) = f b := rfl

/-- What comes after a choice comes after both of its parts. -/
theorem ite_bind {p : Prop} [Decidable p] (x y : Checked β) (f : β → Checked γ) :
    ((if p then x else y) >>= f) = if p then x >>= f else y >>= f := by
  split <;> rfl

theorem Returns.ok {b : β} {Q : β → Prop} (h : Q b) : Returns (.ok b) Q := ⟨b, rfl, h⟩

theorem Returns.pure {b : β} {Q : β → Prop} (h : Q b) : Returns (pure b) Q := ⟨b, rfl, h⟩

theorem Returns.bind {x : Checked β} {f : β → Checked γ} {P : β → Prop} {Q : γ → Prop}
    (hx : Returns x P) (hf : ∀ b, x = .ok b → P b → Returns (f b) Q) :
    Returns (x >>= f) Q := by
  obtain ⟨b, hb, hP⟩ := hx
  obtain ⟨c, hc, hQ⟩ := hf b hb hP
  exact ⟨c, bind_eq_ok.mpr ⟨b, hb, hc⟩, hQ⟩

/-- Whether an operation returns a value that passes a test. -/
def passes {ε : Type} (x : Except ε β) (test : β → Bool) : Bool :=
  match x with
  | .ok b => test b
  | .error _ => false

theorem passes_eq_true {ε : Type} {x : Except ε β} {test : β → Bool} :
    passes x test = true ↔ ∃ b, x = .ok b ∧ test b = true := by
  cases x with
  | ok b => simp [passes]
  | error fault => simp [passes]

theorem Returns.of_eq_ok {x : Checked β} {Q : β → Prop} {b : β} (h : Returns x Q) (hx : x = .ok b) :
    Q b := by
  obtain ⟨b', hb', hQ⟩ := h
  obtain rfl := Except.ok.inj (hb'.symm.trans hx)
  exact hQ

theorem Returns.mono {x : Checked β} {P Q : β → Prop}
    (hx : Returns x P) (h : ∀ b, x = .ok b → P b → Q b) :
    Returns x Q := by
  obtain ⟨b, hb, hP⟩ := hx
  exact ⟨b, hb, h b hb hP⟩

end Checked

open Checked

section Tables

variable {β : Type}

/-- An entry of a table with one entry replaced is the new one or one of the others. -/
theorem of_getElem?_setIfInBounds {table : Array β} {i j : Nat} {x y : β}
    (h : (table.setIfInBounds i x)[j]? = some y) :
    (i = j ∧ x = y) ∨ (i ≠ j ∧ table[j]? = some y) := by
  rw [Array.getElem?_setIfInBounds] at h
  split at h
  · next heq =>
      split at h
      · exact .inl ⟨heq, Option.some.inj h⟩
      · cases h
  · next hne => exact .inr ⟨hne, h⟩

theorem fetch_eq_ok {table : Array β} {position : Nat} {entry : β} :
    fetch table position = .ok entry ↔ table[position]? = some entry := by
  unfold fetch
  cases table[position]? with
  | none => simp
  | some found => simp

theorem fetch_returns {table : Array β} {position : Nat} (h : position < table.size) :
    Returns (fetch table position) fun entry => table[position]? = some entry :=
  ⟨table[position], fetch_eq_ok.mpr (Array.getElem?_eq_getElem h), Array.getElem?_eq_getElem h⟩

theorem count_eq_ok {bits n m k : Nat} (h : count bits n m = .ok k) : k = n + m := by
  unfold count at h
  split at h
  · exact (Except.ok.inj h).symm
  · cases h

theorem uncount_eq_ok {n m k : Nat} : uncount n m = .ok k ↔ m ≤ n ∧ n - m = k := by
  unfold uncount
  split
  · next h => simp [h]
  · next h => simp [h]

theorem store_eq_ok {table table' : Array β} {position : Nat} {entry : β} :
    store table position entry = .ok table' ↔
      position < table.size ∧ table.setIfInBounds position entry = table' := by
  unfold store
  by_cases h : position < table.size
  · simp [h, Array.setIfInBounds]
  · simp [h]

theorem store_returns {table : Array β} {position : Nat} (entry : β)
    (h : position < table.size) :
    Returns (store table position entry) fun table' =>
      table' = table.setIfInBounds position entry :=
  ⟨_, store_eq_ok.mpr ⟨h, rfl⟩, rfl⟩

theorem update_eq_ok {table table' : Array β} {position : Nat} {f : β → Checked β} :
    update table position f = .ok table' ↔
      ∃ entry entry', table[position]? = some entry ∧ f entry = .ok entry' ∧
        table.setIfInBounds position entry' = table' := by
  unfold update
  simp only [bind_eq_ok, fetch_eq_ok, store_eq_ok]
  constructor
  · rintro ⟨entry, hfetch, entry', hf, -, rfl⟩
    exact ⟨entry, entry', hfetch, hf, rfl⟩
  · rintro ⟨entry, entry', hfetch, hf, rfl⟩
    have hlt : position < table.size := (Array.getElem?_eq_some_iff.mp hfetch).1
    exact ⟨entry, hfetch, entry', hf, hlt, rfl⟩

/-- Replacing an entry by a function of it that cannot stop. -/
theorem update_ok_eq_ok {table table' : Array β} {position : Nat} {f : β → β} :
    (update table position fun entry => .ok (f entry)) = .ok table' ↔
      position < table.size ∧ table.modify position f = table' := by
  rw [update_eq_ok]
  have hmodify : ∀ entry, table[position]? = some entry →
      table.setIfInBounds position (f entry) = table.modify position f := by
    intro entry hentry
    apply Array.ext_getElem?
    intro i
    rw [Array.getElem?_setIfInBounds, Array.getElem?_modify]
    by_cases hi : position = i
    · subst hi
      rw [hentry]
      simp [(Array.getElem?_eq_some_iff.mp hentry).1]
    · simp [hi]
  constructor
  · rintro ⟨entry, entry', hentry, hf, rfl⟩
    cases hf
    exact ⟨(Array.getElem?_eq_some_iff.mp hentry).1, (hmodify entry hentry).symm⟩
  · rintro ⟨hlt, rfl⟩
    have hentry := Array.getElem?_eq_getElem hlt
    exact ⟨_, _, hentry, rfl, hmodify _ hentry⟩

/-- Updating a table once for every element of a list: all positions are in range, and every entry
is changed by the elements for its position, in order. -/
theorem foldlM_update_eq_ok {γ : Type} {table table' : Array β} {xs : List γ} {position : γ → Nat}
    {f : γ → β → β}
    (h : xs.foldlM (fun table x => update table (position x) fun entry => .ok (f x entry)) table =
      .ok table') :
    table'.size = table.size ∧ (∀ x ∈ xs, position x < table.size) ∧
      ∀ i, table'[i]? = table[i]?.map fun entry =>
        (xs.filter fun x => position x = i).foldl (fun entry x => f x entry) entry := by
  induction xs generalizing table with
  | nil =>
      obtain rfl := pure_eq_ok.mp h
      exact ⟨rfl, fun x hx => absurd hx List.not_mem_nil, fun i => by simp⟩
  | cons x xs ih =>
      rw [List.foldlM_cons, bind_eq_ok] at h
      obtain ⟨next, hnext, hxs⟩ := h
      obtain ⟨hlt, rfl⟩ := update_ok_eq_ok.mp hnext
      obtain ⟨hsize, hpositions, hentries⟩ := ih hxs
      rw [Array.size_modify] at hsize hpositions
      refine ⟨hsize, fun y hy => ?_, fun i => ?_⟩
      · rcases List.mem_cons.mp hy with rfl | hy
        · exact hlt
        · exact hpositions y hy
      · rw [hentries, Array.getElem?_modify]
        by_cases hi : position x = i
        · subst hi
          cases table[position x]? with
          | none => simp
          | some entry => simp
        · simp [hi]

theorem foldlM_update_returns {γ : Type} {table : Array β} {xs : List γ} {position : γ → Nat}
    {f : γ → β → β} (h : ∀ x ∈ xs, position x < table.size) :
    Returns (xs.foldlM (fun table x => update table (position x) fun entry => .ok (f x entry))
      table) fun _ => True := by
  induction xs generalizing table with
  | nil => exact Returns.pure trivial
  | cons x xs ih =>
      rw [List.foldlM_cons]
      have hnext : (update table (position x) fun entry => .ok (f x entry)) =
          .ok (table.modify (position x) (f x)) :=
        update_ok_eq_ok.mpr ⟨h x (List.mem_cons_self ..), rfl⟩
      rw [hnext, ok_bind]
      refine ih fun y hy => ?_
      rw [Array.size_modify]
      exact h y (List.mem_cons_of_mem _ hy)

end Tables

section Loops

variable {β γ σ : Type}

/-- An invariant which every step keeps holds after a loop that returns. -/
theorem foldlM_keeps {f : σ → β → Checked σ} {P : σ → Prop} {xs : List β} {s s' : σ}
    (hstep : ∀ s x s', x ∈ xs → P s → f s x = .ok s' → P s')
    (h : xs.foldlM f s = .ok s') (hs : P s) :
    P s' := by
  induction xs generalizing s with
  | nil =>
      rw [List.foldlM_nil, pure_eq_ok] at h
      exact h ▸ hs
  | cons x xs ih =>
      rw [List.foldlM_cons, bind_eq_ok] at h
      obtain ⟨t, hx, hxs⟩ := h
      have ht : P t := hstep s x t (List.mem_cons_self ..) hs hx
      exact ih (fun s y s' hy => hstep s y s' (List.mem_cons_of_mem _ hy)) hxs ht

/-- An invariant that counts the steps of a loop over a range. -/
theorem foldlM_range_keeps {f : σ → Nat → Checked σ} {P : Nat → σ → Prop} {n : Nat} {s s' : σ}
    (hstep : ∀ i s s', i < n → P i s → f s i = .ok s' → P (i + 1) s')
    (h : (List.range n).foldlM f s = .ok s') (hs : P 0 s) :
    P n s' := by
  induction n generalizing s' with
  | zero =>
      obtain rfl := pure_eq_ok.mp h
      exact hs
  | succ n ih =>
      rw [List.range_succ, List.foldlM_append, bind_eq_ok] at h
      obtain ⟨t, ht, hlast⟩ := h
      rw [List.foldlM_cons, bind_eq_ok] at hlast
      obtain ⟨u, hu, hlast⟩ := hlast
      obtain rfl := pure_eq_ok.mp hlast
      exact hstep n t u (Nat.lt_succ_self n)
        (ih (fun i s s' hi => hstep i s s' (Nat.lt_succ_of_lt hi)) ht) hu

/-- A loop returns if every step does under an invariant that it keeps. -/
theorem foldlM_returns {f : σ → β → Checked σ} {P : σ → Prop} {xs : List β} {s : σ}
    (hstep : ∀ s x, x ∈ xs → P s → Returns (f s x) P) (hs : P s) :
    Returns (xs.foldlM f s) P := by
  induction xs generalizing s with
  | nil => exact Returns.pure hs
  | cons x xs ih =>
      rw [List.foldlM_cons]
      refine (hstep s x (List.mem_cons_self ..) hs).bind fun t _ ht => ?_
      exact ih (fun s y hy => hstep s y (List.mem_cons_of_mem _ hy)) ht

/-- A loop over a range returns if every step does under an invariant that counts the steps. -/
theorem foldlM_range_returns {f : σ → Nat → Checked σ} {P : Nat → σ → Prop} {n : Nat} {s : σ}
    (hstep : ∀ i s, i < n → P i s → Returns (f s i) (P (i + 1))) (hs : P 0 s) :
    Returns ((List.range n).foldlM f s) (P n) := by
  induction n with
  | zero => exact Returns.pure hs
  | succ n ih =>
      rw [List.range_succ, List.foldlM_append]
      refine (ih fun i s hi => hstep i s (Nat.lt_succ_of_lt hi)).bind fun t _ ht => ?_
      rw [List.foldlM_cons]
      exact (hstep n t (Nat.lt_succ_self n) ht).bind fun u _ hu => Returns.pure hu

/-- The results of an operation on every element of a list. -/
theorem mapM_eq_ok {f : β → Checked γ} {xs : List β} {ys : List γ} :
    xs.mapM f = .ok ys ↔ List.Forall₂ (fun x y => f x = .ok y) xs ys := by
  induction xs generalizing ys with
  | nil =>
      rw [List.mapM_nil, pure_eq_ok, List.forall₂_nil_left_iff]
      exact eq_comm
  | cons x xs ih =>
      simp only [List.mapM_cons, bind_eq_ok, pure_eq_ok]
      constructor
      · rintro ⟨y, hy, rest, hrest, rfl⟩
        exact .cons hy (ih.mp hrest)
      · intro h
        cases h with
        | cons hy hrest => exact ⟨_, hy, _, ih.mpr hrest, rfl⟩

/-- The results of an operation are those of elements of the list. -/
theorem mem_mapM {f : β → Checked γ} {xs : List β} {ys : List γ} {y : γ}
    (h : xs.mapM f = .ok ys) (hy : y ∈ ys) :
    ∃ x ∈ xs, f x = .ok y := by
  have hforall := mapM_eq_ok.mp h
  clear h
  induction hforall with
  | nil => cases hy
  | @cons x z xs zs hx _ ih =>
      rcases List.mem_cons.mp hy with rfl | hy
      · exact ⟨x, List.mem_cons_self .., hx⟩
      · obtain ⟨x', hx', hfx'⟩ := ih hy
        exact ⟨x', List.mem_cons_of_mem _ hx', hfx'⟩

theorem mapM_returns {f : β → Checked γ} {xs : List β} {Q : γ → Prop}
    (h : ∀ x ∈ xs, Returns (f x) Q) :
    Returns (xs.mapM f) fun ys => ∀ y ∈ ys, Q y := by
  induction xs with
  | nil => exact Returns.pure fun y hy => absurd hy List.not_mem_nil
  | cons x xs ih =>
      rw [List.mapM_cons]
      refine (h x (List.mem_cons_self ..)).bind fun y _ hy => ?_
      refine (ih fun z hz => h z (List.mem_cons_of_mem _ hz)).bind fun ys _ hys => ?_
      refine Returns.pure fun z hz => ?_
      rcases List.mem_cons.mp hz with rfl | hz
      · exact hy
      · exact hys z hz

theorem mapM_returns_forall₂ {f : β → Checked γ} {xs : List β} {R : β → γ → Prop}
    (h : ∀ x ∈ xs, Returns (f x) (R x)) :
    Returns (xs.mapM f) (List.Forall₂ R xs) := by
  induction xs with
  | nil => exact Returns.pure .nil
  | cons x xs ih =>
      rw [List.mapM_cons]
      refine (h x (List.mem_cons_self ..)).bind fun y _ hy => ?_
      refine (ih fun z hz => h z (List.mem_cons_of_mem _ hz)).bind fun ys _ hys => ?_
      exact Returns.pure (.cons hy hys)

/-- A test that accepts every entry accepts each of them. -/
theorem allHold_eq_ok {test : β → Checked Bool} {xs : List β} (h : allHold test xs = .ok true) :
    ∀ x ∈ xs, test x = .ok true := by
  induction xs with
  | nil => exact fun x hx => absurd hx List.not_mem_nil
  | cons y ys ih =>
      simp only [allHold, bind_eq_ok] at h
      obtain ⟨holds, hholds, h⟩ := h
      cases holds with
      | false => cases h
      | true =>
          intro x hx
          rcases List.mem_cons.mp hx with rfl | hx
          · exact hholds
          · exact ih h x hx

/-- A test of a list whose every question is answered. -/
theorem allHold_returns {test : β → Checked Bool} {holds : β → Prop} {xs : List β}
    (h : ∀ x ∈ xs, Returns (test x) fun answer => answer = true ↔ holds x) :
    Returns (allHold test xs) fun answer => answer = true ↔ ∀ x ∈ xs, holds x := by
  induction xs with
  | nil => exact .ok (by simp)
  | cons x xs ih =>
      have hrest := ih fun y hy => h y (List.mem_cons_of_mem _ hy)
      refine (h x (List.mem_cons_self ..)).bind fun answer _ hanswer => ?_
      cases answer with
      | true => exact hrest.mono fun b _ hb => by simp [hb, hanswer.mp rfl]
      | false =>
          have hfails : ¬holds x := fun hx => Bool.false_ne_true (hanswer.mpr hx)
          exact .pure (by simp [hfails])

/-- A test that accepts some entry accepts one of them. -/
theorem someHolds_eq_ok {test : β → Checked Bool} {xs : List β} (h : someHolds test xs = .ok true) :
    ∃ x ∈ xs, test x = .ok true := by
  induction xs with
  | nil => cases h
  | cons y ys ih =>
      simp only [someHolds, bind_eq_ok] at h
      obtain ⟨holds, hholds, h⟩ := h
      cases holds with
      | true => exact ⟨y, List.mem_cons_self .., hholds⟩
      | false =>
          obtain ⟨x, hx, htest⟩ := ih h
          exact ⟨x, List.mem_cons_of_mem _ hx, htest⟩

/-- A search of a list whose every question is answered. -/
theorem someHolds_returns {test : β → Checked Bool} {holds : β → Prop} {xs : List β}
    (h : ∀ x ∈ xs, Returns (test x) fun answer => answer = true ↔ holds x) :
    Returns (someHolds test xs) fun answer => answer = true ↔ ∃ x ∈ xs, holds x := by
  induction xs with
  | nil => exact .ok (by simp)
  | cons x xs ih =>
      have hrest := ih fun y hy => h y (List.mem_cons_of_mem _ hy)
      refine (h x (List.mem_cons_self ..)).bind fun answer _ hanswer => ?_
      cases answer with
      | true => exact .pure (by simp [hanswer.mp rfl])
      | false =>
          have hfails : ¬holds x := fun hx => Bool.false_ne_true (hanswer.mpr hx)
          exact hrest.mono fun b _ hb => by simp [hb, hfails]

/-- What is kept are elements of the list which the test accepts. -/
theorem mem_keepIf {test : β → Checked Bool} {xs kept : List β} {x : β}
    (h : keepIf test xs = .ok kept) (hx : x ∈ kept) :
    x ∈ xs ∧ test x = .ok true := by
  induction xs generalizing kept with
  | nil =>
      cases h
      cases hx
  | cons y ys ih =>
      simp only [keepIf, bind_eq_ok, pure_eq_ok] at h
      obtain ⟨keep, hkeep, rest, hrest, rfl⟩ := h
      cases keep with
      | false =>
          obtain ⟨hmem, htest⟩ := ih hrest hx
          exact ⟨List.mem_cons_of_mem _ hmem, htest⟩
      | true =>
          rcases List.mem_cons.mp hx with rfl | hx
          · exact ⟨List.mem_cons_self .., hkeep⟩
          · obtain ⟨hmem, htest⟩ := ih hrest hx
            exact ⟨List.mem_cons_of_mem _ hmem, htest⟩

/-- What is not kept, the test refuses. -/
theorem mem_keepIf_or {test : β → Checked Bool} {xs kept : List β} {x : β}
    (h : keepIf test xs = .ok kept) (hx : x ∈ xs) : x ∈ kept ∨ test x = .ok false := by
  induction xs generalizing kept with
  | nil => cases hx
  | cons y ys ih =>
      simp only [keepIf, bind_eq_ok, pure_eq_ok] at h
      obtain ⟨keep, hkeep, rest, hrest, rfl⟩ := h
      rcases List.mem_cons.mp hx with rfl | hx
      · cases keep with
        | false => exact .inr hkeep
        | true => exact .inl (List.mem_cons_self ..)
      · refine (ih hrest hx).imp_left fun hkept => ?_
        cases keep with
        | false => exact hkept
        | true => exact List.mem_cons_of_mem _ hkept

/-- The values of a partial map are the images of elements of the list. -/
theorem mem_collect {f : β → Checked (Option γ)} {xs : List β} {ys : List γ} {y : γ}
    (h : collect f xs = .ok ys) (hy : y ∈ ys) :
    ∃ x ∈ xs, f x = .ok (some y) := by
  induction xs generalizing ys with
  | nil =>
      cases h
      cases hy
  | cons x xs ih =>
      simp only [collect, bind_eq_ok, pure_eq_ok] at h
      obtain ⟨image, himage, rest, hrest, rfl⟩ := h
      cases image with
      | none =>
          obtain ⟨x', hx', hfx'⟩ := ih hrest hy
          exact ⟨x', List.mem_cons_of_mem _ hx', hfx'⟩
      | some z =>
          rcases List.mem_cons.mp hy with rfl | hy
          · exact ⟨x, List.mem_cons_self .., himage⟩
          · obtain ⟨x', hx', hfx'⟩ := ih hrest hy
            exact ⟨x', List.mem_cons_of_mem _ hx', hfx'⟩

/-- A partial map without values has none for any element. -/
theorem collect_eq_nil {f : β → Checked (Option γ)} {xs : List β} (h : collect f xs = .ok [])
    {x : β}
    (hx : x ∈ xs) : f x = .ok none := by
  induction xs with
  | nil => cases hx
  | cons head rest ih =>
      simp only [collect, bind_eq_ok, pure_eq_ok] at h
      obtain ⟨image, himage, others, hothers, hend⟩ := h
      cases image with
      | some y => cases hend
      | none =>
          obtain rfl : others = [] := hend
          rcases List.mem_cons.mp hx with rfl | hx
          · exact himage
          · exact ih hothers hx

theorem collect_returns {f : β → Checked (Option γ)} {xs : List β}
    (h : ∀ x ∈ xs, Returns (f x) fun _ => True) :
    Returns (collect f xs) fun _ => True := by
  induction xs with
  | nil => exact Returns.ok trivial
  | cons x xs ih =>
      refine (h x (List.mem_cons_self ..)).bind fun image _ _ => ?_
      refine (ih fun y hy => h y (List.mem_cons_of_mem _ hy)).bind fun rest _ _ => ?_
      exact Returns.pure trivial

end Loops

namespace Action

variable {σ τ β γ : Type}

@[simp] theorem perform_pure (b : β) (s : σ) :
    (pure b : Action σ β).perform s = (.ok b, s) := rfl

theorem perform_bind (x : Action σ β) (f : β → Action σ γ) (s : σ) :
    (x >>= f).perform s =
      match x.perform s with
      | (.ok b, after) => (f b).perform after
      | (.error fault, after) => (.error fault, after) := by
  simp only [perform, ExceptT.run_bind, StateT.run_bind]
  rcases hx : (ExceptT.run x).run s with ⟨outcome, after⟩
  cases outcome with
  | ok b => rfl
  | error fault => rfl

@[simp] theorem perform_get (s : σ) : (get : Action σ σ).perform s = (.ok s, s) := rfl

@[simp] theorem perform_set (s t : σ) : (set t : Action σ Unit).perform s = (.ok (), t) := rfl

@[simp] theorem perform_modify (f : σ → σ) (s : σ) :
    (modify f : Action σ Unit).perform s = (.ok (), f s) := rfl

@[simp] theorem perform_throw (fault : Fault) (s : σ) :
    (throw fault : Action σ β).perform s = (.error fault, s) := rfl

@[simp] theorem perform_lift (x : Checked β) (s : σ) :
    (liftM x : Action σ β).perform s = (x, s) := rfl

/-- An action made of two parts returns if both do, one after the other. -/
theorem perform_bind_eq_ok {x : Action σ β} {f : β → Action σ γ} {s t : σ} {c : γ} :
    (x >>= f).perform s = (.ok c, t) ↔
      ∃ b u, x.perform s = (.ok b, u) ∧ (f b).perform u = (.ok c, t) := by
  rw [perform_bind]
  rcases x.perform s with ⟨outcome, u⟩
  cases outcome with
  | ok b => simp
  | error fault => simp

/-- An action made of two parts stops with a fault if one of them does. -/
theorem perform_bind_eq_error {x : Action σ β} {f : β → Action σ γ} {s t : σ} {fault : Fault} :
    (x >>= f).perform s = (.error fault, t) ↔ x.perform s = (.error fault, t) ∨
      ∃ b u, x.perform s = (.ok b, u) ∧ (f b).perform u = (.error fault, t) := by
  rw [perform_bind]
  rcases x.perform s with ⟨outcome, u⟩
  cases outcome with
  | ok b => simp
  | error fault => simp

/-- Two actions that begin alike are alike, if they go on alike wherever their beginning ends. -/
theorem perform_bind_congr {x : Action σ β} {f g : β → Action σ γ} {s : σ}
    (h : ∀ b t, x.perform s = (.ok b, t) → (f b).perform t = (g b).perform t) :
    (x >>= f).perform s = (x >>= g).perform s := by
  rw [perform_bind, perform_bind]
  rcases hx : x.perform s with ⟨outcome, t⟩
  cases outcome with
  | ok b => exact h b t hx
  | error fault => rfl

/-- What comes after an action that is only taken under a condition comes after both cases. -/
theorem ite_seq {p : Prop} [Decidable p] (x : Action σ Unit) (rest : Action σ β) :
    (if p then x >>= fun _ => rest else rest) = (if p then x else pure ()) >>= fun _ => rest := by
  split
  · rfl
  · rw [pure_bind]

theorem perform_change_eq_ok {f : σ → Checked σ} {s t : σ} {b : Unit} :
    (change f).perform s = (.ok b, t) ↔ f s = .ok t := by
  unfold change
  simp only [perform_bind_eq_ok, perform_get, perform_lift, perform_set, Prod.mk.injEq,
    Except.ok.injEq, true_and]
  constructor
  · rintro ⟨s', u, ⟨rfl, rfl⟩, t', u', ⟨ht, rfl⟩, rfl⟩
    exact ht
  · intro h
    exact ⟨s, s, ⟨rfl, rfl⟩, t, s, ⟨h, rfl⟩, rfl⟩

theorem perform_within {part : σ → τ} {put : σ → τ → σ} (x : Action τ β) (s : σ) :
    (within part put x).perform s =
      ((x.perform (part s)).1, put s (x.perform (part s)).2) := rfl

theorem perform_within_eq_ok {part : σ → τ} {put : σ → τ → σ} {x : Action τ β} {s t : σ} {b : β} :
    (within part put x).perform s = (.ok b, t) ↔
      ∃ u, x.perform (part s) = (.ok b, u) ∧ put s u = t := by
  rw [perform_within, Prod.mk.injEq]
  constructor
  · rintro ⟨h, rfl⟩
    exact ⟨_, Prod.ext h rfl, rfl⟩
  · rintro ⟨u, h, rfl⟩
    rw [h]
    exact ⟨rfl, rfl⟩

/-- Changes made for every element of a list are a loop over the list. -/
theorem perform_forM_change_eq_ok {f : β → σ → Checked σ} {xs : List β} {s t : σ} {b : Unit} :
    (xs.forM fun x => change (f x)).perform s = (.ok b, t) ↔
      xs.foldlM (fun s x => f x s) s = .ok t := by
  induction xs generalizing s with
  | nil =>
      change ((.ok (), s) : Checked Unit × σ) = (.ok b, t) ↔ _
      rw [List.foldlM_nil, pure_eq_ok, Prod.mk.injEq]
      exact ⟨fun h => h.2, fun h => ⟨rfl, h⟩⟩
  | cons x xs ih =>
      change ((change (f x)) >>= fun _ => xs.forM fun x => change (f x)).perform s = (.ok b, t) ↔ _
      rw [perform_bind_eq_ok, List.foldlM_cons, bind_eq_ok]
      constructor
      · rintro ⟨_, u, hu, hxs⟩
        exact ⟨u, perform_change_eq_ok.mp hu, ih.mp hxs⟩
      · rintro ⟨u, hu, hxs⟩
        exact ⟨(), u, perform_change_eq_ok.mpr hu, ih.mpr hxs⟩

theorem finish_eq_ok {x : Action σ β} {s t : σ} {b : β} :
    x.finish s = .ok (b, t) ↔ x.perform s = (.ok b, t) := by
  unfold finish
  rcases x.perform s with ⟨outcome, u⟩
  cases outcome with
  | ok b => simp
  | error fault => simp

end Action

end BranchBound
