import Mathlib

/-!
# Fallible Computations

How computations that may fail compose, stated once for `Except`. The
equations run a computation whose first part is known; the inversion takes a
finished computation apart. A loop over a list is `foldlM`: what every
successful step preserves holds of the result of a successful loop. A list of
computations is `mapM`, and its results are those of its elements.

## Theorems

* `Fallible.ok_bind`, `Fallible.error_bind`: Running a known first part.
* `Fallible.bind_eq_ok`, `Fallible.guard_eq_ok`, `Fallible.passed_eq_ok`: Taking
  a finished computation apart.
* `Fallible.foldlM_invariant`, `Fallible.foldlM_establishes`: What the steps of
  a loop preserve, and what each makes true of its element.
* `Fallible.mapM_eq_ok`, `Fallible.mem_of_mapM`: The results of a list of
  computations.
* `Fallible.foldlM_of_parts`: A loop of loops is one loop.
-/

namespace Amiss

open List

namespace Fallible

variable {ε α β σ : Type}

@[simp] theorem ok_bind (a : α) (f : α → Except ε β) : (Except.ok a >>= f) = f a := rfl

@[simp] theorem error_bind (e : ε) (f : α → Except ε β) :
    ((Except.error e : Except ε α) >>= f) = .error e := rfl

@[simp] theorem pure_eq_ok (a : α) : (pure a : Except ε α) = .ok a := rfl

@[simp] theorem throw_eq_error (e : ε) : (throw e : Except ε α) = .error e := rfl

variable {f : α → Except ε β}

/-- A finished computation, taken apart at its first step. -/
theorem bind_eq_ok {x : Except ε α} {b : β} : x >>= f = .ok b ↔ ∃ a, x = .ok a ∧ f a = .ok b := by
  cases x with
  | error e => simp [error_bind]
  | ok a => simp [ok_bind]

/-- A computation has no error that none of its steps has. -/
theorem bind_ne_error {x : Except ε α} {e : ε} (hx : x ≠ .error e) (hf : ∀ a, f a ≠ .error e) :
    x >>= f ≠ .error e := by
  cases x with
  | error => simpa using hx
  | ok a => exact hf a

/-- A computation of which something is known has finished. -/
theorem toOption_map_eq_some {x : Except ε α} {f : α → β} {b : β} :
    x.toOption.map f = some b ↔ ∃ a, x = .ok a ∧ f a = b := by
  cases x with
  | error e => simp [Except.toOption]
  | ok a => simp [Except.toOption]

/-- A finished computation has passed its guard. -/
theorem guard_eq_ok {c : Prop} [Decidable c] {e : ε} {x : Except ε α} {a : α} :
    (if c then .error e else x) = .ok a ↔ ¬ c ∧ x = .ok a := by
  split
  next h => simp [h]
  next h => simp [h]

/-- A value that was let through has passed its check. -/
theorem passed_eq_ok {c : Prop} [Decidable c] {e : ε} {a b : α} :
    (if c then .ok a else .error e) = Except.ok b ↔ a = b ∧ c := by
  split
  next h => simp [h]
  next h => simp [h]

/-- What every successful step preserves holds after a successful loop. -/
theorem foldlM_invariant {step : σ → α → Except ε σ} {Inv : σ → Prop} {xs : List α} {s t : σ}
    (hstep : ∀ x ∈ xs, ∀ s t, Inv s → step s x = .ok t → Inv t) (hinit : Inv s)
    (hrun : xs.foldlM step s = .ok t) : Inv t := by
  induction xs generalizing s with
  | nil =>
    rw [foldlM_nil, pure_eq_ok, Except.ok.injEq] at hrun
    exact hrun ▸ hinit
  | cons x xs ih =>
    rw [foldlM_cons, bind_eq_ok] at hrun
    rcases hrun with ⟨u, hu, hrest⟩
    exact ih (fun y hy => hstep y (mem_cons_of_mem x hy))
      (hstep x mem_cons_self s u hinit hu) hrest

variable {xs : List α}

/-- What the step of an element makes true of it and later steps keep is true
    of every element after a successful loop. -/
theorem foldlM_establishes {step : σ → α → Except ε σ} {Done : σ → α → Prop} {s t : σ}
    (hstep : ∀ x ∈ xs, ∀ s t, step s x = .ok t → Done t x)
    (hkeep : ∀ x ∈ xs, ∀ y s t, Done s y → step s x = .ok t → Done t y)
    (hrun : xs.foldlM step s = .ok t) : ∀ x ∈ xs, Done t x := by
  induction xs generalizing s with
  | nil => exact fun x hx => absurd hx not_mem_nil
  | cons x xs ih =>
    rw [foldlM_cons, bind_eq_ok] at hrun
    rcases hrun with ⟨u, hu, hrest⟩
    have hstep' : ∀ y ∈ xs, ∀ s t, step s y = .ok t → Done t y :=
      fun y hy => hstep y (mem_cons_of_mem x hy)
    have hkeep' : ∀ y ∈ xs, ∀ z s t, Done s z → step s y = .ok t → Done t z :=
      fun y hy => hkeep y (mem_cons_of_mem x hy)
    intro y hy
    rcases mem_cons.mp hy with rfl | hy
    · exact @foldlM_invariant _ _ _ step (Done · y) _ _ _ (fun z hz => hkeep' z hz y)
        (hstep y mem_cons_self s u hu) hrest
    · exact ih hstep' hkeep' hrest y hy

/-- A loop whose body is a loop is one loop over the joined lists. -/
theorem foldlM_of_parts {step : σ → β → Except ε σ} {body : σ → α → Except ε σ}
    {parts : α → List β} (hbody : ∀ s x, body s x = (parts x).foldlM step s) (xs : List α)
    (s : σ) : xs.foldlM body s = (xs.flatMap parts).foldlM step s := by
  induction xs generalizing s with
  | nil => rfl
  | cons x xs ih =>
    rw [flatMap_cons, foldlM_append, foldlM_cons, hbody]
    exact bind_congr (fun t => ih t)

variable {ys : List β}

/-- A list of computations succeeds when each of them does, with their results
    in order. -/
theorem mapM_eq_ok : xs.mapM f = .ok ys ↔ List.Forall₂ (fun x y => f x = .ok y) xs ys := by
  induction xs generalizing ys with
  | nil =>
    rw [mapM_nil, pure_eq_ok, Except.ok.injEq, forall₂_nil_left_iff, eq_comm]
  | cons x xs ih =>
    rw [mapM_cons, bind_eq_ok, forall₂_cons_left_iff]
    simp only [bind_eq_ok, ih, pure_eq_ok, Except.ok.injEq]
    constructor
    · rintro ⟨y, hy, zs, hzs, rfl⟩
      exact ⟨y, zs, hy, hzs, rfl⟩
    · rintro ⟨y, zs, hy, hzs, rfl⟩
      exact ⟨y, hy, zs, hzs, rfl⟩

/-- The results of a list of computations are those of its elements. -/
theorem mem_of_mapM (hrun : xs.mapM f = .ok ys) (y : β) : y ∈ ys ↔ ∃ x ∈ xs, f x = .ok y := by
  rw [mapM_eq_ok] at hrun
  induction hrun with
  | nil => simp
  | @cons x z xs ys hxz _ ih =>
    simp [ih, hxz, eq_comm (a := y)]

/-- A successful list of computations reached each of its elements. -/
theorem exists_of_mapM (hrun : xs.mapM f = .ok ys) {x : α} (hx : x ∈ xs) : ∃ y, f x = .ok y := by
  rw [mapM_eq_ok] at hrun
  induction hrun with
  | nil => cases hx
  | @cons z y xs ys hzy _ ih =>
    rcases mem_cons.mp hx with rfl | h
    · exact ⟨y, hzy⟩
    · exact ih h

/-- A list of computations that each succeed succeeds. -/
theorem mapM_runs (h : ∀ x ∈ xs, ∃ y, f x = .ok y) : ∃ ys, xs.mapM f = .ok ys := by
  induction xs with
  | nil => exact ⟨[], rfl⟩
  | cons x xs ih =>
    rcases h x mem_cons_self with ⟨y, hy⟩
    rcases ih (fun z hz => h z (mem_cons_of_mem x hz)) with ⟨ys, hys⟩
    refine ⟨y :: ys, ?_⟩
    rw [mapM_cons, hy, ok_bind, hys, ok_bind]
    rfl

end Fallible

end Amiss
