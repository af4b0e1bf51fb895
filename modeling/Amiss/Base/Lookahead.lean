import Mathlib.Data.List.Basic

/-!
# Reading with One Symbol in Sight

A machine that reads a list symbol by symbol and sees, at each one, the symbol
that follows. A part of the list is read with the symbol after the part as its
`ahead`, so that reading a part and then the rest is reading the whole.

Two machines in lockstep are compared by a relation their steps keep. A step
may need more than the relation; `Along` says that every step of a reading
meets such a demand.

## Main definitions

* `scan`: The state after a list.
* `Along`: Every step of the reading meets a demand.
* `outputs`: What the steps of the reading emit.

## Theorems

* `scan_append`: A reading in two parts.
* `scan_rel`: The lockstep of two readings.
* `outputs_rel`: Readings in lockstep emit the same.
* `latest_scan`: A register that only an emitting step writes.
-/

namespace Amiss

variable {σ τ α β : Type}

/-- The state after a list, where `ahead` follows the list. -/
def scan (step : σ → α → Option α → σ) (s : σ) : List α → Option α → σ
  | [], _ => s
  | a :: rest, ahead => scan step (step s a (rest.head?.or ahead)) rest ahead

/-- Every step of the reading meets the demand. -/
def Along (step : σ → α → Option α → σ) (demand : σ → α → Option α → Prop) (s : σ) :
    List α → Option α → Prop
  | [], _ => True
  | a :: rest, ahead =>
    demand s a (rest.head?.or ahead) ∧ Along step demand (step s a (rest.head?.or ahead)) rest ahead

instance Along.decidable (step : σ → α → Option α → σ) (demand : σ → α → Option α → Prop)
    [∀ s a next, Decidable (demand s a next)] (s : σ) :
    (bytes : List α) → (ahead : Option α) → Decidable (Along step demand s bytes ahead)
  | [], _ => isTrue trivial
  | a :: rest, ahead =>
    have := Along.decidable step demand (step s a (rest.head?.or ahead)) rest ahead
    inferInstanceAs (Decidable (_ ∧ _))

/-- What the steps of the reading emit, in order. -/
def outputs (step : σ → α → Option α → σ) (emit : σ → α → Option α → Option β) (s : σ) :
    List α → Option α → List β
  | [], _ => []
  | a :: rest, ahead =>
    (emit s a (rest.head?.or ahead)).toList ++
      outputs step emit (step s a (rest.head?.or ahead)) rest ahead

section

variable {step : σ → α → Option α → σ} {step' : τ → α → Option α → τ}

theorem scan_append (left right : List α) (ahead : Option α) (s : σ) :
    scan step s (left ++ right) ahead =
      scan step (scan step s left (right.head?.or ahead)) right ahead := by
  induction left generalizing s with
  | nil => rfl
  | cons a rest ih =>
    simp [scan, ih, Option.or_assoc]

theorem scan_concat (left : List α) (a : α) (ahead : Option α) (s : σ) :
    scan step s (left ++ [a]) ahead = step (scan step s left (some a)) a ahead := by
  rw [scan_append]
  rfl

/-- A demand every step meets. -/
theorem Along.of_forall {demand : σ → α → Option α → Prop} (h : ∀ s a next, demand s a next)
    (bytes : List α) (ahead : Option α) (s : σ) : Along step demand s bytes ahead := by
  induction bytes generalizing s with
  | nil => trivial
  | cons a rest ih => exact ⟨h s a _, ih _⟩

variable {bytes : List α} {ahead : Option α} {s : σ}

/-- A demand that does not look ahead. -/
theorem Along.congr_ahead {demand : σ → α → Option α → Prop}
    (hdemand : ∀ s a next next', demand s a next → demand s a next') {other : Option α}
    (h : Along step demand s bytes ahead) : Along step demand s bytes other := by
  induction bytes generalizing s with
  | nil => trivial
  | cons a rest ih =>
    cases rest with
    | nil => exact ⟨hdemand s a _ _ h.1, trivial⟩
    | cons b rest => exact ⟨h.1, ih h.2⟩

variable {emit : σ → α → Option α → Option β}

theorem outputs_congr_ahead {other : Option α} (hemit : ∀ s a, emit s a ahead = emit s a other)
    (bytes : List α) (s : σ) :
    outputs step emit s bytes ahead = outputs step emit s bytes other := by
  induction bytes generalizing s with
  | nil => rfl
  | cons a rest ih =>
    cases rest with
    | nil =>
      simp [outputs, hemit]
    | cons b rest =>
      simp only [outputs, List.head?_cons, Option.some_or] at ih ⊢
      rw [ih]

/-- What holds as long as nothing is emitted. -/
theorem scan_silent {inv : σ → Prop}
    (hstep : ∀ s a next, inv s → emit s a next = none → inv (step s a next)) (h : inv s)
    (hsilent : outputs step emit s bytes ahead = []) : inv (scan step s bytes ahead) := by
  induction bytes generalizing s with
  | nil => exact h
  | cons a rest ih =>
    have hparts := List.append_eq_nil_iff.mp hsilent
    exact ih (hstep s a _ h (Option.toList_eq_nil_iff.mp hparts.1)) hparts.2

/-- Two readings in lockstep stay related. -/
theorem scan_rel (R : σ → τ → Prop) (demand : σ → α → Option α → Prop)
    (hstep : ∀ s t a next, R s t → demand s a next → R (step s a next) (step' t a next)) {t : τ}
    (h : R s t) (halong : Along step demand s bytes ahead) :
    R (scan step s bytes ahead) (scan step' t bytes ahead) := by
  induction bytes generalizing s t with
  | nil => exact h
  | cons a rest ih => exact ih (hstep s t a _ h halong.1) halong.2

/-- Readings in lockstep emit the same, where related states do. -/
theorem outputs_rel (R : σ → τ → Prop) (demand : σ → α → Option α → Prop)
    {emit' : τ → α → Option α → Option β}
    (hstep : ∀ s t a next, R s t → demand s a next → R (step s a next) (step' t a next))
    (hemit : ∀ s t a next, R s t → emit s a next = emit' t a next) {t : τ} (h : R s t)
    (halong : Along step demand s bytes ahead) :
    outputs step emit s bytes ahead = outputs step' emit' t bytes ahead := by
  induction bytes generalizing s t with
  | nil => rfl
  | cons a rest ih =>
    simp only [outputs, hemit s t a _ h, ih (hstep s t a _ h halong.1) halong.2]

/-- A register that holds the last thing emitted. -/
theorem latest_scan {register : σ → β}
    (hstep : ∀ s a next, register (step s a next) = (emit s a next).getD (register s))
    (bytes : List α) (ahead : Option α) (s : σ) :
    register (scan step s bytes ahead) =
      (outputs step emit s bytes ahead).getLast?.getD (register s) := by
  induction bytes generalizing s with
  | nil => rfl
  | cons a rest ih =>
    simp only [scan, outputs, ih, hstep, List.getLast?_append]
    cases (outputs step emit (step s a (rest.head?.or ahead)) rest ahead).getLast? with
    | some last => rfl
    | none => cases emit s a (rest.head?.or ahead) <;> rfl

end

end Amiss
