import Mathlib

/-!
# Metered Computations

A metered computation charges a state and may fail. What it charged before a
failure stays charged, so the state comes back in either case; `attempt` hands
a failure to the caller together with the charges made on the way to it.

What a computation returns often does not depend on the meters at all.
`Ensures` is the rule set for that: whatever the state, an answer has the
property. Each rule follows one way of composing computations.

## Main definitions

* `Metered`: A computation with a state that survives its failure.
* `Metered.attempt`: A failure as an answer.
* `Metered.Ensures`: What every answer has, whatever the state.

## Theorems

* `Metered.bind_eq_ok`: A finished computation, taken apart at its first step.
* `Metered.Ensures.bind`: A fact about a computation from facts about its parts.
-/

namespace Amiss

/-- A computation that charges a state and may fail. -/
def Metered (σ ε α : Type) := σ → Except ε α × σ

namespace Metered

variable {σ τ ε α β : Type}

variable (program : Metered σ ε α)

def sequence (next : α → Metered σ ε β) : Metered σ ε β := fun s =>
  match program s with
  | (.ok a, t) => next a t
  | (.error e, t) => (.error e, t)

instance : Monad (Metered σ ε) where
  pure a := fun s => (.ok a, s)
  bind := sequence

def fail (e : ε) : Metered σ ε α := fun s => (.error e, s)

/-- An answer that is already there. -/
def ofExcept (x : Except ε α) : Metered σ ε α := fun s => (x, s)

/-- Look at the state. -/
def reading (f : σ → α) : Metered σ ε α := fun s => (.ok (f s), s)

/-- Change the state. -/
def update (f : σ → σ) : Metered σ ε Unit := fun s => (.ok (), f s)

/-- The answer or the failure, with the charges of both. -/
def attempt : Metered σ ε (Except ε α) := fun s =>
  (.ok (program s).1, (program s).2)

/-- A computation that charges one part of the state. -/
def inside (part : σ → τ) (put : τ → σ → σ) (program : Metered τ ε α) : Metered σ ε α := fun s =>
  ((program (part s)).1, put (program (part s)).2 s)

/-! ### Taking computations apart -/

@[simp] theorem pure_apply (a : α) (s : σ) : (pure a : Metered σ ε α) s = (.ok a, s) := rfl

theorem bind_apply (next : α → Metered σ ε β) (s : σ) : (program >>= next) s = match program s with
      | (.ok a, t) => next a t
      | (.error e, t) => (.error e, t) := rfl

theorem bind_eq_ok {program : Metered σ ε α} {next : α → Metered σ ε β} {s t : σ} {b : β} :
    (program >>= next) s = (.ok b, t) ↔ ∃ a u, program s = (.ok a, u) ∧ next a u = (.ok b, t) := by
  rw [bind_apply]
  constructor
  · intro h
    split at h
    · next a u hprogram => exact ⟨a, u, hprogram, h⟩
    · next e u hprogram =>
        cases (congrArg Prod.fst h)
  · rintro ⟨a, u, hprogram, hnext⟩
    rw [hprogram]
    exact hnext

/-! ### What every answer has -/

/-- Whatever the state, an answer of the computation has the property. -/
def Ensures (post : α → Prop) : Prop :=
  ∀ s a t, program s = (.ok a, t) → post a

namespace Ensures

variable {program : Metered σ ε α} {post : α → Prop}

theorem pure {a : α} (h : post a) : Ensures (pure a : Metered σ ε α) post := by
  intro s b t hrun
  rw [pure_apply, Prod.mk.injEq, Except.ok.injEq] at hrun
  exact hrun.1 ▸ h

theorem bind {next : α → Metered σ ε β} {mid : α → Prop} {post : β → Prop}
    (hprogram : Ensures program mid) (hnext : ∀ a, mid a → Ensures (next a) post) :
    Ensures (program >>= next) post := by
  intro s b t hrun
  rcases bind_eq_ok.mp hrun with ⟨a, u, hfirst, hrest⟩
  exact hnext a (hprogram s a u hfirst) u b t hrest

/-- A first step of which nothing needs to be known. -/
theorem after {next : α → Metered σ ε β} {post : β → Prop}
    (hnext : ∀ a, Ensures (next a) post) : Ensures (program >>= next) post :=
  have hfirst : Ensures program (fun _ => True) := fun _ _ _ _ => trivial
  bind hfirst (fun a _ => hnext a)

theorem mono {weaker : α → Prop} (hprogram : Ensures program post)
    (h : ∀ a, post a → weaker a) : Ensures program weaker :=
  fun s a t hrun => h a (hprogram s a t hrun)

theorem inside {part : τ → σ} {put : σ → τ → τ} (hprogram : Ensures program post) :
    Ensures (inside part put program) post := by
  intro s a t hrun
  have hanswer : (program (part s)).1 = .ok a := congrArg Prod.fst hrun
  exact hprogram (part s) a (program (part s)).2 (Prod.ext hanswer rfl)

end Ensures

end Metered

end Amiss
