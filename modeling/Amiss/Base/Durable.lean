import Mathlib

/-!
# Durable Programs

Programs over a store that outlives them. A run is described by more than its
answer: `trail` lists the stores as they stand after each single write, so a
run that is stopped leaves its starting store or one of its trail behind, and
one that ends leaves `store`.

`Follows` is the one judgement about such a program. It says that every store
a run can leave behind is reached by steps of a given relation, and what holds
of the answer. Its rules follow the way programs are put together, so a
program is taken apart once, into the steps it can take, and whatever those
steps preserve holds of everything the program leaves behind, stopped or not.

## Main definitions

* `Durable`: A program over a store, with the stores it passes through.
* `Durable.Outcome.left`: The stores a run can leave behind.
* `Durable.Follows`: What a run steps through, and what it answers.

## Theorems

* `Durable.Follows.bind`, `Durable.Follows.foldlM`: Sequences and loops.
* `Durable.Follows.mono`: Weakening what is said of the answer.
* `Durable.answer_bind`: Running a sequence.
* `preserved_of_reflTransGen`: What every step preserves, a path preserves.
-/

namespace Amiss

open Relation (ReflTransGen)

/-- What one run of a program does: the store after each single write, the
    store at its end, and the answer. -/
structure Durable.Outcome (σ ε α : Type) where
  trail : List σ
  store : σ
  answer : Except ε α

/-- The stores a run can leave behind once it has begun to write. A run that
    is stopped earlier leaves the store it started from. -/
def Durable.Outcome.left {σ ε α : Type} (outcome : Durable.Outcome σ ε α) : List σ :=
  outcome.store :: outcome.trail

/-- A program over the store `σ`, failing with `ε`. -/
def Durable (σ ε α : Type) := σ → Durable.Outcome σ ε α

namespace Durable

variable {σ ε α β : Type}

/-- Runs the second program where the first one ended. -/
def sequence (program : Durable σ ε α) (next : α → Durable σ ε β) : Durable σ ε β := fun s =>
  match program s with
  | ⟨trail, store, .error e⟩ => ⟨trail, store, .error e⟩
  | ⟨trail, store, .ok a⟩ =>
    ⟨trail ++ (next a store).trail, (next a store).store, (next a store).answer⟩

instance : Monad (Durable σ ε) where
  pure a := fun s => ⟨[], s, .ok a⟩
  bind := sequence

/-- Gives up, leaving the store alone. -/
def fail (e : ε) : Durable σ ε α := fun s => ⟨[], s, .error e⟩

/-- Reads the store, writing nothing. -/
def reading (f : σ → Except ε α) : Durable σ ε α := fun s => ⟨[], s, f s⟩

/-- One write. -/
def write (f : σ → σ) : Durable σ ε Unit := fun s => ⟨[f s], f s, .ok ()⟩

/-- Gives up unless the condition holds. -/
def ensure (condition : Prop) [Decidable condition] (e : ε) : Durable σ ε Unit := fun s =>
  if condition then ⟨[], s, .ok ()⟩ else ⟨[], s, .error e⟩

/-- Runs the program if the condition holds. -/
def onlyIf (condition : Prop) [Decidable condition] (program : Durable σ ε Unit) :
    Durable σ ε Unit :=
  if condition then program else pure ()

/-- A computation that neither reads nor writes the store. -/
def ofExcept (x : Except ε α) : Durable σ ε α := reading fun _ => x

section Running

/-! Running a program whose first part is known. -/

variable (s : σ) (next : α → Durable σ ε β)

theorem answer_bind (program : Durable σ ε α) :
    ((program >>= next) s).answer =
      match (program s).answer with
      | .ok a => (next a (program s).store).answer
      | .error e => .error e := by
  show (sequence program next s).answer = _
  unfold sequence
  rcases program s with ⟨trail, store, _ | a⟩ <;> rfl

@[simp] theorem reading_bind_run (f : σ → Except ε α) :
    (reading f >>= next) s =
      match f s with
      | .ok a => next a s
      | .error e => ⟨[], s, .error e⟩ := by
  show sequence (reading f) next s = _
  unfold sequence reading
  cases f s <;> rfl

@[simp] theorem ofExcept_bind_run (x : Except ε α) :
    (ofExcept x >>= next) s =
      match x with
      | .ok a => next a s
      | .error e => ⟨[], s, .error e⟩ := by
  cases x <;> rfl

@[simp] theorem ensure_bind_run (condition : Prop) [Decidable condition] (e : ε)
    (next : Unit → Durable σ ε β) :
    (ensure condition e >>= next) s = if condition then next () s else ⟨[], s, .error e⟩ := by
  show sequence (ensure condition e) next s = _
  by_cases h : condition
  · simp [sequence, ensure, h]
  · simp [sequence, ensure, h]

end Running

section Following

variable {R : σ → σ → Prop} {s : σ} {post : α → σ → Prop} {err : ε → σ → Prop}

/-- Every store a run from `s` can leave behind is reached by steps of `R`,
    an answer satisfies `post` and a failure satisfies `err`. -/
def Follows (R : σ → σ → Prop) (program : Durable σ ε α) (s : σ) (post : α → σ → Prop)
    (err : ε → σ → Prop) : Prop :=
  (∀ t ∈ (program s).left, ReflTransGen R s t) ∧
    match (program s).answer with
    | .ok a => post a (program s).store
    | .error e => err e (program s).store

/-- What a run steps through and what it answers, whether or not it fails. -/
abbrev Traces (R : σ → σ → Prop) (program : Durable σ ε α) (s : σ) (post : α → σ → Prop) : Prop :=
  Follows R program s post fun _ _ => True

/-- What a run steps through and what it answers, and that it does not
    fail. -/
abbrev Finishes (R : σ → σ → Prop) (program : Durable σ ε α) (s : σ) (post : α → σ → Prop) :
    Prop :=
  Follows R program s post fun _ _ => False

namespace Follows

variable {program : Durable σ ε α}

/-- A program that writes nothing leaves only the store it started from. -/
theorem still (htrail : (program s).trail = [])
    (hstore : (program s).store = s) (hanswer : match (program s).answer with
      | .ok a => post a s
      | .error e => err e s) : Follows R program s post err := by
  refine ⟨?_, ?_⟩
  · intro t ht
    rw [Outcome.left, htrail, hstore, List.mem_singleton] at ht
    exact ht ▸ ReflTransGen.refl
  · rw [hstore]
    exact hanswer

variable {a : α}

theorem pure (h : post a s) : Follows R (pure a : Durable σ ε α) s post err :=
  still rfl rfl h

variable {e : ε}

theorem fail (h : err e s) : Follows R (fail e : Durable σ ε α) s post err :=
  still rfl rfl h

variable {f : σ → Except ε α}

theorem reading (hok : ∀ a, f s = .ok a → post a s) (herr : ∀ e, f s = .error e → err e s) :
    Follows R (reading f) s post err := by
  refine still rfl rfl ?_
  show match f s with
    | .ok a => post a s
    | .error e => err e s
  cases h : f s with
  | error e => exact herr e h
  | ok a => exact hok a h

variable {condition : Prop}

theorem ensure [Decidable condition] {post : Unit → σ → Prop} (hok : condition → post () s)
    (herr : ¬ condition → err e s) : Follows R (ensure condition e) s post err := by
  unfold Follows Durable.ensure
  split
  next h => exact ⟨fun t ht => List.mem_singleton.mp ht ▸ ReflTransGen.refl, hok h⟩
  next h => exact ⟨fun t ht => List.mem_singleton.mp ht ▸ ReflTransGen.refl, herr h⟩

theorem onlyIf [Decidable condition] {program : Durable σ ε Unit} {post : Unit → σ → Prop}
    (hc : condition → Follows R program s post err) (hn : ¬ condition → post () s) :
    Follows R (onlyIf condition program) s post err := by
  unfold Durable.onlyIf
  split
  next h => exact hc h
  next h => exact pure (hn h)

theorem write {f : σ → σ} {post : Unit → σ → Prop} (hstep : R s (f s)) (h : post () (f s)) :
    Follows R (write f : Durable σ ε Unit) s post err := by
  refine ⟨?_, h⟩
  intro t ht
  have heq : t = f s := by
    rcases List.mem_cons.mp ht with rfl | ht
    · rfl
    · exact List.mem_singleton.mp ht
  exact heq ▸ ReflTransGen.single hstep

variable {next : α → Durable σ ε β}

theorem bind {mid : α → σ → Prop} {post : β → σ → Prop} (hfirst : Follows R program s mid err)
    (hnext : ∀ a t, mid a t → Follows R (next a) t post err) :
    Follows R (program >>= next) s post err := by
  show Follows R (sequence program next) s post err
  unfold Follows sequence at *
  rcases hrun : program s with ⟨trail, store, e | a⟩ <;> rw [hrun] at hfirst
  · exact hfirst
  have hpath : ReflTransGen R s store := hfirst.1 store List.mem_cons_self
  have hrest := hnext a store hfirst.2
  refine ⟨?_, hrest.2⟩
  intro t ht
  simp only [Outcome.left, List.mem_cons, List.mem_append] at ht
  rcases ht with rfl | ht | ht
  · exact hpath.trans (hrest.1 _ List.mem_cons_self)
  · exact hfirst.1 t (List.mem_cons_of_mem _ ht)
  · exact hpath.trans (hrest.1 t (List.mem_cons_of_mem _ ht))

theorem reading_bind {post : β → σ → Prop}
    (hok : ∀ a, f s = .ok a → Follows R (next a) s post err)
    (herr : ∀ e, f s = .error e → err e s) : Follows R (Durable.reading f >>= next) s post err :=
  bind (reading (fun _ ha => ⟨ha, rfl⟩) herr :
      Follows R (Durable.reading f) s (fun a t => f s = .ok a ∧ t = s) err)
    (fun a _ ⟨ha, ht⟩ => ht ▸ hok a ha)

theorem ensure_bind [Decidable condition] {next : Unit → Durable σ ε β} {post : β → σ → Prop}
    (hok : condition → Follows R (next ()) s post err) (herr : ¬ condition → err e s) :
    Follows R (Durable.ensure condition e >>= next) s post err :=
  bind (ensure (fun hc => ⟨hc, rfl⟩) herr :
      Follows R (Durable.ensure condition e) s (fun _ t => condition ∧ t = s) err)
    (fun _ _ ⟨hc, ht⟩ => ht ▸ hok hc)

theorem ofExcept_bind {x : Except ε α} {post : β → σ → Prop}
    (hok : ∀ a, x = .ok a → Follows R (next a) s post err) (herr : ∀ e, x = .error e → err e s) :
    Follows R (Durable.ofExcept x >>= next) s post err :=
  reading_bind (fun a ha => hok a ha) (fun e he => herr e he)

theorem write_bind {f : σ → σ} {next : Unit → Durable σ ε β} {post : β → σ → Prop}
    (hstep : R s (f s)) (h : Follows R (next ()) (f s) post err) :
    Follows R (Durable.write f >>= next) s post err :=
  bind (write hstep rfl : Follows R (Durable.write f) s (fun _ t => t = f s) err)
    (fun _ _ ht => ht ▸ h)

/-! The same where the outcome is known. -/

theorem reading_ok {post : β → σ → Prop} (hf : f s = .ok a) (h : Follows R (next a) s post err) :
    Follows R (Durable.reading f >>= next) s post err := by
  refine reading_bind (fun b hb => ?_) (fun e he => ?_)
  · rw [hf, Except.ok.injEq] at hb
    exact hb ▸ h
  · rw [hf] at he
    cases he

theorem ofExcept_ok {x : Except ε α} {post : β → σ → Prop} (hx : x = .ok a)
    (h : Follows R (next a) s post err) : Follows R (Durable.ofExcept x >>= next) s post err :=
  reading_ok hx h

theorem ensure_true [Decidable condition] {next : Unit → Durable σ ε β} {post : β → σ → Prop}
    (hc : condition) (h : Follows R (next ()) s post err) :
    Follows R (Durable.ensure condition e >>= next) s post err :=
  ensure_bind (fun _ => h) (fun hn => absurd hc hn)

theorem mono {mid : α → σ → Prop} {mid' : ε → σ → Prop} (h : Follows R program s mid mid')
    (hok : ∀ a t, mid a t → post a t) (herr : ∀ e t, mid' e t → err e t) :
    Follows R program s post err := by
  refine ⟨h.1, ?_⟩
  have hanswer := h.2
  cases hrun : (program s).answer with
  | error e =>
    rw [hrun] at hanswer
    exact herr e _ hanswer
  | ok a =>
    rw [hrun] at hanswer
    exact hok a _ hanswer

/-- A program that cannot fail, where failing is allowed for. -/
theorem of_finishes (h : Finishes R program s post) : Follows R program s post err :=
  h.mono (fun _ _ => id) (fun _ _ => False.elim)

/-- A loop, with an invariant that may speak of what is still to be done. -/
theorem foldlM (Inv : List β → α → σ → Prop) {body : α → β → Durable σ ε α}
    (hbody : ∀ x xs acc s, Inv (x :: xs) acc s →
      Follows R (body acc x) s (fun acc' t => Inv xs acc' t) err) (xs : List β) {acc : α} {s : σ}
    (hinit : Inv xs acc s) :
    Follows R (xs.foldlM body acc) s (fun acc' t => Inv [] acc' t) err := by
  induction xs generalizing acc s with
  | nil => exact pure hinit
  | cons x xs ih =>
    rw [List.foldlM_cons]
    exact bind (hbody x xs acc s hinit) (fun acc' t h => ih h)

section

variable (h : Follows R program s post err)

include h

/-- A followed run ends where its steps lead. -/
theorem withPath : Follows R program s (fun a t => post a t ∧ ReflTransGen R s t) err := by
  refine ⟨h.1, ?_⟩
  have hanswer := h.2
  have hpath := h.1 _ List.mem_cons_self
  cases hrun : (program s).answer with
  | error e =>
    rw [hrun] at hanswer
    exact hanswer
  | ok a =>
    rw [hrun] at hanswer
    exact ⟨hanswer, hpath⟩

/-- Whatever a followed run leaves behind is reached by its steps. -/
theorem reaches {t : σ} (ht : t ∈ (program s).left) : ReflTransGen R s t :=
  h.1 t ht

theorem answered (ha : (program s).answer = .ok a) : post a (program s).store := by
  have hanswer := h.2
  rwa [ha] at hanswer

theorem failed (he : (program s).answer = .error e) : err e (program s).store := by
  have hanswer := h.2
  rwa [he] at hanswer

end

/-- A program with no step to take leaves the state it found. -/
theorem stays (h : Follows (fun _ _ => False) program s post err) {t : σ}
    (ht : t ∈ (program s).left) : t = s :=
  (h.reaches ht).cases_head.elim Eq.symm fun ⟨_, hstep, _⟩ => hstep.elim

theorem succeeds (h : Follows R program s post fun _ _ => False) :
    ∃ a, (program s).answer = .ok a ∧ post a (program s).store := by
  have hanswer := h.2
  cases hrun : (program s).answer with
  | error e =>
    rw [hrun] at hanswer
    exact hanswer.elim
  | ok a =>
    rw [hrun] at hanswer
    exact ⟨a, rfl, hanswer⟩

end Follows

end Following

end Durable

/-- What every step preserves holds at the end of a path. -/
theorem preserved_of_reflTransGen {σ : Type} {R : σ → σ → Prop} (Inv : σ → Prop)
    (hstep : ∀ s t, R s t → Inv s → Inv t) {s t : σ} (hpath : ReflTransGen R s t)
    (hinit : Inv s) : Inv t := by
  induction hpath with
  | refl => exact hinit
  | tail _ hlast ih => exact hstep _ _ hlast ih

end Amiss
