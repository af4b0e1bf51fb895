import Mathlib.Data.List.Basic
import Mathlib.Data.List.Infix

/-!
# Programs That Ask Their Surroundings

A program that computes on its own between calls to its surroundings, which
may answer anything. What such a program does is the list of its calls with
their answers. It may be stopped between any two of them, so a run leaves any
initial part of that list.

What a program may ask is stated as a rule on each call and the calls before
it. `Guarded` is the judgement that a program keeps the rule, with one lemma
for each way a program is built. Several programs that share their
surroundings interleave their calls; the rule of each still holds of its own
calls in the common history.

## Main definitions

* `Interaction`: A program as the tree of its calls.
* `Interaction.Trace`: The lists of calls a program may leave.
* `Interaction.Guarded`: Every call keeps a rule.
* `Interaction.Interleaves`: The history of several programs.
* `Interaction.replay`: Checking one list of calls.

## Theorems

* `Interaction.Guarded.bind`, `Interaction.Guarded.request_bind`: The rules of
  the judgement.
* `Interaction.Guarded.grows`: Calls are only added to the past.
* `Interaction.Interleaves.allowed`: Every call in a history keeps its
  program's rule.
-/

namespace Amiss

/-- A program that asks its surroundings: finished, given up, or waiting for
    the answer to a call. -/
inductive Interaction (Call : Type) (Answer : Call → Type) (ε α : Type) where
  | done (a : α)
  | fail (e : ε)
  | ask (call : Call) (next : Answer call → Interaction Call Answer ε α)

namespace Interaction

variable {Call : Type} {Answer : Call → Type} {ε α β δ : Type}

/-- One program after the other, on the answer of the first. -/
def sequence (program : Interaction Call Answer ε α) (next : α → Interaction Call Answer ε β) :
    Interaction Call Answer ε β :=
  match program with
  | .done a => next a
  | .fail e => .fail e
  | .ask call rest => .ask call (fun answer => (rest answer).sequence next)

instance : Monad (Interaction Call Answer ε) where
  pure := .done
  bind := sequence

/-- One call. -/
def request (call : Call) : Interaction Call Answer ε (Answer call) := .ask call .done

/-- A computation without calls. -/
def ofExcept : Except ε α → Interaction Call Answer ε α
  | .ok a => .done a
  | .error e => .fail e

/-- A computation without calls, with its own errors. -/
def orFail (wrap : δ → ε) (x : Except δ α) : Interaction Call Answer ε α :=
  ofExcept (x.mapError wrap)

/-- Gives up unless the condition holds. -/
def ensure (condition : Prop) [Decidable condition] (e : ε) : Interaction Call Answer ε Unit :=
  if condition then .done () else .fail e

/-- A call with its answer. -/
abbrev Event (Call : Type) (Answer : Call → Type) := (call : Call) × Answer call

/-- The calls a program may have made when it stops, for whatever reason. -/
inductive Trace : Interaction Call Answer ε α → List (Event Call Answer) → Prop where
  | stop (program : Interaction Call Answer ε α) : Trace program []
  | step {call : Call} {next : Answer call → Interaction Call Answer ε α} (answer : Answer call)
      {events : List (Event Call Answer)} (rest : Trace (next answer) events) :
      Trace (.ask call next) (⟨call, answer⟩ :: events)

/-- Whether a list of calls with their answers is one the program may make. -/
def replay [DecidableEq Call] : Interaction Call Answer ε α → List (Event Call Answer) → Bool
  | _, [] => true
  | .ask call next, ⟨made, answer⟩ :: events =>
    if h : made = call then (next (h ▸ answer)).replay events else false
  | .done _, _ :: _ => false
  | .fail _, _ :: _ => false

theorem trace_of_replay [DecidableEq Call] {program : Interaction Call Answer ε α}
    {events : List (Event Call Answer)} (h : program.replay events = true) :
    program.Trace events := by
  induction events generalizing program with
  | nil => exact .stop program
  | cons event events ih =>
    rcases event with ⟨made, answer⟩
    cases program with
    | done a => cases h
    | fail e => cases h
    | ask call next =>
      unfold replay at h
      split at h
      next hcall =>
        subst hcall
        exact .step answer (ih h)
      next => cases h

/-! ### The judgement -/

/-- Every call the program makes after `past` is allowed by the calls before
    it, and an answer satisfies `post`. -/
def Guarded (allowed : List (Event Call Answer) → Call → Prop)
    (program : Interaction Call Answer ε α) (past : List (Event Call Answer))
    (post : α → List (Event Call Answer) → Prop) : Prop :=
  match program with
  | .done a => post a past
  | .fail _ => True
  | .ask call next =>
    allowed past call ∧ ∀ answer, (next answer).Guarded allowed (past ++ [⟨call, answer⟩]) post

namespace Guarded

variable {allowed : List (Event Call Answer) → Call → Prop} {past : List (Event Call Answer)}
  {post : β → List (Event Call Answer) → Prop}

theorem pure {b : β} (h : post b past) :
    Guarded allowed (pure b : Interaction Call Answer ε β) past post := h

variable {program : Interaction Call Answer ε α} {mid : α → List (Event Call Answer) → Prop}

theorem mono {later : α → List (Event Call Answer) → Prop} (h : program.Guarded allowed past mid)
    (himp : ∀ a events, mid a events → later a events) : program.Guarded allowed past later := by
  induction program generalizing past with
  | done a => exact himp a past h
  | fail e => trivial
  | ask call next ih => exact ⟨h.1, fun answer => ih answer (h.2 answer)⟩

variable {next : α → Interaction Call Answer ε β}

theorem bind (h : program.Guarded allowed past mid)
    (hnext : ∀ a events, mid a events → (next a).Guarded allowed events post) :
    (program >>= next).Guarded allowed past post := by
  induction program generalizing past with
  | done a => exact hnext a past h
  | fail e => trivial
  | ask call rest ih => exact ⟨h.1, fun answer => ih answer (h.2 answer)⟩

theorem request_bind {call : Call} {next : Answer call → Interaction Call Answer ε β}
    (hallowed : allowed past call)
    (hnext : ∀ answer, (next answer).Guarded allowed (past ++ [⟨call, answer⟩]) post) :
    (request call >>= next).Guarded allowed past post :=
  ⟨hallowed, hnext⟩

theorem ofExcept_bind {x : Except ε α}
    (hnext : ∀ a, x = .ok a → (next a).Guarded allowed past post) :
    (ofExcept x >>= next).Guarded allowed past post := by
  cases x with
  | error e => trivial
  | ok a => exact hnext a rfl

theorem orFail_bind {wrap : δ → ε} {x : Except δ α}
    (hnext : ∀ a, x = .ok a → (next a).Guarded allowed past post) :
    (orFail wrap x >>= next).Guarded allowed past post := by
  cases x with
  | error e => trivial
  | ok a => exact hnext a rfl

theorem ensure_bind {condition : Prop} [Decidable condition] {e : ε}
    {next : Unit → Interaction Call Answer ε β}
    (hnext : condition → (next ()).Guarded allowed past post) :
    (ensure condition e >>= next).Guarded allowed past post := by
  unfold ensure
  split
  next h => exact hnext h
  next => trivial

theorem grows {program : Interaction Call Answer ε β} (h : program.Guarded allowed past post) :
    program.Guarded allowed past (fun b events => past <+: events ∧ post b events) := by
  induction program generalizing past with
  | done b => exact ⟨List.prefix_refl _, h⟩
  | fail e => trivial
  | ask call next ih =>
    refine ⟨h.1, fun answer => ?_⟩
    exact (ih answer (h.2 answer)).mono (fun _ _ hpost =>
      ⟨(List.prefix_append _ _).trans hpost.1, hpost.2⟩)

/-- A program in sequence, with what the first part added to the past. -/
theorem bind_grows (h : program.Guarded allowed past mid)
    (hnext : ∀ a events, past <+: events → mid a events → (next a).Guarded allowed events post) :
    (program >>= next).Guarded allowed past post :=
  h.grows.bind (fun a events hmid => hnext a events hmid.1 hmid.2)

/-- Every call of a trace is allowed by the calls before it. -/
theorem trace {program : Interaction Call Answer ε β} {events : List (Event Call Answer)}
    (h : program.Guarded allowed past post) (htrace : program.Trace events)
    {before after : List (Event Call Answer)} {event : Event Call Answer}
    (hsplit : events = before ++ event :: after) : allowed (past ++ before) event.1 := by
  induction htrace generalizing past before with
  | stop => exact absurd hsplit.symm (List.append_ne_nil_of_right_ne_nil _ (List.cons_ne_nil _ _))
  | step answer rest ih =>
    cases before with
    | nil =>
      rw [List.nil_append, List.cons.injEq] at hsplit
      rw [List.append_nil, ← hsplit.1]
      exact h.1
    | cons first before =>
      rw [List.cons_append, List.cons.injEq] at hsplit
      have hlater := ih (h.2 answer) hsplit.2
      rw [List.append_assoc, List.singleton_append, hsplit.1] at hlater
      exact hlater

end Guarded

/-! ### Several programs -/

section History

variable {ι : Type} [DecidableEq ι]

/-- The calls of one program in a common history. -/
def eventsOf (i : ι) (history : List (ι × Event Call Answer)) : List (Event Call Answer) :=
  (history.filter (fun entry => entry.1 = i)).map Prod.snd

theorem eventsOf_append (i : ι) (first second : List (ι × Event Call Answer)) :
    eventsOf i (first ++ second) = eventsOf i first ++ eventsOf i second := by
  rw [eventsOf, List.filter_append, List.map_append]
  rfl

theorem eventsOf_cons_self (i : ι) (event : Event Call Answer)
    (history : List (ι × Event Call Answer)) :
    eventsOf i ((i, event) :: history) = event :: eventsOf i history := by
  simp [eventsOf]

/-- Every call of a program is somewhere in the history it is part of. -/
theorem exists_split_of_mem_eventsOf {i : ι} {event : Event Call Answer}
    {history : List (ι × Event Call Answer)} (h : event ∈ eventsOf i history) :
    ∃ before after, history = before ++ (i, event) :: after := by
  rcases List.mem_map.mp h with ⟨⟨j, found⟩, hmem, rfl⟩
  rcases List.mem_filter.mp hmem with ⟨hentry, howner⟩
  have howner : j = i := of_decide_eq_true howner
  subst howner
  exact List.append_of_mem hentry

/-- A history in which every program made its own calls, in any order between
    them. -/
def Interleaves (programs : ι → Interaction Call Answer ε α)
    (history : List (ι × Event Call Answer)) : Prop :=
  ∀ i, (programs i).Trace (eventsOf i history)

/-- Every call in a history is allowed by its own program's calls before it. -/
theorem Interleaves.allowed {programs : ι → Interaction Call Answer ε α}
    {rule : List (Event Call Answer) → Call → Prop}
    {history before after : List (ι × Event Call Answer)} {i : ι} {event : Event Call Answer}
    {post : α → List (Event Call Answer) → Prop} (h : Interleaves programs history)
    (hguarded : (programs i).Guarded rule [] post)
    (hsplit : history = before ++ (i, event) :: after) : rule (eventsOf i before) event.1 := by
  have hown : eventsOf i history = eventsOf i before ++ event :: eventsOf i after := by
    rw [hsplit, eventsOf_append, eventsOf_cons_self]
  exact hguarded.trace (h i) hown

end History

end Interaction

end Amiss
