import Amiss.Theory.Relations.Replay

/-!
# What a Relation is Bound to

The state keeps two nested maps, and almost everything that is said about it
asks three questions: what a coordination was first admitted with, which work
of a relation is current, and which plan a relation is bound to. `State.Admits`
says what a schedule entry does to the three answers and what it found them to
be before; the other entries leave them alone.

The invariant that follows is the order of a relation. Fences name
coordinations, the current work has the largest of them, and a staged batch
carries the fence its coordination was admitted with.

## Main definitions

* `State.bindingOf`, `State.currentOf`, `State.planOf`: The three questions.
* `State.Admits`: What a schedule entry does.
* `State.Ordered`: The order of fences.

## Theorems

* `State.Takes.admits`, `State.Takes.relations_eq`: The entries, by effect.
* `Replays.ordered`: Every journal keeps the order.
-/

namespace Amiss

open Option

namespace Relations

/-- What a coordination was first admitted with. -/
def State.bindingOf (state : State) (relation coordination : ArtifactId) : Option StoredBinding :=
  state.relations[relation]?.bind (fun stored => stored.bindings[coordination]?)

/-- The current work of a relation. -/
def State.currentOf (state : State) (relation : ArtifactId) : Option StoredBinding :=
  state.relations[relation]?.bind (fun stored => stored.bindings[stored.currentCoordination]?)

/-- The plan a relation is bound to. -/
def State.planOf (state : State) (relation : ArtifactId) : Option Digest :=
  state.relations[relation]?.map StoredRelation.planBinding

/-- The fence after a current one. -/
def nextFence : Option StoredBinding → Nat
  | none => 1
  | some current => current.fence + 1

/-- What a schedule entry found, and what it did. -/
structure State.Admits (state : State) (relation : ArtifactId) (planBinding : Digest)
    (binding : StoredBinding) (next : State) : Prop where
  fresh : state.bindingOf relation binding.coordination = none
  fence : binding.fence = nextFence (state.currentOf relation)
  plan : ∀ bound, state.planOf relation = some bound → bound = planBinding
  bindings : ∀ other coordination, next.bindingOf other coordination =
    if relation = other ∧ binding.coordination = coordination then some binding
    else state.bindingOf other coordination
  current : ∀ other, next.currentOf other =
    if relation = other then some binding else state.currentOf other
  plans : ∀ other, next.planOf other =
    if relation = other then some planBinding else state.planOf other
  statuses : next.statuses = state.statuses

section Steps

variable {state next : State} {maxBindings : Nat} {relation : ArtifactId} {planBinding : Digest}
  {binding : StoredBinding}

/-- The three answers after a relation was given one more binding. -/
theorem State.admits_of_insert (hfresh : state.bindingOf relation binding.coordination = none)
    (hfence : binding.fence = nextFence (state.currentOf relation))
    (hplan : ∀ bound, state.planOf relation = some bound → bound = planBinding)
    (hrelations : next.relations = state.relations.insert relation
      (.admitting state.relations[relation]? planBinding binding))
    (hstatuses : next.statuses = state.statuses) :
    state.Admits relation planBinding binding next where
  fresh := hfresh
  fence := hfence
  plan := hplan
  bindings := by
    intro other coordination
    unfold State.bindingOf
    rw [hrelations, getElem?_inserted]
    by_cases hother : relation = other
    · subst hother
      rw [if_pos rfl, bind_some]
      cases state.relations[relation]? with
      | none =>
        simp [StoredRelation.admitting, getElem?_inserted]
      | some stored =>
        simp [StoredRelation.admitting, getElem?_inserted]
    · rw [if_neg hother, if_neg (fun h => hother h.1)]
  current := by
    intro other
    unfold State.currentOf
    rw [hrelations, getElem?_inserted]
    by_cases hother : relation = other
    · subst hother
      rw [if_pos rfl, if_pos rfl, bind_some]
      cases state.relations[relation]? with
      | none => simp [StoredRelation.admitting]
      | some stored => simp [StoredRelation.admitting]
    · rw [if_neg hother, if_neg hother]
  plans := by
    intro other
    unfold State.planOf at hplan ⊢
    rw [hrelations, getElem?_inserted]
    by_cases hother : relation = other
    · subst hother
      rw [if_pos rfl, if_pos rfl, map_some]
      cases hstored : state.relations[relation]? with
      | none => rfl
      | some stored =>
        rw [hstored] at hplan
        exact congrArg some (hplan stored.planBinding rfl)
    · rw [if_neg hother, if_neg hother]
  statuses := hstatuses

theorem State.Takes.admits
    (h : state.Takes maxBindings (.schedule relation planBinding binding) next) :
    state.Admits relation planBinding binding next := by
  cases h with
  | first hroom habsent hfence hrelations hstatuses =>
    refine State.admits_of_insert ?_ ?_ ?_ (habsent ▸ hrelations) hstatuses
    · rw [State.bindingOf, habsent, bind_none]
    · rw [State.currentOf, habsent, bind_none]
      exact hfence
    · intro bound hbound
      rw [State.planOf, habsent] at hbound
      cases hbound
  | @later _ _ _ _ stored current hroom hstored hplan hfresh hcurrent hfence hrelations hstatuses =>
    refine State.admits_of_insert ?_ ?_ ?_ (hstored ▸ hrelations) hstatuses
    · rw [State.bindingOf, hstored, bind_some]
      exact hfresh
    · rw [State.currentOf, hstored, bind_some, hcurrent]
      exact hfence
    · intro bound hbound
      rw [State.planOf, hstored, map_some, some.injEq] at hbound
      exact hbound.symm.trans hplan

theorem State.Takes.relations_eq {action : JournalAction} (h : state.Takes maxBindings action next)
    (hother : bindingIncrement action = 0) : next.relations = state.relations := by
  cases h with
  | first | later => exact absurd hother Nat.one_ne_zero
  | stage _ _ _ _ _ _ _ _ _ hrelations _ => exact hrelations
  | acknowledge _ _ _ hrelations _ => exact hrelations
  | complete _ _ hrelations _ => exact hrelations

theorem State.bindingOf_congr (h : next.relations = state.relations) :
    next.bindingOf = state.bindingOf := by
  funext relation coordination
  unfold State.bindingOf
  rw [h]

theorem State.currentOf_congr (h : next.relations = state.relations) :
    next.currentOf = state.currentOf := by
  funext relation
  unfold State.currentOf
  rw [h]

theorem State.planOf_congr (h : next.relations = state.relations) : next.planOf = state.planOf := by
  funext relation
  unfold State.planOf
  rw [h]

end Steps

/-! ### The order of a relation -/

/-- Fences name coordinations, and the current work has the largest. -/
structure State.Ordered (state : State) : Prop where
  named : ∀ relation coordination binding,
    state.bindingOf relation coordination = some binding → binding.coordination = coordination
  current : ∀ relation binding, state.currentOf relation = some binding →
    state.bindingOf relation binding.coordination = some binding
  latest : ∀ relation coordination binding,
    state.bindingOf relation coordination = some binding →
      ∃ current, state.currentOf relation = some current ∧ binding.fence ≤ current.fence
  distinct : ∀ relation left right binding binding', state.bindingOf relation left = some binding →
    state.bindingOf relation right = some binding' → binding.fence = binding'.fence → left = right
  staged : ∀ (key : StatusKey) binding status acknowledged,
    state.statuses[key]? = some (.staged binding status acknowledged) →
      key = toLex (status.relation, status.coordination) ∧ binding = status.statusBinding ∧
        ∃ stored, state.bindingOf status.relation status.coordination = some stored ∧
          stored.fence = status.fence

theorem State.bindingOf_empty (relation coordination : ArtifactId) :
    State.empty.bindingOf relation coordination = none := by
  unfold State.bindingOf State.empty
  rw [Std.ExtTreeMap.getElem?_empty, bind_none]

theorem State.currentOf_empty (relation : ArtifactId) : State.empty.currentOf relation = none := by
  unfold State.currentOf State.empty
  rw [Std.ExtTreeMap.getElem?_empty, bind_none]

theorem State.ordered_empty : State.empty.Ordered where
  named := fun relation coordination binding h => by
    rw [State.bindingOf_empty] at h
    cases h
  current := fun relation binding h => by
    rw [State.currentOf_empty] at h
    cases h
  latest := fun relation coordination binding h => by
    rw [State.bindingOf_empty] at h
    cases h
  distinct := fun relation left right binding binding' h => by
    rw [State.bindingOf_empty] at h
    cases h
  staged := fun key binding status acknowledged h => by
    rw [State.empty, Std.ExtTreeMap.getElem?_empty] at h
    cases h

section Order

variable {state next : State} {maxBindings : Nat} {action : JournalAction} {relation : ArtifactId}
  {planBinding : Digest} {binding : StoredBinding}

variable {coordination : ArtifactId}

/-- The new fence is larger than every fence of the relation. -/
theorem State.Ordered.fence_lt (h : state.Ordered)
    (hadmits : state.Admits relation planBinding binding next) {other : StoredBinding}
    (hother : state.bindingOf relation coordination = some other) :
    other.fence < binding.fence := by
  rcases h.latest relation coordination other hother with ⟨current, hcurrent, hle⟩
  rw [hadmits.fence, hcurrent, nextFence]
  omega

theorem State.Admits.keeps (hadmits : state.Admits relation planBinding binding next)
    {other : ArtifactId} {bound : StoredBinding}
    (h : state.bindingOf other coordination = some bound) :
    next.bindingOf other coordination = some bound := by
  rw [hadmits.bindings, if_neg, h]
  rintro ⟨rfl, rfl⟩
  rw [hadmits.fresh] at h
  cases h

/-- What is bound after a schedule is the new binding, or was bound before. -/
theorem State.Admits.cases (hadmits : state.Admits relation planBinding binding next)
    {other : ArtifactId} {bound : StoredBinding}
    (h : next.bindingOf other coordination = some bound) :
    (relation = other ∧ binding.coordination = coordination ∧ bound = binding) ∨
      state.bindingOf other coordination = some bound := by
  rw [hadmits.bindings] at h
  split at h
  next heq => exact Or.inl ⟨heq.1, heq.2, (some.inj h).symm⟩
  next => exact Or.inr h

theorem State.Ordered.admits (h : state.Ordered)
    (hadmits : state.Admits relation planBinding binding next) : next.Ordered where
  named := by
    intro other coordination bound hbound
    rcases hadmits.cases hbound with ⟨_, rfl, rfl⟩ | hbefore
    · rfl
    · exact h.named other coordination bound hbefore
  current := by
    intro other bound hcurrent
    rw [hadmits.current] at hcurrent
    split at hcurrent
    next heq =>
      rw [some.injEq] at hcurrent
      subst heq hcurrent
      rw [hadmits.bindings, if_pos ⟨rfl, rfl⟩]
    next => exact hadmits.keeps (h.current other bound hcurrent)
  latest := by
    intro other coordination bound hbound
    rw [hadmits.current]
    rcases hadmits.cases hbound with ⟨rfl, rfl, rfl⟩ | hbefore
    · exact ⟨bound, if_pos rfl, le_refl _⟩
    by_cases hother : relation = other
    · subst hother
      exact ⟨binding, if_pos rfl, (h.fence_lt hadmits hbefore).le⟩
    · rw [if_neg hother]
      exact h.latest other coordination bound hbefore
  distinct := by
    intro other left right bound bound' hleft hright hfence
    rcases hadmits.cases hleft with ⟨rfl, hcoordination, rfl⟩ | hleft'
    · rcases hadmits.cases hright with ⟨_, hcoordination', _⟩ | hright'
      · exact hcoordination.symm.trans hcoordination'
      · exact absurd hfence.symm (h.fence_lt hadmits hright').ne
    · rcases hadmits.cases hright with ⟨rfl, _, rfl⟩ | hright'
      · exact absurd hfence (h.fence_lt hadmits hleft').ne
      · exact h.distinct other left right bound bound' hleft' hright' hfence
  staged := by
    intro key bound status acknowledged hstatus
    rw [hadmits.statuses] at hstatus
    rcases h.staged key bound status acknowledged hstatus with
      ⟨hkey, hbound, stored, hstored, hfence⟩
    exact ⟨hkey, hbound, stored, hadmits.keeps hstored, hfence⟩

/-- The order survives a change to the statuses that keeps what staged ones
    promise. -/
theorem State.Ordered.of_statuses (h : state.Ordered)
    (hrelations : next.relations = state.relations)
    (hstaged : ∀ (key : StatusKey) binding status acknowledged,
      next.statuses[key]? = some (.staged binding status acknowledged) →
        key = toLex (status.relation, status.coordination) ∧ binding = status.statusBinding ∧
          ∃ stored, state.bindingOf status.relation status.coordination = some stored ∧
            stored.fence = status.fence) : next.Ordered where
  named := State.bindingOf_congr hrelations ▸ h.named
  current := State.bindingOf_congr hrelations ▸ State.currentOf_congr hrelations ▸ h.current
  latest := State.bindingOf_congr hrelations ▸ State.currentOf_congr hrelations ▸ h.latest
  distinct := State.bindingOf_congr hrelations ▸ h.distinct
  staged := State.bindingOf_congr hrelations ▸ hstaged

theorem State.Ordered.takes (h : state.Ordered) (htakes : state.Takes maxBindings action next) :
    next.Ordered := by
  cases action with
  | schedule relation planBinding binding => exact h.admits htakes.admits
  | stage planBinding workBinding status =>
    have hrelations := htakes.relations_eq rfl
    refine h.of_statuses hrelations (fun key bound other acknowledged hstatus => ?_)
    cases htakes with
    | @stage _ _ _ _ stored binding _ _ hstored _ _ hbinding _ _ hfence _ hstatuses =>
      rw [hstatuses, getElem?_inserted] at hstatus
      split at hstatus
      next hkey =>
        cases hstatus
        refine ⟨hkey.symm, rfl, binding, ?_, hfence⟩
        rw [State.bindingOf, hstored, bind_some]
        exact hbinding
      next => exact h.staged key bound other acknowledged hstatus
  | acknowledge relation coordination statusBinding destination =>
    refine h.of_statuses (htakes.relations_eq rfl) (fun key bound other acknowledged hstatus => ?_)
    cases htakes with
    | acknowledge hstaged _ _ _ hstatuses =>
      rw [hstatuses, getElem?_inserted] at hstatus
      split at hstatus
      next hkey =>
        cases hstatus
        exact hkey ▸ h.staged _ _ _ _ hstaged
      next => exact h.staged key bound other acknowledged hstatus
  | complete relation coordination statusBinding =>
    refine h.of_statuses (htakes.relations_eq rfl) (fun key bound other acknowledged hstatus => ?_)
    cases htakes with
    | complete _ _ _ hstatuses =>
      rw [hstatuses, getElem?_inserted] at hstatus
      split at hstatus
      next =>
        exact absurd hstatus
          (by simp)
      next => exact h.staged key bound other acknowledged hstatus

end Order

theorem Replays.ordered {codec : JournalCodec} {maxBindings : Nat} {state last : State}
    {bytes : Bytes} {entries : List JournalEntry}
    (h : Replays codec maxBindings state bytes entries last) (hstate : state.Ordered) :
    last.Ordered :=
  h.preserves State.Ordered (fun _ _ _ htakes hordered => hordered.takes htakes) hstate

end Relations

end Amiss
