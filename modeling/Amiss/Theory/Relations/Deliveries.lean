import Amiss.Controller.Relations.Outbox
import Amiss.Theory.Relations.Bindings

/-!
# Deliveries of the Status Outbox

What the outbox does to one destination, read off the state. A destination of
a staged batch is open until it is acknowledged. `pendingDeliveries` keeps, for
each destination, the open batch with the smallest fence, and `State.Served`
is what follows for good from having offered it: no batch of the relation with
a smaller fence will ever be open for that destination again.

## Main definitions

* `State.Open`, `State.Closed`: A destination before and after it is
  acknowledged.
* `State.Served`: Nothing older is open, now or ever.
* `State.Staged`: A delivery that is left to be made.

## Theorems

* `State.Served.takes`, `State.Closed.takes`: Both are kept by every entry.
* `Replays.acknowledged_once`: No destination of a batch is acknowledged twice.
* `Replays.completed_last`: Completion comes after all acknowledgements.
* `pendingDeliveries_spec`: What is offered is open, and the oldest.
-/

namespace Amiss

open List

open Fallible

namespace Relations

/-- A destination of a staged batch that is not acknowledged. -/
def State.Open (state : State) (key : StatusKey) (destination : Digest) : Prop :=
  ∃ binding status acknowledged, state.statuses[key]? = some (.staged binding status acknowledged) ∧
    destination ∈ status.destinations ∧ destination ∉ acknowledged

/-- A batch was staged, and the destination is not open in it. -/
def State.Closed (state : State) (key : StatusKey) (destination : Digest) : Prop :=
  state.statuses[key]? ≠ none ∧ ¬ state.Open key destination

/-- The relation has come to the fence, and no batch below it is open. -/
structure State.Served (state : State) (relation : ArtifactId) (destination : Digest)
    (fence : Nat) : Prop where
  reached : ∃ current, state.currentOf relation = some current ∧ fence ≤ current.fence
  none_older : ∀ coordination binding, state.bindingOf relation coordination = some binding →
    binding.fence < fence → ¬ state.Open (toLex (relation, coordination)) destination

section Steps

variable {state next : State} {maxBindings : Nat} {action : JournalAction} {key : StatusKey}
  {destination : Digest}

/-- What is open after an entry was open before, or was just staged. -/
theorem State.Takes.open_cases (h : state.Takes maxBindings action next)
    (hopen : next.Open key destination) :
    state.Open key destination ∨ ∃ planBinding workBinding status,
      action = .stage planBinding workBinding status ∧
        key = toLex (status.relation, status.coordination) := by
  rcases hopen with ⟨bound, status, acknowledged, hstatus, hnamed, hopen⟩
  cases h with
  | first _ _ _ _ hstatuses | later _ _ _ _ _ _ _ hstatuses =>
    rw [hstatuses] at hstatus
    exact Or.inl ⟨bound, status, acknowledged, hstatus, hnamed, hopen⟩
  | stage _ _ _ _ _ _ _ _ _ _ hstatuses =>
    rw [hstatuses, getElem?_inserted] at hstatus
    split at hstatus
    next hkey => exact Or.inr ⟨_, _, _, rfl, hkey.symm⟩
    next => exact Or.inl ⟨bound, status, acknowledged, hstatus, hnamed, hopen⟩
  | acknowledge hstaged _ _ _ hstatuses =>
    rw [hstatuses, getElem?_inserted] at hstatus
    split at hstatus
    next hkey =>
      cases hstatus
      exact Or.inl ⟨_, _, _, hkey ▸ hstaged, hnamed, fun h => hopen (Finset.mem_insert_of_mem h)⟩
    next => exact Or.inl ⟨bound, status, acknowledged, hstatus, hnamed, hopen⟩
  | complete _ _ _ hstatuses =>
    rw [hstatuses, getElem?_inserted] at hstatus
    split at hstatus
    next =>
      cases hstatus
    next => exact Or.inl ⟨bound, status, acknowledged, hstatus, hnamed, hopen⟩

/-- A batch that was staged is never forgotten. -/
theorem State.Takes.keeps_status (h : state.Takes maxBindings action next)
    (hstatus : state.statuses[key]? ≠ none) : next.statuses[key]? ≠ none := by
  have hinsert : ∀ (other : StatusKey) (value : StoredStatusState),
      (state.statuses.insert other value)[key]? ≠ none := by
    intro other value
    rw [getElem?_inserted]
    split
    next => exact Option.some_ne_none value
    next => exact hstatus
  cases h with
  | first _ _ _ _ hstatuses | later _ _ _ _ _ _ _ hstatuses =>
    rw [hstatuses]
    exact hstatus
  | stage _ _ _ _ _ _ _ _ _ _ hstatuses | acknowledge _ _ _ _ hstatuses
  | complete _ _ _ hstatuses =>
    rw [hstatuses]
    exact hinsert _ _

theorem State.Closed.takes (h : state.Closed key destination)
    (htakes : state.Takes maxBindings action next) : next.Closed key destination := by
  refine ⟨htakes.keeps_status h.1, fun hopen => ?_⟩
  rcases htakes.open_cases hopen with hbefore | ⟨_, _, status, rfl, rfl⟩
  · exact h.2 hbefore
  · -- A batch is staged only where there was none.
    cases htakes with
    | stage _ hfresh => exact h.1 hfresh

variable {relation : ArtifactId}

theorem State.Takes.closed {coordination : ArtifactId} {binding : Digest}
    (h : state.Takes maxBindings (.acknowledge relation coordination binding destination) next) :
    next.Closed (toLex (relation, coordination)) destination := by
  cases h with
  | @acknowledge _ _ _ _ _ status acknowledged hstaged hnamed hfresh hrelations hstatuses =>
    have hstatus : next.statuses[(toLex (relation, coordination) : StatusKey)]? = some
        (.staged binding status (insert destination acknowledged)) := by
      rw [hstatuses, getElem?_inserted, if_pos rfl]
    refine ⟨?_, ?_⟩
    · rw [hstatus]
      exact Option.some_ne_none _
    · rintro ⟨_, _, _, hother, _, hopen⟩
      cases hstatus.symm.trans hother
      exact hopen (Finset.mem_insert_self ..)

/-- A schedule opens nothing, and its fence is past every fence reached. -/
theorem State.Served.admits {other : ArtifactId} {fence : Nat} {planBinding : Digest}
    {binding : StoredBinding} (h : state.Served relation destination fence)
    (hadmits : state.Admits other planBinding binding next) :
    next.Served relation destination fence := by
  rcases h.reached with ⟨current, hcurrent, hle⟩
  have hnew : other = relation → fence ≤ binding.fence := by
    rintro rfl
    rw [hadmits.fence, hcurrent, nextFence]
    omega
  refine ⟨?_, ?_⟩
  · rw [hadmits.current]
    by_cases hother : other = relation
    · exact ⟨binding, if_pos hother, hnew hother⟩
    · exact ⟨current, (if_neg hother).trans hcurrent, hle⟩
  · intro coordination bound hbound hlt hopen
    rcases hadmits.cases hbound with ⟨hother, _, rfl⟩ | hbefore
    · exact absurd hlt (Nat.not_lt_of_le (hnew hother))
    · refine h.none_older coordination bound hbefore hlt ?_
      unfold State.Open at hopen ⊢
      rwa [hadmits.statuses] at hopen

/-- Nothing older opens again: a batch is staged for the current work only. -/
theorem State.Served.takes {fence : Nat} (h : state.Served relation destination fence)
    (htakes : state.Takes maxBindings action next) : next.Served relation destination fence := by
  by_cases hother : bindingIncrement action = 0
  · have hrelations := htakes.relations_eq hother
    rcases h.reached with ⟨current, hcurrent, hle⟩
    refine ⟨?_, ?_⟩
    · rw [State.currentOf_congr hrelations]
      exact ⟨current, hcurrent, hle⟩
    intro coordination bound hbound hlt hopen
    rw [State.bindingOf_congr hrelations] at hbound
    rcases htakes.open_cases hopen with hopen | ⟨_, _, status, rfl, hkey⟩
    · exact h.none_older coordination bound hbound hlt hopen
    rw [EmbeddingLike.apply_eq_iff_eq, Prod.mk.injEq] at hkey
    rcases hkey with ⟨rfl, rfl⟩
    cases htakes with
    | stage _ _ hstored _ hcurrent' =>
      -- The batch just staged is the current one, whose fence is not smaller.
      rw [State.currentOf, hstored, Option.bind_some, hcurrent'] at hcurrent
      rw [State.bindingOf, hstored, Option.bind_some, hcurrent, Option.some.injEq] at hbound
      subst hbound
      exact absurd hlt (Nat.not_lt_of_le hle)
  · cases action with
    | schedule other planBinding binding => exact h.admits htakes.admits
    | stage | acknowledge | complete => exact absurd rfl hother

end Steps

section Replaying

variable {codec : JournalCodec} {maxBindings : Nat} {state last : State} {bytes : Bytes}
  {entries : List JournalEntry} {key : StatusKey} {destination : Digest}
  {relation coordination : ArtifactId}

section

variable (h : Replays codec maxBindings state bytes entries last)

include h

theorem Replays.closed (hclosed : state.Closed key destination) : last.Closed key destination :=
  h.preserves (fun state => state.Closed key destination)
    (fun _ _ _ htakes hclosed => hclosed.takes htakes) hclosed

theorem Replays.served {fence : Nat}
    (hserved : state.Served relation destination fence) : last.Served relation destination fence :=
  h.preserves (fun state => state.Served relation destination fence)
    (fun _ _ _ htakes hserved => hserved.takes htakes) hserved

/-- What was bound stays bound, with the same binding. -/
theorem Replays.keeps_binding {binding : StoredBinding}
    (hbinding : state.bindingOf relation coordination = some binding) :
    last.bindingOf relation coordination = some binding := by
  refine h.preserves (fun state => state.bindingOf relation coordination = some binding) ?_ hbinding
  intro state action next htakes hbinding
  cases action with
  | schedule other planBinding new => exact htakes.admits.keeps hbinding
  | stage _ _ _ | acknowledge _ _ _ _ | complete _ _ _ =>
    rw [State.bindingOf_congr (htakes.relations_eq rfl)]
    exact hbinding

/-- A destination that is closed is not acknowledged again. -/
theorem Replays.not_acknowledged
    (hclosed : state.Closed (toLex (relation, coordination)) destination) :
    ∀ entry ∈ entries, ∀ binding,
      entry.action ≠ .acknowledge relation coordination binding destination := by
  induction h with
  | nil => exact fun entry hentry => absurd hentry not_mem_nil
  | @cons state next last first chunk bytes rest hchunk hnext hrest ih =>
    rcases applyEntry_eq_ok hnext with ⟨_, _, _, _, _, htakes⟩
    intro entry hentry binding haction
    rcases mem_cons.mp hentry with rfl | hentry
    · rw [haction] at htakes
      cases htakes with
      | acknowledge hstaged hnamed hfresh =>
        exact hclosed.2 ⟨_, _, _, hstaged, hnamed, hfresh⟩
    · exact ih (hclosed.takes htakes) entry hentry binding haction

/-- No destination of a batch is acknowledged twice. -/
theorem Replays.acknowledged_once :
    entries.Pairwise (fun earlier later => ∀ relation coordination binding binding' destination,
      earlier.action = .acknowledge relation coordination binding destination →
      later.action ≠ .acknowledge relation coordination binding' destination) := by
  induction h with
  | nil => exact List.Pairwise.nil
  | cons hchunk hnext hrest ih =>
    rcases applyEntry_eq_ok hnext with ⟨_, _, _, _, _, htakes⟩
    refine List.Pairwise.cons (fun later hlater => ?_) ih
    intro relation coordination binding binding' destination haction
    rw [haction] at htakes
    exact hrest.not_acknowledged htakes.closed later hlater binding'

end

/-- The entries so far account for what is staged and what is acknowledged. -/
def State.Explained (state : State) (past : List JournalEntry) : Prop :=
  ∀ relation coordination binding status acknowledged,
    state.statuses[(toLex (relation, coordination) : StatusKey)]? =
      some (.staged binding status acknowledged) →
    (∃ entry ∈ past, ∃ planBinding workBinding,
      entry.action = .stage planBinding workBinding status) ∧
    status.relation = relation ∧ status.coordination = coordination ∧
    status.statusBinding = binding ∧
    ∀ destination ∈ acknowledged, ∃ entry ∈ past,
      entry.action = .acknowledge relation coordination binding destination

variable {past : List JournalEntry}

theorem State.Explained.mono {more : List JournalEntry} (h : state.Explained past)
    (hsub : past ⊆ more) : state.Explained more := by
  intro relation coordination binding status acknowledged hstatus
  rcases h relation coordination binding status acknowledged hstatus with
    ⟨⟨entry, hentry, hstage⟩, hrelation, hcoordination, hbinding, hacknowledged⟩
  refine ⟨⟨entry, hsub hentry, hstage⟩, hrelation, hcoordination, hbinding, ?_⟩
  intro destination hdestination
  rcases hacknowledged destination hdestination with ⟨entry, hentry, haction⟩
  exact ⟨entry, hsub hentry, haction⟩

theorem State.Explained.takes {entry : JournalEntry} {next : State} (h : state.Explained past)
    (htakes : state.Takes maxBindings entry.action next) : next.Explained (past ++ [entry]) := by
  have hpast := h.mono (subset_append_left past [entry])
  have hlast : entry ∈ past ++ [entry] := mem_append_right past mem_cons_self
  intro relation coordination binding status acknowledged hstatus
  generalize haction : entry.action = action at htakes
  cases htakes with
  | first _ _ _ _ hstatuses | later _ _ _ _ _ _ _ hstatuses =>
    rw [hstatuses] at hstatus
    exact hpast relation coordination binding status acknowledged hstatus
  | stage _ _ _ _ _ _ _ _ _ _ hstatuses =>
    rw [hstatuses, getElem?_inserted] at hstatus
    split at hstatus
    next hkey =>
      rw [EmbeddingLike.apply_eq_iff_eq, Prod.mk.injEq] at hkey
      cases hstatus
      refine ⟨⟨entry, hlast, _, _, haction⟩, hkey.1, hkey.2, rfl, fun destination h => ?_⟩
      exact absurd h (Finset.notMem_empty destination)
    next => exact hpast relation coordination binding status acknowledged hstatus
  | acknowledge hstaged _ _ _ hstatuses =>
    rw [hstatuses, getElem?_inserted] at hstatus
    split at hstatus
    next hkey =>
      rw [EmbeddingLike.apply_eq_iff_eq, Prod.mk.injEq] at hkey
      rcases hkey with ⟨rfl, rfl⟩
      cases hstatus
      rcases hpast _ _ _ _ _ hstaged with
        ⟨hstage, hrelation, hcoordination, hbinding, hacknowledged⟩
      refine ⟨hstage, hrelation, hcoordination, hbinding, fun destination h => ?_⟩
      rcases Finset.mem_insert.mp h with rfl | h
      · exact ⟨entry, hlast, haction⟩
      · exact hacknowledged destination h
    next => exact hpast relation coordination binding status acknowledged hstatus
  | complete _ _ _ hstatuses =>
    rw [hstatuses, getElem?_inserted] at hstatus
    split at hstatus
    next =>
      cases hstatus
    next => exact hpast relation coordination binding status acknowledged hstatus

theorem State.explained_empty : State.empty.Explained [] := by
  intro relation coordination binding status acknowledged hstatus
  rw [State.empty, Std.ExtTreeMap.getElem?_empty] at hstatus
  cases hstatus

/-- A completion stands after the stage of its batch and an acknowledgement of
    each of its destinations. -/
theorem Replays.completed_last (h : Replays codec maxBindings state bytes entries last)
    (hpast : state.Explained past) {before after : List JournalEntry} {entry : JournalEntry}
    {binding : Digest} (hsplit : entries = before ++ entry :: after)
    (haction : entry.action = .complete relation coordination binding) :
    ∃ status, (∃ entry ∈ past ++ before, ∃ planBinding workBinding,
        entry.action = .stage planBinding workBinding status) ∧
      status.relation = relation ∧ status.coordination = coordination ∧
      status.statusBinding = binding ∧
      ∀ destination ∈ status.destinations, ∃ entry ∈ past ++ before,
        entry.action = .acknowledge relation coordination binding destination := by
  -- The induction is on the entries; those already read move to the past.
  induction h generalizing past before with
  | nil =>
    have hlength := congrArg List.length hsplit
    rw [length_append, length_cons, length_nil] at hlength
    omega
  | @cons state next last first chunk bytes rest hchunk hnext hrest ih =>
    rcases applyEntry_eq_ok hnext with ⟨_, _, _, _, _, htakes⟩
    cases before with
    | nil =>
      rw [nil_append, cons.injEq] at hsplit
      rw [hsplit.1, haction] at htakes
      rw [append_nil]
      cases htakes with
      | @complete _ _ _ _ status acknowledged hstaged hall =>
        rcases hpast _ _ _ _ _ hstaged with
          ⟨hstage, hrelation, hcoordination, hbinding, hacknowledged⟩
        refine ⟨status, hstage, hrelation, hcoordination, hbinding, fun destination h => ?_⟩
        unfold allDestinationsAcknowledged at hall
        rw [Bool.and_eq_true, all_eq_true] at hall
        exact hacknowledged destination (of_decide_eq_true (hall.2 destination h))
    | cons second before =>
      rw [cons_append, cons.injEq] at hsplit
      rcases hsplit with ⟨rfl, hsplit⟩
      have hnext := ih (hpast.takes htakes) hsplit
      rwa [append_assoc, singleton_append] at hnext

end Replaying

/-! ### The next delivery of each destination -/

/-- What stands for a destination while deliveries are noted: something open
    in the state, not newer than what was noted. -/
def Noted (pending : BTreeMap Digest PendingDelivery) (delivery : PendingDelivery) : Prop :=
  ∃ kept, pending[delivery.destination]? = some kept ∧
    kept.status.relation = delivery.status.relation ∧ kept.status.fence ≤ delivery.status.fence

section Pending

variable {state : State} {pending next : BTreeMap Digest PendingDelivery}
  {delivery other : PendingDelivery}

section

variable (h : noteDelivery pending delivery = .ok next)

include h

/-- Noting a delivery keeps an older one, or puts it in. -/
theorem noteDelivery_eq_ok :
    (next = pending ∧ Noted pending delivery) ∨
      (next = pending.insert delivery.destination delivery ∧
        ∀ kept, pending[delivery.destination]? = some kept →
          kept.status.relation = delivery.status.relation ∧
          delivery.status.fence ≤ kept.status.fence) := by
  unfold noteDelivery at h
  split at h
  next hnone =>
    rw [Except.ok.injEq] at h
    refine Or.inr ⟨h.symm, fun kept hkept => ?_⟩
    rw [hnone] at hkept
    cases hkept
  next existing hexisting =>
    repeat' split at h
    all_goals first
      | exact absurd h (by simp only [reduceCtorEq, not_false_eq_true])
      | rw [Except.ok.injEq] at h
    next hrelation hfence hless =>
      exact Or.inl ⟨h.symm, existing, hexisting, not_not.mp hrelation, hless.le⟩
    next hrelation hfence hless =>
      refine Or.inr ⟨h.symm, fun kept hkept => ?_⟩
      cases hexisting.symm.trans hkept
      exact ⟨not_not.mp hrelation, Nat.le_of_not_lt hless⟩

theorem noted_of_note : Noted next delivery := by
  rcases noteDelivery_eq_ok h with ⟨rfl, hnoted⟩ | ⟨rfl, _⟩
  · exact hnoted
  · refine ⟨delivery, ?_, rfl, le_refl _⟩
    rw [getElem?_inserted, if_pos rfl]

theorem Noted.note (hnoted : Noted pending other) : Noted next other := by
  rcases noteDelivery_eq_ok h with ⟨rfl, _⟩ | ⟨rfl, hkept⟩
  · exact hnoted
  rcases hnoted with ⟨kept, hget, hrelation, hfence⟩
  by_cases hsame : delivery.destination = other.destination
  · rcases hkept kept (hsame ▸ hget) with ⟨hrelation', hfence'⟩
    refine ⟨delivery, ?_, hrelation'.symm.trans hrelation, hfence'.trans hfence⟩
    rw [getElem?_inserted, if_pos hsame]
  · refine ⟨kept, ?_, hrelation, hfence⟩
    rw [getElem?_inserted, if_neg hsame]
    exact hget

/-- A batch that is staged and open for its destination. -/
def State.Staged (state : State) (delivery : PendingDelivery) : Prop :=
  ∃ (key : StatusKey) (binding : Digest) (acknowledged : Finset Digest),
    state.statuses[key]? = some (.staged binding delivery.status acknowledged) ∧
    delivery.destination ∈ delivery.status.destinations ∧ delivery.destination ∉ acknowledged

/-- Everything in the map stands under its destination and has a property. -/
def Holding (property : PendingDelivery → Prop) (pending : BTreeMap Digest PendingDelivery) :
    Prop :=
  ∀ destination delivery, pending[destination]? = some delivery →
    delivery.destination = destination ∧ property delivery

theorem Holding.note {property : PendingDelivery → Prop} (hholding : Holding property pending)
    (hproperty : property delivery) : Holding property next := by
  rcases noteDelivery_eq_ok h with ⟨rfl, _⟩ | ⟨rfl, _⟩
  · exact hholding
  intro destination found hfound
  rw [getElem?_inserted] at hfound
  split at hfound
  next hsame =>
    cases hfound
    exact ⟨hsame, hproperty⟩
  next => exact hholding destination found hfound

end

theorem mem_of_firstOfShard {seen : List UInt8} {deliveries : List PendingDelivery}
    (h : delivery ∈ firstOfShard seen deliveries) : delivery ∈ deliveries := by
  induction deliveries generalizing seen with
  | nil => exact h
  | cons first rest ih =>
    unfold firstOfShard at h
    split at h
    next => exact mem_cons_of_mem first (ih h)
    next =>
      rcases mem_cons.mp h with rfl | h
      · exact mem_cons_self
      · exact mem_cons_of_mem first (ih h)

/-- The open destinations of a status. -/
def StoredStatusState.deliveries : StoredStatusState → List PendingDelivery
  | .staged _ status acknowledged =>
    (status.destinations.filter (fun destination => decide (destination ∉ acknowledged))).map
      (fun destination => ⟨status, destination⟩)
  | .completed _ => []

variable {status : StoredStatusState}

/-- Noting a status notes its open destinations, one after the other. -/
theorem noteStatus_eq_ok (h : noteStatus state pending status = .ok next) :
    status.deliveries.foldlM noteDelivery pending = .ok next := by
  unfold noteStatus at h
  split at h
  next => exact h
  next =>
  split at h
  next => cases h
  next =>
    rw [StoredStatusState.deliveries, foldlM_map]
    exact h

/-- Every open destination of a status is noted. -/
def AllNoted (pending : BTreeMap Digest PendingDelivery) (status : StoredStatusState) : Prop :=
  ∀ delivery ∈ status.deliveries, Noted pending delivery

theorem allNoted_of_note (h : noteStatus state pending status = .ok next) : AllNoted next status :=
  foldlM_establishes (fun _ _ _ _ h => noted_of_note h)
    (fun _ _ _ _ _ hbefore h => hbefore.note h) (noteStatus_eq_ok h)

theorem AllNoted.note {noted : StoredStatusState} (hnoted : AllNoted pending noted)
    (h : noteStatus state pending status = .ok next) : AllNoted next noted :=
  @foldlM_invariant _ _ _ noteDelivery (AllNoted · noted) _ _ _
    (fun _ _ _ _ hbefore h other hother => (hbefore other hother).note h) hnoted
    (noteStatus_eq_ok h)

/-- A delivery is staged when it is one of the open destinations of a status. -/
theorem staged_iff_mem_deliveries :
    state.Staged delivery ↔
      ∃ status ∈ state.statuses.toList.map Prod.snd, delivery ∈ status.deliveries := by
  constructor
  · rintro ⟨key, binding, acknowledged, hstatus, hnamed, hopen⟩
    refine ⟨.staged binding delivery.status acknowledged, ?_, ?_⟩
    · exact mem_map.mpr ⟨(key, _), (mem_toList _ _ _).mpr hstatus, rfl⟩
    · refine mem_map.mpr ⟨delivery.destination, ?_, rfl⟩
      exact mem_filter.mpr ⟨hnamed, decide_eq_true hopen⟩
  · rintro ⟨status, hstatus, hmem⟩
    rw [mem_map] at hstatus
    rcases hstatus with ⟨⟨key, _⟩, hentry, rfl⟩
    rw [mem_toList] at hentry
    unfold StoredStatusState.deliveries at hmem
    split at hmem
    next binding status acknowledged heq =>
      rw [mem_map] at hmem
      rcases hmem with ⟨destination, hdestination, rfl⟩
      rw [mem_filter, decide_eq_true_eq] at hdestination
      dsimp only at heq
      rw [heq] at hentry
      exact ⟨key, binding, acknowledged, hentry, hdestination.1, hdestination.2⟩
    next => cases hmem

/-- What is offered is staged and open, and nothing older is open for its
    destination, in whatever relation. -/
theorem pendingDeliveries_spec {deliveries : List PendingDelivery}
    (h : pendingDeliveries state = .ok deliveries) (hdelivery : delivery ∈ deliveries) :
    state.Staged delivery ∧ ∀ other, state.Staged other →
      other.destination = delivery.destination → delivery.status.relation = other.status.relation ∧
        delivery.status.fence ≤ other.status.fence := by
  unfold pendingDeliveries at h
  rw [bind_eq_ok] at h
  rcases h with ⟨pending, hpending, h⟩
  cases h
  have hmem := mem_of_firstOfShard hdelivery
  rw [mem_sortBy, mem_map] at hmem
  rcases hmem with ⟨⟨destination, found⟩, hfound, rfl⟩
  rw [mem_toList] at hfound
  have hholding : Holding state.Staged pending := by
    refine foldlM_invariant (fun status hstatus pending next hbefore hnote => ?_) ?_
      hpending
    · refine foldlM_invariant (fun delivery hdelivery pending next hbefore hnote => ?_)
        hbefore (noteStatus_eq_ok hnote)
      exact hbefore.note hnote (staged_iff_mem_deliveries.mpr ⟨status, hstatus, hdelivery⟩)
    · intro destination delivery h
      rw [Std.ExtTreeMap.getElem?_empty] at h
      cases h
  have hnoted : ∀ status ∈ state.statuses.toList.map Prod.snd, AllNoted pending status :=
    foldlM_establishes (fun _ _ _ _ h => allNoted_of_note h)
      (fun _ _ _ _ _ hbefore h => hbefore.note h) hpending
  rcases hholding destination found hfound with ⟨hdestination, hstaged⟩
  refine ⟨hstaged, fun other hother hsame => ?_⟩
  rcases staged_iff_mem_deliveries.mp hother with ⟨status, hstatus, hmem⟩
  rcases hnoted status hstatus other hmem with ⟨kept, hkept, hrelation, hfence⟩
  rw [hsame, hdestination, hfound, Option.some.injEq] at hkept
  subst hkept
  exact ⟨hrelation, hfence⟩

end Pending

end Relations

end Amiss
