import Amiss.Theory.Relations.Deliveries
import Amiss.Theory.Relations.Runs

/-!
# Runs of the Status Outbox

The order in which status updates reach a destination, over whole runs. A
worker selects under the lock of a shard and keeps the lock until its claim is
acknowledged or dropped, so between a selection and its claim nobody else
claims or acknowledges for that destination. `Delivering` is the invariant: it
ties what the workers hold and what was seen so far to the committed state, and
it is kept by every step of every process.

The target of a claim is put together from the operator's registry, which
gives an outside destination to one relation. That makes fences comparable:
all claims for a destination carry fences of the same relation.

## Main definitions

* `Claims`: What a claim has to do with the delivery that was selected.
* `InOrder`: What is asked of a claim, given all that was seen before it.
* `Delivering`: The invariant.

## Theorems

* `relationRegistry_unique`: A destination belongs to one relation.
* `claimOf_eq_ok`: What a claim is made of.
* `Delivering.offer`: What is selected may be claimed.
* `World.Step.delivers`, `World.Run.delivers`: The invariant along a run.
* `outbox_delivers_in_order`: The order of deliveries.
-/

namespace Amiss

open Except

open List

open Fallible

namespace Relations

/-! ### Destinations of the registry -/

/-- The plan names the outside destination. -/
def Names (plan : RegisteredRelation) (identity : DestinationIdentity) : Prop :=
  ∃ destination ∈ plan.statusDestinations, planDestination plan destination = some identity

/-- No destination is named by both plans. -/
def Apart (left right : RegisteredRelation) : Prop :=
  ∀ identity, Names left identity → ¬ Names right identity

instance : Std.Symm Apart := ⟨fun _ _ h identity hleft hright => h identity hright hleft⟩

section Registry

variable {plan : RegisteredRelation} {seen after : Finset DestinationIdentity}

theorem bindDestination_eq_ok {destination : RelationStatusDestination}
    (h : bindDestination plan seen destination = .ok after) :
    ∃ identity, planDestination plan destination = some identity ∧ identity ∉ seen ∧
      after = insert identity seen := by
  unfold bindDestination at h
  split at h
  next => cases h
  next identity hidentity =>
    rw [guard_eq_ok, ok.injEq] at h
    exact ⟨identity, hidentity, h.1, h.2.symm⟩

/-- Binding the destinations of a plan adds them, and they were new. -/
theorem bindDestinations_eq_ok {destinations : List RelationStatusDestination}
    (h : destinations.foldlM (bindDestination plan) seen = .ok after) :
    seen ⊆ after ∧ ∀ destination ∈ destinations, ∀ identity,
      planDestination plan destination = some identity → identity ∉ seen ∧ identity ∈ after := by
  induction destinations generalizing seen with
  | nil =>
    rw [foldlM_nil, pure_eq_ok, ok.injEq] at h
    exact ⟨h ▸ Finset.Subset.refl seen, fun destination h => absurd h not_mem_nil⟩
  | cons first rest ih =>
    rw [foldlM_cons, bind_eq_ok] at h
    rcases h with ⟨mid, hmid, hrest⟩
    rcases bindDestination_eq_ok hmid with ⟨identity, hidentity, hfresh, rfl⟩
    rcases ih hrest with ⟨hsub, hnew⟩
    refine ⟨(Finset.subset_insert identity seen).trans hsub, ?_⟩
    intro destination hmem named hnamed
    rcases mem_cons.mp hmem with rfl | hmem
    · cases hidentity.symm.trans hnamed
      exact ⟨hfresh, hsub (Finset.mem_insert_self ..)⟩
    · rcases hnew destination hmem named hnamed with ⟨hnot, hin⟩
      exact ⟨fun h => hnot (Finset.mem_insert_of_mem h), hin⟩

/-- Binding one plan after the other: no two of them name one destination. -/
theorem bindPlans_eq_ok {plans : List RegisteredRelation}
    {bound last : List (OpaqueId × (ProviderIdentity × OpaqueId)) × Finset DestinationIdentity}
    (h : plans.foldlM bindPlan bound = .ok last) :
    (∀ plan ∈ plans, ∀ identity, Names plan identity → identity ∉ bound.2) ∧
      plans.Pairwise Apart := by
  induction plans generalizing bound with
  | nil => exact ⟨fun plan h => absurd h not_mem_nil, List.Pairwise.nil⟩
  | cons first rest ih =>
    rw [foldlM_cons, bind_eq_ok] at h
    rcases h with ⟨mid, hmid, hrest⟩
    unfold bindPlan at hmid
    simp only [bind_eq_ok, ok.injEq] at hmid
    rcases hmid with ⟨credentials, _, destinations, hdestinations, rfl⟩
    rcases bindDestinations_eq_ok hdestinations with ⟨hsub, hnew⟩
    rcases ih hrest with ⟨hfresh, hpairwise⟩
    refine ⟨?_, List.Pairwise.cons ?_ hpairwise⟩
    · intro plan hmem identity hnames
      rcases mem_cons.mp hmem with rfl | hmem
      · rcases hnames with ⟨destination, hdestination, hidentity⟩
        exact (hnew destination hdestination identity hidentity).1
      · exact fun hbound => hfresh plan hmem identity hnames (hsub hbound)
    · intro plan hmem identity hfirst hnames
      rcases hfirst with ⟨destination, hdestination, hidentity⟩
      exact hfresh plan hmem identity hnames
        (hnew destination hdestination identity hidentity).2

end Registry

/-- An outside destination belongs to one relation of the registry. -/
theorem relationRegistry_unique {plans : List RegisteredRelation} {registry : RelationRegistry}
    (h : relationRegistry plans = .ok registry) {left right : ArtifactId}
    {plan plan' : RegisteredRelation} {identity : DestinationIdentity}
    (hleft : registry.plans[left]? = some plan) (hright : registry.plans[right]? = some plan')
    (hnames : Names plan identity) (hnames' : Names plan' identity) : left = right := by
  unfold relationRegistry at h
  simp only [guard_eq_ok, bind_eq_ok, ok.injEq] at h
  rcases h with ⟨_, _, _, _, _, hbound, rfl⟩
  have hmem : ∀ {identity plan}, (List.foldl (fun (map : BTreeMap ArtifactId _) plan =>
      map.insert plan.identity plan) ∅ (sortBy (·.identity) (plans.map sortedPlan)))[identity]? =
        some plan → plan ∈ sortBy (·.identity) (plans.map sortedPlan) ∧
          plan.identity = identity := by
    intro identity plan hget
    rcases of_getElem?_foldl_insert _ _ hget with ⟨found, hfound, hkey, rfl⟩
    exact ⟨hfound, hkey⟩
  rcases hmem hleft with ⟨hin, rfl⟩
  rcases hmem hright with ⟨hin', rfl⟩
  by_contra hne
  have happart : Apart plan plan' :=
    (bindPlans_eq_ok hbound).2.forall hin hin' (fun heq => hne (congrArg _ heq))
  exact happart identity hnames hnames'

/-! ### Claims -/

section Claims

variable {codec : OutboxCodec} {registry : RelationRegistry} {artifacts : Artifacts}

/-- The target of a destination is what the plan says it is outside. -/
theorem statusTarget_identity {transition : RelationTransition}
    {destination : RelationStatusDestination} {target : RelationStatusTarget}
    (h : statusTarget transition destination = .ok target) :
    planDestination transition.relation.plan destination = some target.identity := by
  unfold statusTarget at h
  split at h
  next subject frozen hsubject _ =>
    cases h
    unfold planDestination
    rw [hsubject]
    rfl
  next => cases h

/-- The targets of a batch are destinations of its plan. -/
theorem relationStatusTargets_names {pending : PendingRelation}
    {heads : RelationSubjectHead × RelationSubjectHead} {targets : RelationStatusTargets}
    (h : relationStatusTargets pending heads = .ok targets) {target : RelationStatusTarget}
    (htarget : target ∈ targets.destinations) :
    Names pending.transition.relation.plan target.identity := by
  unfold relationStatusTargets at h
  split at h
  next => cases h
  next transition hchecked =>
  simp only [guard_eq_ok, bind_eq_ok, ok.injEq] at h
  rcases h with ⟨_, _, destinations, hdestinations, rfl⟩
  rw [mem_sortBy, mem_of_mapM hdestinations] at htarget
  rcases htarget with ⟨destination, hdestination, htarget⟩
  rcases relationTransition_eq_some.mp hchecked with ⟨_, _, _, rfl⟩
  have hidentity := statusTarget_identity htarget
  exact ⟨destination, hdestination, hidentity⟩

variable {record : RelationStatusRecord}

/-- A staged batch has the targets of its work. -/
theorem stageRelationStatus_targets {pending : PendingRelation}
    {current : Option PendingRelation} {heads : RelationSubjectHead × RelationSubjectHead}
    {previous : Option RelationStatusRecord} {audit : ArtifactAuditReference}
    {bundle : RelationAuditBundle}
    (h : stageRelationStatus codec pending current heads previous audit bundle =
      .ok (some record)) : relationStatusTargets pending heads = .ok record.targets := by
  unfold stageRelationStatus at h
  rw [guard_eq_ok, bind_eq_ok] at h
  rcases h with ⟨_, targets, htargets, h⟩
  rw [htargets]
  rw [guard_eq_ok] at h
  rcases h with ⟨_, h⟩
  split at h
  next => cases h
  next =>
  rw [guard_eq_ok] at h
  rcases h with ⟨_, h⟩
  cases previous with
  | none =>
    dsimp only at h
    rw [ok.injEq, Option.some.injEq] at h
    exact h ▸ rfl
  | some previous =>
    -- What was staged before is handed back only if it has the same targets.
    rw [guard_eq_ok, not_or, not_not, ok.injEq, Option.ite_none_left_eq_some] at h
    rcases h with ⟨⟨hsame, _⟩, _, h⟩
    cases h
    rw [hsame]

theorem storeStatus_eq_ok {stored : StoredStatus} (h : storeStatus codec record = .ok stored) :
    stored.relation = record.targets.relation ∧ stored.coordination = record.targets.coordination ∧
      stored.fence = record.targets.fence.raw := by
  unfold storeStatus at h
  simp only [guard_eq_ok, bind_eq_ok, ok.injEq] at h
  rcases h with ⟨_, _, _, _, _, _, _, rfl⟩
  exact ⟨rfl, rfl, rfl⟩

/-- A batch that was put together again is stored as it was, and its targets
    are destinations of the registered plan. -/
theorem reopenStatus_eq_ok {stored : StoredStatus} {bound : Digest}
    (h : reopenStatus codec registry artifacts stored bound = .ok record) :
    storeStatus codec record = .ok stored ∧ ∃ plan, registry.plans[stored.relation]? = some plan ∧
      ∀ target ∈ record.targets.destinations, Names plan target.identity := by
  unfold reopenStatus at h
  rw [bind_eq_ok] at h
  rcases h with ⟨_, _, h⟩
  split at h
  next => cases h
  next plan hplan =>
  simp only [guard_eq_ok, bind_eq_ok] at h
  rcases h with ⟨digest, _, _, retained, _, parsed, _, _, transition, htransition, fence, _, left,
    _, right, _, audit, _, h⟩
  rw [orCorrupt_eq_ok, relationTransition_eq_some] at htransition
  rcases htransition with ⟨_, _, _, rfl⟩
  split at h
  next staged hstaged =>
    simp only [ok_bind, bind_eq_ok, guard_eq_ok, ne_eq, not_not, ok.injEq] at h
    rcases h with ⟨again, hagain, rfl, rfl⟩
    refine ⟨hagain, plan, hplan, fun target htarget => ?_⟩
    exact relationStatusTargets_names (stageRelationStatus_targets hstaged) htarget
  next => cases h

/-- The target found for a destination is in the list and has its digest. -/
theorem claimTarget_eq_ok {destination : Digest} {targets : List RelationStatusTarget}
    {target : RelationStatusTarget} (h : claimTarget codec destination targets = .ok target) :
    target ∈ targets ∧ destinationBinding codec target = .ok destination := by
  unfold claimTarget at h
  rw [bind_eq_ok] at h
  rcases h with ⟨found, hfound, h⟩
  rw [orCorrupt_eq_ok] at h
  subst h
  have hall : ∀ target', some target = some target' →
      target' ∈ targets ∧ destinationBinding codec target' = .ok destination := by
    refine @foldlM_invariant _ _ _ _ (fun found : Option RelationStatusTarget =>
      ∀ target, found = some target →
        target ∈ targets ∧ destinationBinding codec target = .ok destination) _ _ _ ?_ ?_ hfound
    · intro candidate hcandidate found next hbefore hstep
      rw [bind_eq_ok] at hstep
      rcases hstep with ⟨binding, hbinding, hstep⟩
      repeat' split at hstep
      all_goals first
        | exact absurd hstep (by simp only [reduceCtorEq, not_false_eq_true])
        | rw [ok.injEq] at hstep
      next hsame _ =>
        subst hstep hsame
        intro target htarget
        cases htarget
        exact ⟨hcandidate, hbinding⟩
      next => exact hstep ▸ hbefore
    · intro target htarget
      exact absurd htarget (by simp)
  exact hall target rfl

/-- The batch a claim is for. -/
def RelationStatusDeliveryClaim.key (claim : RelationStatusDeliveryClaim) : StatusKey :=
  toLex (claim.status.targets.relation, claim.status.targets.coordination)

def PendingDelivery.key (delivery : PendingDelivery) : StatusKey :=
  toLex (delivery.status.relation, delivery.status.coordination)

/-- A claim is for the delivery that was selected, and its target is the one
    the registry has for the relation. -/
structure Claims (codec : OutboxCodec) (registry : RelationRegistry) (delivery : PendingDelivery)
    (claim : RelationStatusDeliveryClaim) : Prop where
  relation : claim.status.targets.relation = delivery.status.relation
  coordination : claim.status.targets.coordination = delivery.status.coordination
  fence : claim.status.targets.fence.raw = delivery.status.fence
  destination : claim.destinationBinding = delivery.destination
  bound : destinationBinding codec claim.target = .ok claim.destinationBinding
  named : ∃ plan, registry.plans[claim.status.targets.relation]? = some plan ∧
    Names plan claim.target.identity

theorem claimOf_eq_ok {delivery : PendingDelivery} {loaded : Option (StoredStatus × Digest)}
    {claim : RelationStatusDeliveryClaim}
    (h : claimOf codec registry artifacts delivery loaded = .ok claim) :
    Claims codec registry delivery claim := by
  unfold claimOf at h
  rw [bind_eq_ok] at h
  rcases h with ⟨⟨stored, bound⟩, _, h⟩
  simp only [guard_eq_ok, bind_eq_ok, ne_eq, not_not, ok.injEq] at h
  rcases h with ⟨rfl, status, hstatus, target, htarget, rfl⟩
  rcases reopenStatus_eq_ok hstatus with ⟨hstored, plan, hplan, hnames⟩
  rcases storeStatus_eq_ok hstored with ⟨hrelation, hcoordination, hfence⟩
  rcases claimTarget_eq_ok htarget with ⟨hmem, hbinding⟩
  exact ⟨hrelation.symm, hcoordination.symm, hfence.symm, rfl, hbinding, plan,
    hrelation ▸ hplan, hnames target hmem⟩

/-- Claims for one outside destination are for one relation, and for one
    destination of its batches. -/
theorem Claims.same {plans : List RegisteredRelation}
    (hregistry : relationRegistry plans = .ok registry) {left right : PendingDelivery}
    {claim claim' : RelationStatusDeliveryClaim} (h : Claims codec registry left claim)
    (h' : Claims codec registry right claim')
    (hidentity : claim.target.identity = claim'.target.identity) :
    claim.status.targets.relation = claim'.status.targets.relation ∧
      claim.destinationBinding = claim'.destinationBinding := by
  rcases h.named with ⟨plan, hplan, hnames⟩
  rcases h'.named with ⟨plan', hplan', hnames'⟩
  refine ⟨relationRegistry_unique hregistry hplan hplan' hnames (hidentity ▸ hnames'), ?_⟩
  have hbound := h.bound
  have hbound' := h'.bound
  unfold destinationBinding at hbound hbound'
  rw [hidentity, hbound', ok.injEq] at hbound
  exact hbound.symm

end Claims

/-! ### What is offered -/

/-- No claim so far comes after this one, and nothing so far acknowledged it. -/
structure InOrder (before : List Event) (claim : RelationStatusDeliveryClaim) : Prop where
  claims : ∀ worker earlier, .claimed worker earlier ∈ before →
    earlier.target.identity = claim.target.identity →
      earlier.status.targets.relation = claim.status.targets.relation ∧
      (earlier.status.targets.fence.raw < claim.status.targets.fence.raw ∨
        (earlier.key = claim.key ∧
          earlier.status.targets.fence.raw = claim.status.targets.fence.raw))
  acknowledgements : ∀ worker earlier, .acknowledged worker earlier ∈ before →
    earlier.key = claim.key → earlier.destinationBinding ≠ claim.destinationBinding

/-- What having offered a delivery settles for good. -/
structure Settled (state : State) (delivery : PendingDelivery) : Prop where
  served : state.Served delivery.status.relation delivery.destination delivery.status.fence
  bound : ∃ binding,
    state.bindingOf delivery.status.relation delivery.status.coordination = some binding ∧
      binding.fence = delivery.status.fence

/-- A delivery that may be claimed next, as far as is known so far. -/
structure Offer (state : State) (events : List Event) (delivery : PendingDelivery) : Prop where
  settled : Settled state delivery
  claims : ∀ worker claim, .claimed worker claim ∈ events →
    claim.destinationBinding = delivery.destination →
    claim.status.targets.relation = delivery.status.relation →
      claim.status.targets.fence.raw < delivery.status.fence ∨
        (claim.key = delivery.key ∧ claim.status.targets.fence.raw = delivery.status.fence)
  acknowledgements : ∀ worker claim, .acknowledged worker claim ∈ events →
    claim.key = delivery.key → claim.destinationBinding ≠ delivery.destination

/-- What holds of the workers, of what was seen and of the state at any time. -/
structure Delivering (codec : OutboxCodec) (registry : RelationRegistry) (workers : Nat → Worker)
    (events : List Event) (state : State) : Prop where
  exclusive : ∀ left right shard, (workers left).lock = some shard →
    (workers right).lock = some shard → left = right
  selected : ∀ worker candidate delivery, workers worker = .selected candidate delivery →
    delivery.shard = candidate.shard ∧ Offer state events delivery
  holding : ∀ worker candidate claim, workers worker = .holding candidate claim →
    shardOf claim.destinationBinding = candidate.shard
  claimed : ∀ worker claim, .claimed worker claim ∈ events →
    ∃ delivery, Claims codec registry delivery claim ∧ Settled state delivery
  acknowledged : ∀ worker claim, .acknowledged worker claim ∈ events →
    state.Closed claim.key claim.destinationBinding
  ordered : ∀ before worker claim after, events = before ++ .claimed worker claim :: after →
    InOrder before claim

section Offers

variable {codec : OutboxCodec} {registry : RelationRegistry} {maxBindings : Nat}
  {workers : Nat → Worker} {events : List Event} {state state' : State} {bytes : Bytes}
  {more : List JournalEntry} {delivery : PendingDelivery}

theorem Settled.grow (h : Settled state delivery)
    (hmore : Replays codec maxBindings state bytes more state') : Settled state' delivery := by
  rcases h.bound with ⟨binding, hbinding, hfence⟩
  exact ⟨hmore.served h.served, binding, hmore.keeps_binding hbinding, hfence⟩

theorem Offer.grow (h : Offer state events delivery)
    (hmore : Replays codec maxBindings state bytes more state') :
    Offer state' events delivery :=
  ⟨h.settled.grow hmore, h.claims, h.acknowledgements⟩

section

variable (h : Delivering codec registry workers events state)

include h

theorem Delivering.grow (hmore : Replays codec maxBindings state bytes more state') :
    Delivering codec registry workers events state' where
  exclusive := h.exclusive
  selected := by
    intro worker candidate delivery hworker
    rcases h.selected worker candidate delivery hworker with ⟨hshard, hoffer⟩
    exact ⟨hshard, hoffer.grow hmore⟩
  holding := h.holding
  claimed := by
    intro worker claim hclaim
    rcases h.claimed worker claim hclaim with ⟨delivery, hclaims, hsettled⟩
    exact ⟨delivery, hclaims, hsettled.grow hmore⟩
  acknowledged := fun worker claim hclaim => hmore.closed (h.acknowledged worker claim hclaim)
  ordered := h.ordered

/-- One worker moves on. It may keep its lock or take a free one, and what it
    selects or holds is as it should be. -/
theorem Delivering.update (worker : Nat) (value : Worker)
    (hlock : ∀ shard, value.lock = some shard → (workers worker).lock = some shard ∨
      ∀ other, (workers other).lock ≠ some shard)
    (hselected : ∀ candidate delivery, value = .selected candidate delivery →
      delivery.shard = candidate.shard ∧ Offer state events delivery)
    (hholding : ∀ candidate claim, value = .holding candidate claim →
      shardOf claim.destinationBinding = candidate.shard) :
    Delivering codec registry (Function.update workers worker value) events state where
  exclusive := by
    intro left right shard hleft hright
    rw [Function.update_apply] at hleft hright
    split at hleft
    next hl =>
      split at hright
      next hr => exact hl.trans hr.symm
      next =>
        rcases hlock shard hleft with hkept | hfree
        · exact hl.trans (h.exclusive worker right shard hkept hright)
        · exact absurd hright (hfree right)
    next =>
      split at hright
      next hr =>
        rcases hlock shard hright with hkept | hfree
        · exact (h.exclusive left worker shard hleft hkept).trans hr.symm
        · exact absurd hleft (hfree left)
      next => exact h.exclusive left right shard hleft hright
  selected := by
    intro other candidate delivery hother
    rw [Function.update_apply] at hother
    split at hother
    next => exact hselected candidate delivery hother
    next => exact h.selected other candidate delivery hother
  holding := by
    intro other candidate claim hother
    rw [Function.update_apply] at hother
    split at hother
    next => exact hholding candidate claim hother
    next => exact h.holding other candidate claim hother
  claimed := h.claimed
  acknowledged := h.acknowledged
  ordered := h.ordered

/-- A worker gives up its lock, if it has one. -/
theorem Delivering.release (worker : Nat) {value : Worker} (hvalue : value.lock = none) :
    Delivering codec registry (Function.update workers worker value) events state := by
  refine h.update worker value (fun shard hshard => ?_) ?_ ?_
  · rw [hvalue] at hshard
    cases hshard
  · rintro candidate delivery rfl
    cases hvalue
  · rintro candidate claim rfl
    cases hvalue

end

/-- The claim an event is about, where it matters here. -/
def Event.concerns : Event → Option (Nat × RelationStatusDeliveryClaim)
  | .claimed worker claim | .acknowledged worker claim => some (worker, claim)
  | .scheduled .. | .current .. | .dropped .. | .quiet => none

/-- One more event. What it says of a claim is said by the worker that holds
    it, so it is about no delivery that another one has selected. -/
theorem Delivering.push (h : Delivering codec registry workers events state) (event : Event)
    (hholds : ∀ worker claim, event.concerns = some (worker, claim) →
      ∃ candidate, workers worker = .holding candidate claim)
    (hclaimed : ∀ worker claim, event = .claimed worker claim →
      (∃ delivery, Claims codec registry delivery claim ∧ Settled state delivery) ∧
        InOrder events claim)
    (hacknowledged : ∀ worker claim, event = .acknowledged worker claim →
      state.Closed claim.key claim.destinationBinding) :
    Delivering codec registry workers (events ++ [event]) state := by
  -- Two workers with different locks have nothing to do with each other.
  have hapart : ∀ other candidate delivery, workers other = .selected candidate delivery →
      delivery.shard = candidate.shard → ∀ worker claim, event.concerns = some (worker, claim) →
        claim.destinationBinding ≠ delivery.destination := by
    intro other candidate delivery hother hshard worker claim hevent hsame
    rcases hholds worker claim hevent with ⟨held, hworker⟩
    have hheld := h.holding worker held claim hworker
    have hlock : (workers worker).lock = some candidate.shard := by
      rw [hworker, Worker.lock, ← hheld, hsame, ← hshard]
      rfl
    have hlock' : (workers other).lock = some candidate.shard := by
      rw [hother]
      rfl
    have heq := h.exclusive worker other candidate.shard hlock hlock'
    rw [heq, hother] at hworker
    cases hworker
  refine ⟨h.exclusive, ?_, h.holding, ?_, ?_, ?_⟩
  · intro other candidate delivery hother
    rcases h.selected other candidate delivery hother with ⟨hshard, hoffer⟩
    have hnew := hapart other candidate delivery hother hshard
    refine ⟨hshard, hoffer.settled, ?_, ?_⟩
    · intro worker claim hmem hdestination
      rcases mem_append.mp hmem with hmem | hmem
      · exact hoffer.claims worker claim hmem hdestination
      · rw [mem_singleton] at hmem
        exact absurd hdestination (hnew worker claim (hmem ▸ rfl))
    · intro worker claim hmem hkey
      rcases mem_append.mp hmem with hmem | hmem
      · exact hoffer.acknowledgements worker claim hmem hkey
      · rw [mem_singleton] at hmem
        exact hnew worker claim (hmem ▸ rfl)
  · intro worker claim hmem
    rcases mem_append.mp hmem with hmem | hmem
    · exact h.claimed worker claim hmem
    · exact (hclaimed worker claim (mem_singleton.mp hmem).symm).1
  · intro worker claim hmem
    rcases mem_append.mp hmem with hmem | hmem
    · exact h.acknowledged worker claim hmem
    · exact hacknowledged worker claim (mem_singleton.mp hmem).symm
  · intro before worker claim after hsplit
    rcases eq_nil_or_concat after with rfl | ⟨front, last, rfl⟩
    · -- The claim is the event itself.
      rcases append_inj' hsplit rfl with ⟨rfl, hlast⟩
      rw [cons.injEq] at hlast
      exact (hclaimed worker claim hlast.1).2
    · rw [concat_eq_append, ← cons_append, ← append_assoc] at hsplit
      rcases append_inj' hsplit rfl with ⟨hfront, _⟩
      exact h.ordered before worker claim front hfront

theorem Delivering.quiet (h : Delivering codec registry workers events state) {event : Event}
    (hevent : event.concerns = none) :
    Delivering codec registry workers (events ++ [event]) state := by
  refine h.push event (fun worker claim hsome => ?_) ?_ ?_
  · rw [hevent] at hsome
    cases hsome
  · rintro worker claim rfl
    cases hevent
  · rintro worker claim rfl
    cases hevent

/-- A staged delivery of an ordered state is open under its own key, with the
    fence its coordination was admitted with. -/
theorem State.Staged.opened (hordered : state.Ordered) (h : state.Staged delivery) :
    state.Open delivery.key delivery.destination ∧ ∃ binding,
      state.bindingOf delivery.status.relation delivery.status.coordination = some binding ∧
        binding.fence = delivery.status.fence := by
  rcases h with ⟨key, binding, acknowledged, hstatus, hnamed, hopen⟩
  rcases hordered.staged key binding delivery.status acknowledged hstatus with ⟨rfl, _, hbound⟩
  exact ⟨⟨binding, delivery.status, acknowledged, hstatus, hnamed, hopen⟩, hbound⟩

/-- What is selected may be claimed. -/
theorem Delivering.offer (h : Delivering codec registry workers events state)
    (hordered : state.Ordered) {deliveries : List PendingDelivery}
    (hpending : pendingDeliveries state = .ok deliveries) (hdelivery : delivery ∈ deliveries) :
    Offer state events delivery := by
  rcases pendingDeliveries_spec hpending hdelivery with ⟨hstaged, holdest⟩
  rcases hstaged.opened hordered with ⟨hopen, binding, hbinding, hfence⟩
  refine ⟨⟨⟨?_, ?_⟩, binding, hbinding, hfence⟩, ?_, ?_⟩
  · rcases hordered.latest _ _ binding hbinding with ⟨current, hcurrent, hle⟩
    exact ⟨current, hcurrent, hfence ▸ hle⟩
  · intro coordination older holder hlt holderOpen
    rcases holderOpen with ⟨bound, status, acknowledged, hstatus, hnamed, hunacknowledged⟩
    rcases hordered.staged _ bound status acknowledged hstatus with ⟨hkey, _, stored, hstored, heq⟩
    rw [EmbeddingLike.apply_eq_iff_eq, Prod.mk.injEq] at hkey
    rcases hkey with ⟨hrelation, rfl⟩
    rw [← hrelation, holder, Option.some.injEq] at hstored
    subst hstored
    have hle := (holdest ⟨status, delivery.destination⟩
      ⟨_, bound, acknowledged, hstatus, hnamed, hunacknowledged⟩ rfl).2
    dsimp only at hle
    omega
  · intro worker claim hclaim hdestination hrelation
    rcases h.claimed worker claim hclaim with ⟨earlier, hclaims, hsettled⟩
    rcases hsettled.bound with ⟨stored, hstored, heq⟩
    rw [hclaims.fence]
    rw [hclaims.relation] at hrelation
    rw [hclaims.destination] at hdestination
    have hserved := hsettled.served
    rw [hrelation, hdestination] at hserved
    rw [hrelation] at hstored
    -- Below the earlier fence nothing is open, so this delivery is not below it.
    have hle : earlier.status.fence ≤ delivery.status.fence := by
      by_contra hlt
      exact hserved.none_older _ binding hbinding (by omega) hopen
    by_cases hsame : earlier.status.fence = delivery.status.fence
    · have hcoordination := hordered.distinct _ _ _ _ _ hstored hbinding (by omega)
      refine Or.inr ⟨?_, hsame⟩
      rw [RelationStatusDeliveryClaim.key, PendingDelivery.key, hclaims.relation,
        hclaims.coordination, hrelation, hcoordination]
    · exact Or.inl (by omega)
  · intro worker claim hclaim hkey hdestination
    have hclosed := h.acknowledged worker claim hclaim
    rw [hkey, hdestination] at hclosed
    exact hclosed.2 hopen

/-- An offered delivery is claimed in order. -/
theorem Delivering.inOrder {plans : List RegisteredRelation}
    (hregistry : relationRegistry plans = .ok registry)
    (h : Delivering codec registry workers events state) (hoffer : Offer state events delivery)
    {claim : RelationStatusDeliveryClaim} (hclaims : Claims codec registry delivery claim) :
    InOrder events claim := by
  have hkey : claim.key = delivery.key := by
    rw [RelationStatusDeliveryClaim.key, PendingDelivery.key, hclaims.relation,
      hclaims.coordination]
  refine ⟨?_, ?_⟩
  · intro worker earlier hearlier hidentity
    rcases h.claimed worker earlier hearlier with ⟨_, hearlierClaims, _⟩
    rcases hearlierClaims.same hregistry hclaims hidentity with ⟨hrelation, hdestination⟩
    refine ⟨hrelation, ?_⟩
    rw [hkey, hclaims.fence]
    exact hoffer.claims worker earlier hearlier (hdestination.trans hclaims.destination)
      (hrelation.trans hclaims.relation)
  · intro worker earlier hearlier hsame
    rw [hclaims.destination]
    exact hoffer.acknowledgements worker earlier hearlier (hsame.trans hkey)

end Offers

/-! ### Steps and runs -/

section Steps

variable {codec : OutboxCodec} {registry : RelationRegistry} {plans : List RegisteredRelation}
  {maxBindings : Nat} {world next : World} {event : Event} {events : List Event}
  {entries : List JournalEntry} {state : State}

theorem Disk.Commits.ordered {codec : JournalCodec} {disk : Disk}
    (h : disk.Commits codec maxBindings entries state) : state.Ordered := by
  rcases h.journal with ⟨bytes, _, _, hreplay⟩
  exact hreplay.ordered State.ordered_empty

variable {workers : Nat → Worker}

/-- What is selected under a lock may be claimed, in the state that the
    selection left behind. -/
theorem World.Commits.offer (hcodec : codec.Lawful)
    (h : world.Commits codec maxBindings entries state) {handle : Nat}
    {opened : Handle} (hhandle : world.handles handle = some opened) {shard : UInt8}
    {delivery : PendingDelivery}
    (hanswer : (claimSelection codec opened.maxBindings shard ⟨world.disk, opened.state⟩).answer =
      .ok (some delivery))
    {last : State} {entries' : List JournalEntry}
    (hlast : (claimSelection codec opened.maxBindings shard
      ⟨world.disk, opened.state⟩).store.disk.Commits codec maxBindings entries' last)
    (hdelivering : Delivering codec registry workers events last) :
    delivery.shard = shard ∧ Offer last events delivery := by
  rcases h.holds hhandle with ⟨rfl, hholds⟩
  rcases (traces_claimSelection hcodec hholds).answered hanswer with
    ⟨_, _, settled, pending, _, hcurrent, hpending, hfind⟩
  rcases hcurrent.commits.unique hcodec hlast with ⟨_, rfl⟩
  refine ⟨?_, hdelivering.offer hlast.ordered hpending (mem_of_find?_eq_some hfind.symm)⟩
  have hshard := find?_some hfind.symm
  exact beq_iff_eq.mp hshard

/-- An acknowledgement that succeeded has closed its destination. -/
theorem World.Commits.closed (hcodec : codec.Lawful)
    (h : world.Commits codec maxBindings entries state) {handle : Nat}
    {opened : Handle} (hhandle : world.handles handle = some opened)
    {claim : RelationStatusDeliveryClaim} {record : RelationStatusRecord}
    (hanswer : (acknowledgeStatusDestination codec opened.maxBindings claim
      ⟨world.disk, opened.state⟩).answer = .ok record)
    {last : State} {entries' : List JournalEntry}
    (hlast : (acknowledgeStatusDestination codec opened.maxBindings claim
      ⟨world.disk, opened.state⟩).store.disk.Commits codec maxBindings entries'
        last) :
    last.Closed claim.key claim.destinationBinding := by
  rcases h.holds hhandle with ⟨rfl, hholds⟩
  rcases (traces_acknowledge hcodec hholds).answered hanswer with
    ⟨stored, action, _, acknowledged, _, _, settled, hstored, haction, hstep, hrest, hcurrent⟩
  rcases hcurrent.commits.unique hcodec hlast with ⟨_, rfl⟩
  refine hrest.closed ?_
  unfold checkedClaim at hstored
  simp only [bind_eq_ok, guard_eq_ok, ok.injEq] at hstored
  rcases hstored with ⟨stored', hstored, _, _, _, rfl⟩
  rcases storeStatus_eq_ok hstored with ⟨hrelation, hcoordination, _⟩
  rw [RelationStatusDeliveryClaim.key, ← hrelation, ← hcoordination]
  unfold acknowledgeDecision at haction
  repeat' split at haction
  all_goals first
    | exact absurd haction (by simp only [reduceCtorEq, not_false_eq_true])
    | cases haction
  cases hstep with
  | cons _ hnext hnil =>
    cases hnil
    rcases applyEntry_eq_ok hnext with ⟨_, _, _, _, _, htakes⟩
    exact htakes.closed

theorem World.Step.delivers (hcodec : codec.Lawful)
    (hregistry : relationRegistry plans = .ok registry)
    (hstep : world.Step codec registry event next)
    (h : world.Commits codec maxBindings entries state)
    (hbefore : Delivering codec registry world.workers events state) :
    ∃ entries' state', next.Commits codec maxBindings entries' state' ∧
      Delivering codec registry next.workers (events ++ [event]) state' := by
  rcases hstep.grows hcodec h with ⟨more, bytes, state', hnext, hmore, _⟩
  have hgrown := hbefore.grow hmore
  refine ⟨entries ++ more, state', hnext, ?_⟩
  cases hstep with
  | opened | openCut | closed | scheduled | current | session => exact hgrown.quiet rfl
  | listed | skipped | unselected | acknowledgeCut | dropped | abandoned =>
    exact (hgrown.quiet rfl).release _ rfl
  | @locked worker candidate rest hworker hfree =>
    refine (hgrown.quiet rfl).update worker (.locked candidate rest) ?_ ?_ ?_
    · intro shard hshard
      rw [Worker.lock, Option.some.injEq] at hshard
      exact Or.inr (hshard ▸ hfree)
    · intro _ _ h
      cases h
    · intro _ _ h
      cases h
  | @selected handle worker opened candidate delivery rest hhandle hworker hanswer =>
    have hquiet : Delivering codec registry world.workers (events ++ [.quiet]) state' :=
      hgrown.quiet rfl
    refine hquiet.update worker (.selected candidate delivery) ?_ ?_ ?_
    · intro shard hshard
      rw [hworker]
      exact Or.inl hshard
    · intro candidate' delivery' hselected
      cases hselected
      exact h.offer hcodec hhandle hanswer hnext.disk hquiet
    · intro _ _ h
      cases h
  | @claimed handle worker opened candidate delivery loaded claim artifacts hhandle hworker
      hanswer hclaim =>
      have hclaims := claimOf_eq_ok hclaim
      rcases hgrown.selected worker candidate delivery hworker with ⟨hshard, hoffer⟩
      have hheld : Delivering codec registry
          (Function.update world.workers worker (.holding candidate claim)) events state' := by
        refine hgrown.update worker (.holding candidate claim) ?_ ?_ ?_
        · intro shard hlock
          rw [hworker]
          exact Or.inl hlock
        · intro _ _ h
          cases h
        intro candidate' claim' hholding
        cases hholding
        rw [hclaims.destination]
        exact hshard
      refine hheld.push (.claimed worker claim) ?_ ?_ ?_
      · intro worker' claim' hevent
        rw [Event.concerns, Option.some.injEq, Prod.mk.injEq] at hevent
        rcases hevent with ⟨rfl, rfl⟩
        exact ⟨candidate, Function.update_self ..⟩
      · intro worker' claim' hevent
        cases hevent
        exact ⟨⟨delivery, hclaims, hoffer.settled⟩, hgrown.inOrder hregistry hoffer hclaims⟩
      · intro _ _ h
        cases h
  | @acknowledged handle worker opened candidate claim record hhandle hworker hanswer =>
    refine Delivering.release ?_ worker rfl
    refine hgrown.push (.acknowledged worker claim) ?_ ?_ ?_
    · intro worker' claim' hevent
      rw [Event.concerns, Option.some.injEq, Prod.mk.injEq] at hevent
      rcases hevent with ⟨rfl, rfl⟩
      exact ⟨candidate, hworker⟩
    · intro _ _ h
      cases h
    · intro worker' claim' hevent
      cases hevent
      exact h.closed hcodec hhandle hanswer hnext.disk

/-- Before the first opening nobody claims and nothing is seen. -/
theorem World.Step.idle (hstep : world.Step codec registry event next)
    (hunprepared : world.Unprepared) (hidle : ∀ worker, world.workers worker = .idle) :
    event = .quiet ∧ ∀ worker, next.workers worker = .idle := by
  have hnone : ∀ {handle : Nat} {opened : Handle}, world.handles handle = some opened → False := by
    intro handle opened hopened
    rw [hunprepared.2 handle] at hopened
    cases hopened
  have hwaiting : ∀ {worker : Nat} {value : Worker}, world.workers worker = value →
      value ≠ .idle → False := by
    intro worker value hvalue hne
    exact hne (hvalue.symm.trans (hidle worker))
  cases hstep with
  | opened | openCut | closed => exact ⟨rfl, hidle⟩
  | scheduled _ hhandle | current _ hhandle | session _ hhandle _ => exact (hnone hhandle).elim
  | listed hhandle _ _ | unselected hhandle _ _ | selected hhandle _ _ =>
    exact (hnone hhandle).elim
  | claimed _ hhandle _ _ _ | acknowledged hhandle _ _ | acknowledgeCut hhandle _ _ =>
    exact (hnone hhandle).elim
  | skipped hworker _ | locked hworker _ | dropped hworker =>
    exact (hwaiting hworker (by simp)).elim
  | abandoned =>
    refine ⟨rfl, fun other => ?_⟩
    simp only [World.setWorker, Function.update_apply]
    split
    next => rfl
    next => exact hidle other

theorem delivering_idle (hidle : ∀ worker, workers worker = .idle)
    (hquiet : ∀ event ∈ events, event = .quiet) :
    Delivering codec registry workers events state where
  exclusive := fun left _ shard hleft => by
    rw [hidle left] at hleft
    cases hleft
  selected := fun worker _ _ hworker => by
    rw [hidle worker] at hworker
    cases hworker
  holding := fun worker _ _ hworker => by
    rw [hidle worker] at hworker
    cases hworker
  claimed := fun _ _ hclaim =>
    absurd (hquiet _ hclaim) (by simp)
  acknowledged := fun _ _ hclaim =>
    absurd (hquiet _ hclaim) (by simp)
  ordered := fun before worker claim after hsplit =>
    absurd (hquiet (.claimed worker claim) (hsplit ▸ List.mem_append_right _ List.mem_cons_self))
      (by simp)

/-- Along a run the invariant holds, of what is committed or before the first
    opening. -/
theorem World.Run.delivers (hcodec : codec.Lawful)
    (hregistry : relationRegistry plans = .ok registry)
    (hrun : World.Run codec registry .initial events world) :
    ∃ state, Delivering codec registry world.workers events state ∧
      ((world.Unprepared ∧ (∀ worker, world.workers worker = .idle) ∧
          ∀ event ∈ events, event = .quiet) ∨
        ∃ maxBindings entries, world.Commits codec maxBindings entries state) := by
  induction hrun with
  | nil =>
    have hquiet : ∀ event ∈ ([] : List Event), event = .quiet :=
      fun event h => absurd h not_mem_nil
    exact ⟨.empty, delivering_idle (fun _ => rfl) hquiet,
      Or.inl ⟨⟨⟨rfl, Or.inl rfl⟩, fun _ => rfl⟩, fun _ => rfl, hquiet⟩⟩
  | @snoc mid last events event _ hstep ih =>
    rcases ih with ⟨state, hmid, ⟨hunprepared, hidle, hquiet⟩ | ⟨maxBindings, entries, hcommits⟩⟩
    · rcases hstep.idle hunprepared hidle with ⟨rfl, hidle'⟩
      have hquiet' : ∀ event ∈ events ++ [.quiet], event = .quiet := by
        intro event hevent
        rcases mem_append.mp hevent with hevent | hevent
        · exact hquiet event hevent
        · exact mem_singleton.mp hevent
      rcases hstep.prepares hcodec hunprepared with hlast | ⟨maxBindings, entries, state, hlast, _⟩
      · exact ⟨.empty, delivering_idle hidle' hquiet', Or.inl ⟨hlast, hidle', hquiet'⟩⟩
      · exact ⟨state, delivering_idle hidle' hquiet', Or.inr ⟨maxBindings, entries, hlast⟩⟩
    · rcases hstep.delivers hcodec hregistry hcommits hmid with
        ⟨entries', state', hlast, hdelivering⟩
      exact ⟨state', hdelivering, Or.inr ⟨maxBindings, entries', hlast⟩⟩

/-- What was claimed is older than what is still open for its destination. -/
theorem Delivering.oldest (h : Delivering codec registry workers events state)
    (hordered : state.Ordered) {worker : Nat} {claim : RelationStatusDeliveryClaim}
    (hclaim : .claimed worker claim ∈ events) {key : StatusKey} {binding : Digest}
    {status : StoredStatus} {acknowledged : Finset Digest}
    (hstatus : state.statuses[key]? = some (.staged binding status acknowledged))
    (hrelation : status.relation = claim.status.targets.relation)
    (hnamed : claim.destinationBinding ∈ status.destinations)
    (hopen : claim.destinationBinding ∉ acknowledged) :
    claim.status.targets.fence.raw ≤ status.fence := by
  rcases h.claimed worker claim hclaim with ⟨delivery, hclaims, hsettled⟩
  rcases hordered.staged key binding status acknowledged hstatus with ⟨rfl, _, stored, hstored, heq⟩
  have hserved := hsettled.served
  rw [← hclaims.relation, ← hclaims.destination, ← hclaims.fence] at hserved
  rw [hrelation] at hstored hstatus
  by_contra hlt
  exact hserved.none_older status.coordination stored hstored (by omega)
    ⟨binding, status, acknowledged, hstatus, hnamed, hopen⟩

/-- Dropping a claim leaves the files and what the stores have read alone. -/
theorem World.Step.dropped_same {worker : Nat} {claim : RelationStatusDeliveryClaim}
    (hstep : world.Step codec registry (.dropped worker claim) next) :
    next.disk = world.disk ∧ next.handles = world.handles := by
  cases hstep with
  | dropped => exact ⟨rfl, rfl⟩

/-- The order of deliveries. Whatever is scheduled, staged, claimed,
    acknowledged, dropped and completed, by however many workers over however
    many opened stores:

    * claims for one outside destination are for one relation and come in the
      order of their fences; a claim with the fence of an earlier one is for
      the same batch, and nothing in between acknowledged it;
    * once a batch has been claimed for a destination, no batch of the relation
      with a smaller fence is staged and unacknowledged for it;
    * no two claims are held for one shard;
    * in the journal, no destination of a batch is acknowledged twice, and a
      batch is completed after each of its destinations was acknowledged;
    * dropping a claim leaves the files as they are. -/
theorem outbox_delivers_in_order (hcodec : codec.Lawful)
    (hregistry : relationRegistry plans = .ok registry)
    (hrun : World.Run codec registry .initial events world) :
    (∀ before worker claim after, events = before ++ .claimed worker claim :: after →
      InOrder before claim) ∧
    (∀ worker claim, .claimed worker claim ∈ events →
      ∀ maxBindings entries state, world.disk.Commits codec maxBindings entries state →
      ∀ (key : StatusKey) binding status acknowledged,
        state.statuses[key]? = some (.staged binding status acknowledged) →
        status.relation = claim.status.targets.relation →
        claim.destinationBinding ∈ status.destinations →
        claim.destinationBinding ∉ acknowledged → claim.status.targets.fence.raw ≤ status.fence) ∧
    (∀ left right candidate candidate' claim claim', world.workers left = .holding candidate claim →
      world.workers right = .holding candidate' claim' →
      shardOf claim.destinationBinding = shardOf claim'.destinationBinding → left = right) ∧
    (∀ maxBindings entries state, world.disk.Commits codec maxBindings entries state →
      entries.Pairwise (fun earlier later => ∀ relation coordination binding binding' destination,
        earlier.action = .acknowledge relation coordination binding destination →
        later.action ≠ .acknowledge relation coordination binding' destination) ∧
      ∀ before entry after relation coordination binding, entries = before ++ entry :: after →
        entry.action = .complete relation coordination binding →
        ∃ status, (∃ entry ∈ before, ∃ planBinding workBinding,
            entry.action = .stage planBinding workBinding status) ∧
          status.relation = relation ∧ status.coordination = coordination ∧
          status.statusBinding = binding ∧
          ∀ destination ∈ status.destinations, ∃ entry ∈ before,
            entry.action = .acknowledge relation coordination binding destination) ∧
    (∀ worker claim next, world.Step codec registry (.dropped worker claim) next →
      next.disk = world.disk ∧ next.handles = world.handles) := by
  have hjournal : ∀ maxBindings entries state, world.disk.Commits codec maxBindings entries state →
      ∃ bytes, Replays codec maxBindings .empty bytes entries state := by
    intro maxBindings entries state hcommits
    rcases hcommits.journal with ⟨bytes, _, _, hreplay⟩
    exact ⟨bytes, hreplay⟩
  rcases hrun.delivers hcodec hregistry with ⟨state', hdelivering, hworld⟩
  refine ⟨hdelivering.ordered, ?_, ?_, ?_, fun _ _ _ hstep => hstep.dropped_same⟩
  · intro worker claim hclaim maxBindings entries state hcommits key binding status acknowledged
      hstatus hrelation hnamed hopen
    rcases hworld with ⟨_, _, hquiet⟩ | ⟨maxBindings', entries', hworld⟩
    · cases (hquiet _ hclaim)
    · have hmax := hworld.disk.sameCapacity hcommits
      subst hmax
      rcases hworld.disk.unique hcodec hcommits with ⟨rfl, rfl⟩
      exact hdelivering.oldest hcommits.ordered hclaim hstatus hrelation hnamed hopen
  · intro left right candidate candidate' claim claim' hleft hright hshard
    rw [hdelivering.holding left candidate claim hleft,
      hdelivering.holding right candidate' claim' hright] at hshard
    refine hdelivering.exclusive left right candidate.shard ?_ ?_
    · rw [hleft, Worker.lock]
    · rw [hright, Worker.lock, hshard]
  · intro maxBindings entries state hcommits
    rcases hjournal maxBindings entries state hcommits with ⟨bytes, hreplay⟩
    refine ⟨hreplay.acknowledged_once, ?_⟩
    intro before entry after relation coordination binding hsplit haction
    exact hreplay.completed_last State.explained_empty hsplit haction

end Steps

namespace Sample

def artifact : ArtifactReference :=
  ⟨artifactId, "https://host/audits/" ++ artifactId ++ "/report", 0, ⟨0⟩, none, none, false, none⟩

def artifacts : Artifacts := ⟨fun _ => .ok (), fun _ => .ok ⟨artifact, [], [], none, []⟩⟩

/-- Staging the batch of the second work. -/
def stage : Operation :=
  .stage artifacts ⟨transition "b", ⟨2, by decide⟩⟩
    (⟨plan.subjects.1, snapshot⟩, ⟨plan.subjects.2, snapshot⟩) ⟨artifact, .relation digests⟩
    ⟨transition "b", [], [], none, []⟩

def after (operation : Operation) (root : Root) : Root := (operation.program codec 4 root).store

def staged : Root := after stage second

def delivery : PendingDelivery :=
  ⟨⟨plan.identity, ⟨"b"⟩, ⟨"left"⟩, 2, statusDigest, [destinationDigest], artifactId⟩,
    destinationDigest⟩

def target : RelationStatusTarget :=
  ⟨⟨"left"⟩, plan.subjects.1.scope, plan.subjects.1.credential, oid, "amiss"⟩

def claim : RelationStatusDeliveryClaim :=
  ⟨⟨⟨plan.identity, ⟨"b"⟩, ⟨"left"⟩, ⟨2, by decide⟩, [target]⟩, ⟨artifact, .relation digests⟩,
    false⟩, target, statusDigest, destinationDigest⟩

variable (root : Root)

def listing : Root := (claimCandidates codec 4 root).store

def selecting : Root := (claimSelection codec 4 delivery.shard (listing root)).store

def loading : Root :=
  (loadStagedStatus codec 4 plan.identity ⟨"b"⟩ (selecting root)).store

/-- The sessions of a claim answer with the sample delivery. -/
def Offers : Prop :=
  (claimCandidates codec 4 root).answer = .ok [delivery] ∧
    (claimSelection codec 4 delivery.shard (listing root)).answer = .ok (some delivery) ∧
    (loadStagedStatus codec 4 plan.identity ⟨"b"⟩ (selecting root)).answer =
      .ok (some (delivery.status, planDigest))

instance (root : Root) : Decidable (Offers root) := by
  unfold Offers
  infer_instance

theorem answers :
    claimOf codec registry artifacts delivery (some (delivery.status, planDigest)) = .ok claim ∧
      Offers staged ∧ Offers (loading staged) := by
  decide +kernel

theorem registry_ok : relationRegistry [plan] = .ok registry := by
  have hok : (relationRegistry [plan]).isOk = true := by decide +kernel
  unfold registry
  cases hregistry : relationRegistry [plan] with
  | ok value => rfl
  | error error =>
    rw [hregistry] at hok
    cases hok

/-- One process has the root open, and one worker is at work. -/
def busy (worker : Worker) : World := (world root).setWorker 0 worker

theorem busy_after (root next : Root) (worker worker' : Worker) :
    ((busy root worker).after 0 4 next).setWorker 0 worker' = busy next worker' := by
  simp [busy, world, World.after, World.setHandle, World.setWorker]

theorem busy_setWorker (worker worker' : Worker) :
    (busy root worker).setWorker 0 worker' = busy root worker' := by
  simp [busy, World.setWorker]

theorem busy_idle : busy root .idle = world root := by
  simp [busy, world, World.setWorker, World.after, World.setHandle, World.initial]

theorem busy_handles (worker : Worker) :
    (busy root worker).handles 0 = some ⟨4, root.state⟩ := world_handles root

theorem busy_workers (worker : Worker) : (busy root worker).workers 0 = worker := by
  simp [busy, World.setWorker]

/-- Nobody holds a lock while the only worker tries. -/
theorem busy_free (candidates : List PendingDelivery) (shard : UInt8) :
    (busy root (.trying candidates)).Free shard := by
  intro other
  simp only [busy, world, World.setWorker, World.after, World.setHandle, World.initial,
    Function.update_apply]
  split
  next => simp [Worker.lock]
  next => simp [Worker.lock]

theorem run_session {root : Root} {events : List Event} (operation : Operation)
    (h : World.Run codec registry .initial events (world root)) :
    World.Run codec registry .initial (events ++ [.quiet])
      (world (after operation root)) := by
  have hstep : (world root).Step codec registry _ _ :=
    .session operation (world_handles root) mem_cons_self
  rw [world_after] at hstep
  exact .snoc h hstep

/-- The worker claims the sample delivery. -/
theorem run_claimed {root : Root} {events : List Event} (hoffers : Offers root)
    (h : World.Run codec registry .initial events (busy root .idle)) :
    World.Run codec registry .initial
      (events ++ [.quiet, .quiet, .quiet, .claimed 0 claim])
      (busy (loading root) (.holding delivery claim)) := by
  rcases hoffers with ⟨hlisted, hselected, hloaded⟩
  have hlist : (busy root .idle).Step codec registry _ _ :=
    .listed (busy_handles root .idle) (busy_workers root .idle) hlisted
  rw [busy_after] at hlist
  have hlock : (busy (listing root) (.trying [delivery])).Step codec registry _ _ :=
    .locked (busy_workers _ _) (busy_free _ _ _)
  rw [busy_setWorker] at hlock
  have hselect : (busy (listing root) (.locked delivery [])).Step codec registry _ _ :=
    .selected (busy_handles _ _) (busy_workers _ _) hselected
  rw [busy_after] at hselect
  have hclaim : (busy (selecting root) (.selected delivery delivery)).Step codec registry _ _ :=
    .claimed artifacts (busy_handles _ _) (busy_workers _ _) hloaded answers.1
  rw [busy_after] at hclaim
  have hrun := (((h.snoc hlist).snoc hlock).snoc hselect).snoc hclaim
  simp only [append_assoc, cons_append, nil_append] at hrun
  exact hrun

/-- What is seen before the second claim: two works are admitted, the batch of
    the second is staged, claimed and dropped. -/
def history : List Event :=
  [.quiet, .scheduled (transition "a") (answering (transition "a") opened),
    .scheduled (transition "b") (answering (transition "b") first), .quiet, .quiet, .quiet, .quiet,
    .claimed 0 claim, .dropped 0 claim, .quiet, .quiet, .quiet]

theorem run_history : World.Run codec registry .initial (history ++ [.claimed 0 claim])
    (busy (loading (loading staged)) (.holding delivery claim)) := by
  have hfirst : World.Run codec registry .initial _ (world first) :=
    run_scheduled (transition "a") run_opened
  have hsecond : World.Run codec registry .initial _ (world second) :=
    run_scheduled (transition "b") hfirst
  have hstaged : World.Run codec registry .initial _ (world staged) := run_session stage hsecond
  rw [← busy_idle] at hstaged
  have hdrop : (busy (loading staged) (.holding delivery claim)).Step codec registry _ _ :=
    .dropped (busy_workers _ _)
  rw [busy_setWorker] at hdrop
  exact run_claimed answers.2.2 ((run_claimed answers.2.1 hstaged).snoc hdrop)

end Sample

open Relations.Sample

/-- A delivery is claimed, dropped and claimed again. The second claim is in
    order after the first one: it is for the same batch. -/
theorem outbox_delivers_in_order_sample :
    history = history.take 7 ++ .claimed 0 Sample.claim :: history.drop 8 ∧
      InOrder history Sample.claim := by
  refine ⟨rfl, ?_⟩
  exact (outbox_delivers_in_order codec_lawful registry_ok run_history).1
    history 0 Sample.claim [] rfl

end Relations

end Amiss
