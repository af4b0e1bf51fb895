import Amiss.Controller.Relations.World
import Amiss.Theory.Relations.Sessions

/-!
# Whole Runs of the Relation Store

What one session does, for each of them, and what a run adds up to. A world
commits to entries when its files do and every opened store is behind them;
`World.Step.grows` says that whatever happens next adds entries and takes none
away, and runs follow by induction.

The theorem of this module is about the state an opened store holds. However it
came about, from whichever sessions, in whichever process, with whatever cut
short in between, catching up from it gives the state that reading the whole
committed journal from nothing gives.

## Main definitions

* `World.Commits`: The entries a world commits to.
* `synchronized`: The state a store holds once it has caught up.

## Theorems

* `World.Step.grows`, `World.Run.grows`: Entries are only ever added.
* `synchronize_replays_committed`: Catching up is replaying everything.
* `only_schedules_find_full`: There is room for what follows a schedule.
-/

namespace Amiss

open Except

open Option

open List

open Fallible

namespace Relations

open Relation (ReflTransGen)

open Durable (Follows Finishes Traces)

/-! ### Where schedule entries come from -/

/-- The work a stored binding was admitted for, under its fence. -/
def Grants (codec : BindingCodec) (relation : ArtifactId) (planBinding : Digest)
    (binding : StoredBinding) (pending : PendingRelation) : Prop :=
  ∃ checked, checkedWork codec pending.transition = .ok checked ∧
    checked.transition = pending.transition ∧ checked.relation = relation ∧
    checked.planBinding = planBinding ∧
    binding = { checked.binding with fence := pending.fence.raw }

/-- A schedule entry admits some work; the others may be anything. -/
def JournalAction.Granted (codec : BindingCodec) : JournalAction → Prop
  | .schedule relation planBinding binding =>
    ∃ pending, Grants codec relation planBinding binding pending
  | .stage .. | .acknowledge .. | .complete .. => True

/-- One write of a session: what it commits, if anything, is granted. -/
abbrev GrantedStep (codec : OutboxCodec) (maxBindings : Nat) : Root → Root → Prop :=
  Root.Step (JournalAction.Granted codec) codec maxBindings

section Granting

variable {codec : BindingCodec} {transition checked' : RelationTransition} {checked : CheckedWork}

theorem RelationTransition.checked_idem (h : transition.checked = some checked') :
    checked'.checked = some checked' := by
  unfold RelationTransition.checked at h ⊢
  rw [relationTransition_eq_some] at h ⊢
  rcases h with ⟨hvalid, hroles, hfits, rfl⟩
  rw [sortPair_sorted]
  exact ⟨hvalid, hroles, hfits, rfl⟩

theorem checkedWork_eq_ok (h : checkedWork codec transition = .ok checked) :
    transition.checked = some checked.transition ∧
      checkedWork codec checked.transition = .ok checked ∧
      checked.relation = checked.transition.relation.plan.identity ∧
      planBinding codec checked.transition.relation.plan = .ok checked.planBinding ∧
      ∃ bytes, codec.boundWork ⟨checked.relation, checked.planBinding,
          checked.transition.coordination, (boundWorkSubject checked.transition.subjects.1,
            boundWorkSubject checked.transition.subjects.2)⟩ = some bytes ∧
        checked.binding = ⟨checked.transition.coordination,
          domainDigest codec.sha256 "amiss/controller-relation-work-binding-v1" bytes,
          checked.transition.relation.triggerRole, 0⟩ := by
  cases hchecked : transition.checked with
  | none =>
    rw [checkedWork, hchecked] at h
    cases h
  | some normal =>
    have hagain : checkedWork codec normal = checkedWork codec transition := by
      unfold checkedWork
      rw [hchecked, RelationTransition.checked_idem hchecked]
    have hparts := h
    rw [checkedWork, hchecked] at hparts
    simp only [bind_eq_ok, orCorrupt_eq_ok, ok.injEq] at hparts
    rcases hparts with ⟨bound, hbound, bytes, hbytes, rfl⟩
    exact ⟨rfl, hagain.trans h, rfl, hbound, bytes, hbytes, rfl⟩

/-- What is scheduled is the transition as checked. -/
theorem scheduleRelation_scheduled {previous : Option PendingRelation} {pending : PendingRelation}
    (h : scheduleRelation previous transition = .ok (.scheduled pending)) :
    transition.checked = some pending.transition := by
  unfold scheduleRelation at h
  split at h
  next => cases h
  next normal hnormal =>
    repeat' split at h
    all_goals simp only [reduceCtorEq, ok.injEq, RelationAdmission.scheduled.injEq] at h
    all_goals exact h ▸ hnormal

/-- The action of an admission is a schedule entry for its work. -/
theorem admission_granted {state : State} {maxBindings : Nat} {answer : RelationAdmission}
    {action : JournalAction} (hchecked : checkedWork codec transition = .ok checked)
    (h : admission state maxBindings checked = .ok (answer, some action)) :
    ∃ pending, answer = .scheduled pending ∧
      action = .schedule checked.relation checked.planBinding
        { checked.binding with fence := pending.fence.raw } ∧
      Grants codec checked.relation checked.planBinding
        { checked.binding with fence := pending.fence.raw } pending := by
  rcases checkedWork_eq_ok hchecked with ⟨hnormal, hagain, _⟩
  unfold admission at h
  rw [guard_eq_ok] at h
  rcases h with ⟨_, h⟩
  split at h
  next =>
    rw [guard_eq_ok, bind_eq_ok] at h
    rcases h with ⟨_, _, _, h⟩
    cases h
  next =>
    rw [guard_eq_ok, bind_eq_ok] at h
    rcases h with ⟨_, previous, _, h⟩
    split at h
    next => cases h
    next => cases h
    next pending hpending =>
    rw [ok.injEq, Prod.mk.injEq, some.injEq] at h
    have htransition := scheduleRelation_scheduled hpending
    rw [RelationTransition.checked_idem hnormal, some.injEq] at htransition
    refine ⟨pending, h.1.symm, h.2.symm, checked, ?_, htransition, rfl, rfl, rfl⟩
    exact htransition ▸ hagain

/-- Every other entry may be appended as it is. -/
theorem granted_of_increment {action : JournalAction} (h : bindingIncrement action = 0) :
    action.Granted codec := by
  cases action with
  | schedule => exact absurd h Nat.one_ne_zero
  | stage | acknowledge | complete => exact trivial

end Granting

variable {state : State} {action : JournalAction}

theorem stageDecision_increment {codec : OutboxCodec} {artifacts : Artifacts}
    {checked : CheckedWork} {pending : PendingRelation}
    {heads : RelationSubjectHead × RelationSubjectHead} {audit : ArtifactAuditReference}
    {bundle : RelationAuditBundle} {answer : Option RelationStatusRecord}
    (h : stageDecision codec state artifacts checked pending heads audit bundle =
      .ok (answer, some action)) : bindingIncrement action = 0 := by
  unfold stageDecision at h
  simp only [bind_eq_ok] at h
  rcases h with ⟨_, _, _, _, stored, _, h⟩
  repeat' split at h
  all_goals simp only [bind_eq_ok, reduceCtorEq, ok.injEq, Prod.mk.injEq,
    and_false, exists_false, some.injEq] at h
  rcases h with ⟨_, _, _, rfl⟩
  rfl

theorem completeDecision_increment {staged answer : RelationStatusRecord} {stored : StoredStatus}
    (h : completeDecision state staged stored = .ok (answer, some action)) :
    bindingIncrement action = 0 := by
  unfold completeDecision at h
  repeat' split at h
  all_goals simp only [bind_eq_ok, reduceCtorEq, ok.injEq, Prod.mk.injEq,
    and_false, exists_false, some.injEq] at h
  rcases h with ⟨_, _, _, rfl⟩
  rfl

theorem acknowledgeDecision_increment {stored : StoredStatus} {destination : Digest}
    (h : acknowledgeDecision state stored destination = .ok action) :
    bindingIncrement action = 0 := by
  unfold acknowledgeDecision at h
  repeat' split at h
  all_goals simp only [reduceCtorEq, ok.injEq] at h
  subst h
  rfl

theorem completionOf_increment {entry : StatusKey × StoredStatusState}
    (h : completionOf entry = some action) : bindingIncrement action = 0 := by
  unfold completionOf at h
  repeat' split at h
  all_goals simp only [reduceCtorEq, some.injEq] at h
  subst h
  rfl

section Sessions

variable {codec : OutboxCodec} {maxBindings : Nat} {root : Root}
  {entries : List JournalEntry} {state : State}

/-- A schedule call answers what the decision on the current state says, and
    commits nothing if it fails. -/
theorem follows_schedule (hcodec : codec.Lawful) {transition : RelationTransition}
    (h : root.Holds codec maxBindings entries state) :
    Follows (GrantedStep codec maxBindings)
      (schedule codec maxBindings transition) root
      (fun answer next => ∃ checked action, checkedWork codec transition = .ok checked ∧
        admission state maxBindings checked = .ok (answer, action) ∧
        next.Took codec maxBindings entries state action)
      (fun error next => (checkedWork codec transition = .error error ∨
        ∃ checked, checkedWork codec transition = .ok checked ∧
          (admission state maxBindings checked = .error error ∨ ∃ answer action,
            admission state maxBindings checked = .ok (answer, some action) ∧
            appendPlan codec maxBindings state action = .error error)) ∧
        next.Holds codec maxBindings entries state) := by
  unfold schedule
  refine .ofExcept_bind (fun checked hchecked => ?_)
    (fun _ herror => ⟨Or.inl herror, h⟩)
  refine Follows.session hcodec h (fun next hnext => ?_)
  refine (follows_enact hcodec (fun answer action h => ?_) hnext).mono ?_ ?_
  · rcases admission_granted hchecked h with ⟨pending, _, rfl, hgrants⟩
    exact ⟨pending, hgrants⟩
  · rintro answer last ⟨action, hdecision, htook⟩
    exact ⟨checked, action, hchecked, hdecision, htook⟩
  · exact fun error _ herror => ⟨Or.inr ⟨checked, hchecked, herror.1⟩, herror.2⟩

/-- A currency check answers from the current state and writes no entry. -/
theorem follows_isCurrent (hcodec : codec.Lawful) {pending : PendingRelation}
    (h : root.Holds codec maxBindings entries state) :
    Follows (GrantedStep codec maxBindings)
      (isCurrent codec maxBindings pending) root
      (fun answer _ => ∃ checked, checkedWork codec pending.transition = .ok checked ∧
        answer = isCurrentWork state checked pending)
      (fun error _ => checkedWork codec pending.transition = .error error) := by
  unfold isCurrent
  refine .ofExcept_bind (fun checked hchecked => ?_) (fun _ herror => herror)
  refine Follows.session hcodec h (fun next hnext => ?_)
  refine Durable.Follows.reading_ok rfl ?_
  refine .pure ⟨checked, hchecked, ?_⟩
  rw [hnext.held]

section

variable (hcodec : codec.Lawful)

include hcodec

section

variable (h : root.Holds codec maxBindings entries state)

include h

theorem traces_stageStatus {artifacts : Artifacts} {pending : PendingRelation}
    {heads : RelationSubjectHead × RelationSubjectHead} {audit : ArtifactAuditReference}
    {bundle : RelationAuditBundle} :
    Traces (GrantedStep codec maxBindings)
      (stageStatus codec maxBindings artifacts pending heads audit bundle) root
      (fun _ _ => True) := by
  unfold stageStatus
  refine .ofExcept_bind (fun checked hchecked => ?_) (by simp)
  refine Follows.session hcodec h (fun next hnext => ?_)
  exact (follows_enact hcodec (fun _ _ h => granted_of_increment (stageDecision_increment h))
    hnext).mono (fun _ _ _ => trivial) (by simp)

theorem traces_completeStatus {staged : RelationStatusRecord} :
    Traces (GrantedStep codec maxBindings)
      (completeStatus codec maxBindings staged) root (fun _ _ => True) := by
  unfold completeStatus
  refine .ofExcept_bind (fun stored hstored => ?_) (by simp)
  refine Follows.session hcodec h (fun next hnext => ?_)
  exact (follows_enact hcodec (fun _ _ h => granted_of_increment (completeDecision_increment h))
    hnext).mono (fun _ _ _ => trivial) (by simp)

/-- A staged batch is loaded from the current state. -/
theorem traces_loadStagedStatus {relation coordination : ArtifactId} :
    Traces (GrantedStep codec maxBindings)
      (loadStagedStatus codec maxBindings relation coordination) root
      (fun answer next => stagedStatus state relation coordination = .ok answer ∧
        next.Current codec maxBindings entries state) := by
  unfold loadStagedStatus
  refine Follows.session hcodec h (fun next hnext => ?_)
  refine Durable.Follows.reading_ok rfl ?_
  refine .reading (fun answer hanswer => ?_) (by simp)
  rw [hnext.held] at hanswer
  exact ⟨hanswer, hnext⟩

end

/-- Settling appends completions and nothing else. -/
theorem traces_settleAcknowledged (h : root.Current codec maxBindings entries state) :
    Traces (GrantedStep codec maxBindings)
      (settleAcknowledged codec maxBindings (state.metadata maxBindings)) root
      (fun _ next => ∃ more bytes settled, Replays codec maxBindings state bytes more settled ∧
        next.Current codec maxBindings (entries ++ more) settled) := by
  unfold settleAcknowledged
  refine .reading_ok rfl ?_
  rw [h.held]
  refine (Durable.Follows.foldlM (fun left metadata next =>
    (∀ action ∈ left, bindingIncrement action = 0) ∧ ∃ more bytes settled,
    metadata = settled.metadata maxBindings ∧
    Replays codec maxBindings state bytes more settled ∧
    next.Current codec maxBindings (entries ++ more) settled) ?_ _
    ⟨?_, [], [], state, rfl, .nil state, ?_⟩).mono ?_ (fun _ _ h => h)
  · rintro action _ metadata next ⟨hleft, more, bytes, settled, rfl, hreplay, hcurrent⟩
    have hgranted : action.Granted codec :=
      granted_of_increment (hleft action mem_cons_self)
    refine (follows_append hcodec hgranted hcurrent).mono ?_ (by simp)
    rintro _ last ⟨applied, chunk, _, hmetadata, hstep, hlast⟩
    rw [append_assoc] at hlast
    exact ⟨fun other hother => hleft other (mem_cons_of_mem action hother), _, _, applied,
      hmetadata, hreplay.append hstep, hlast⟩
  · intro action haction
    rcases mem_filterMap.mp haction with ⟨entry, _, hentry⟩
    exact completionOf_increment hentry
  · rw [append_nil]
    exact h
  · rintro _ next ⟨_, more, bytes, settled, _, hreplay, hcurrent⟩
    exact ⟨more, bytes, settled, hreplay, hcurrent⟩

section

variable (h : root.Holds codec maxBindings entries state)

include h

/-- What could be delivered is listed from the settled state. -/
theorem traces_claimCandidates :
    Traces (GrantedStep codec maxBindings) (claimCandidates codec maxBindings) root
      (fun _ _ => True) := by
  unfold claimCandidates
  refine Follows.session hcodec h (fun next hnext => ?_)
  refine Durable.Follows.bind (traces_settleAcknowledged hcodec hnext) ?_
  rintro _ last _
  refine .reading_ok rfl ?_
  exact .reading (fun _ _ => trivial) (by simp)

/-- What a shard is to deliver is selected from the settled state. -/
theorem traces_claimSelection {shard : UInt8} :
    Traces (GrantedStep codec maxBindings) (claimSelection codec maxBindings shard)
      root (fun answer next => ∃ more bytes settled pending,
        Replays codec maxBindings state bytes more settled ∧
        next.Current codec maxBindings (entries ++ more) settled ∧
        pendingDeliveries settled = .ok pending ∧
        answer = pending.find? (fun delivery => delivery.shard == shard)) := by
  unfold claimSelection
  refine Follows.session hcodec h (fun next hnext => ?_)
  refine Durable.Follows.bind (traces_settleAcknowledged hcodec hnext) ?_
  rintro _ last ⟨more, bytes, settled, hreplay, hcurrent⟩
  refine .reading_ok rfl ?_
  rw [hcurrent.held]
  refine .ofExcept_bind (fun pending hpending => ?_) (by simp)
  exact .pure ⟨more, bytes, settled, pending, hreplay, hcurrent, hpending, rfl⟩

/-- An acknowledgement that succeeds has committed the acknowledgement of its
    destination, and a completion at most. -/
theorem traces_acknowledge {claim : RelationStatusDeliveryClaim} :
    Traces (GrantedStep codec maxBindings)
      (acknowledgeStatusDestination codec maxBindings claim) root
      (fun _ next => ∃ stored action bytes acknowledged more rest settled,
        checkedClaim codec claim = .ok stored ∧
        acknowledgeDecision state stored claim.destinationBinding = .ok action ∧
        Replays codec maxBindings state bytes [⟨state.tailDigest, action⟩]
          acknowledged ∧
        Replays codec maxBindings acknowledged rest more settled ∧
        next.Current codec maxBindings
          (entries ++ [⟨state.tailDigest, action⟩] ++ more) settled) := by
  unfold acknowledgeStatusDestination
  refine .ofExcept_bind (fun stored hstored => ?_) (by simp)
  refine Follows.session hcodec h (fun next hnext => ?_)
  refine Durable.Follows.reading_ok rfl ?_
  rw [hnext.held]
  refine .ofExcept_bind (fun action haction => ?_) (by simp)
  have hgranted : action.Granted codec :=
    granted_of_increment (acknowledgeDecision_increment haction)
  refine .bind ((follows_append hcodec hgranted hnext).mono (fun _ _ h => h)
    (fun _ _ _ => trivial)) ?_
  rintro metadata mid ⟨acknowledged, bytes, _, hmetadata, hstep, hmid⟩
  refine .reading_ok rfl ?_
  split
  · rw [hmetadata]
    refine .bind ((follows_append hcodec trivial hmid).mono (fun _ _ h => h)
      (fun _ _ _ => trivial)) ?_
    rintro _ last ⟨settled, rest, _, _, hlast, hcurrent⟩
    exact .reading (fun _ _ => ⟨stored, action, bytes, acknowledged, _, rest,
      settled, hstored, haction, hstep, hlast, hcurrent⟩) (fun _ _ => trivial)
  · refine .pure ⟨stored, action, bytes, acknowledged, [], [], acknowledged,
      hstored, haction, hstep, .nil _, ?_⟩
    rw [append_nil]
    exact hmid

end

/-- Whatever a session leaves behind is reached by the steps of the store. -/
theorem traces_operation (operation : Operation) (h : root.Holds codec maxBindings entries state) :
    Traces (GrantedStep codec maxBindings) (operation.program codec maxBindings)
      root (fun _ _ => True) := by
  have hdone : ∀ {α : Type} {program : Store α} {post : α → Root → Prop},
      Traces (GrantedStep codec maxBindings) program root post →
      Traces (GrantedStep codec maxBindings) (do let _ ← program) root
        (fun _ _ => True) := fun htraces =>
    Durable.Follows.bind htraces (fun _ _ _ => Durable.Follows.pure trivial)
  cases operation with
  | schedule transition =>
    exact hdone ((follows_schedule hcodec h).mono (fun _ _ h => h) (by simp))
  | isCurrent pending =>
    exact hdone ((follows_isCurrent hcodec h).mono (fun _ _ h => h) (by simp))
  | stage artifacts pending heads audit bundle => exact hdone (traces_stageStatus hcodec h)
  | load relation coordination => exact hdone (traces_loadStagedStatus hcodec h)
  | candidates => exact hdone (traces_claimCandidates hcodec h)
  | select shard => exact hdone (traces_claimSelection hcodec h)
  | complete staged => exact hdone (traces_completeStatus hcodec h)

end

end Sessions

/-! ### Worlds -/

/-- The entries a world commits to: its files do, and every opened store was
    opened for their capacity and is behind them. -/
structure World.Commits (codec : JournalCodec) (maxBindings : Nat) (world : World)
    (entries : List JournalEntry) (state : State) : Prop where
  disk : world.disk.Commits codec maxBindings entries state
  handles : ∀ handle opened, world.handles handle = some opened →
    opened.maxBindings = maxBindings ∧ Behind codec maxBindings opened.state entries state

/-- Nothing has been committed and no store is open. -/
def World.Unprepared (world : World) : Prop :=
  world.disk.Fresh ∧ ∀ handle, world.handles handle = none

/-- A world that commits to some entries and more, each of them granted. -/
def World.Extends (codec : OutboxCodec) (maxBindings : Nat) (entries : List JournalEntry)
    (state : State) (world : World) : Prop :=
  ∃ more bytes state', world.Commits codec maxBindings (entries ++ more) state' ∧
    Replays codec maxBindings state bytes more state' ∧
    ∀ entry ∈ more, entry.action.Granted codec

/-- Valid metadata names a capacity a store can be opened for. -/
theorem validateMetadata_capacity {metadata : RootMetadata}
    (h : validateMetadata metadata = .ok ()) :
    1 ≤ metadata.maxBindings ∧ metadata.maxBindings ≤ bindingLimit := by
  unfold validateMetadata at h
  simp only [bind_eq_ok, guard_eq_ok, Bool.or_eq_true, not_or, Bool.not_eq_true',
    Bool.not_eq_false, Bool.and_eq_true, decide_eq_true_eq] at h
  rcases h with ⟨_, _, _, _, _, _, hguards, _⟩
  exact hguards.1.1.1.1.1.1.1

section Files

variable {codec : JournalCodec} {maxBindings : Nat} {disk : Disk} {entries : List JournalEntry}
  {state state' : State} (h : disk.Commits codec maxBindings entries state)

include h

/-- A store that is just being opened has read nothing. -/
theorem Disk.Commits.holds :
    (⟨disk, .empty⟩ : Root).Holds codec maxBindings entries state := by
  rcases h.journal with ⟨bytes, _, _, hreplay⟩
  exact ⟨h, [], entries, [], bytes, rfl, .nil _, hreplay⟩

theorem Disk.Commits.sameCapacity {maxBindings' : Nat} {entries' : List JournalEntry}
    (h' : disk.Commits codec maxBindings' entries' state') : maxBindings = maxBindings' := by
  rcases h.root with ⟨bytes, hroot, _, hdecode⟩
  rcases h'.root with ⟨bytes', hroot', _, hdecode'⟩
  cases hroot.symm.trans hroot'
  have hframe := (decodeMetadata_eq_ok.mp hdecode).1
  rw [(decodeMetadata_eq_ok.mp hdecode').1, ok.injEq] at hframe
  exact (congrArg RootMetadata.maxBindings hframe).symm

/-- The capacity of a prepared root is one a store can be opened for. -/
theorem Disk.Commits.capacity : 1 ≤ maxBindings ∧ maxBindings ≤ bindingLimit := by
  rcases h.root with ⟨bytes, _, _, hdecode⟩
  exact validateMetadata_capacity (Frame.encode_eq_ok
    (Frame.encode_of_decode (decodeMetadata_eq_ok.mp hdecode).1)).1

/-- An entry that may follow the committed ones can be applied, and the
    journal with it can be committed. -/
theorem Disk.Commits.accepts {entry : JournalEntry} {chunk : Bytes}
    (hchunk : encodeEntry codec entry = .ok chunk)
    (hvalid : validateAppend state entry chunk.length maxBindings = .ok ()) :
    ∃ applied,
      applyEntry state entry (chainDigest codec chunk) chunk.length maxBindings = .ok applied ∧
      Replays codec maxBindings state chunk [entry] applied ∧
      validateMetadata (applied.metadata maxBindings) = .ok () := by
  rcases h.journal with ⟨bytes, _, _, hreplay⟩
  have happlies : ∃ applied, applyEntry state entry (chainDigest codec chunk) chunk.length
      maxBindings = .ok applied :=
    applyEntry_of_valid hvalid (hreplay.bindingCount_le (Nat.zero_le _))
  rcases happlies with ⟨applied, happlied⟩
  have hstep : Replays codec maxBindings state chunk [entry] applied := .single hchunk happlied
  exact ⟨applied, happlied, hstep,
    (hreplay.append hstep).validateMetadata h.capacity.1 h.capacity.2⟩

end Files

section Worlds

variable {codec : OutboxCodec} {registry : RelationRegistry} {maxBindings : Nat} {disk : Disk}
  {world next : World} {event : Event} {entries more : List JournalEntry} {state state' : State}

section

variable (h : world.Commits codec maxBindings entries state)

include h

/-- An opened store with the files is what a session starts from. -/
theorem World.Commits.holds {handle : Nat} {opened : Handle}
    (hhandle : world.handles handle = some opened) :
    opened.maxBindings = maxBindings ∧
      (⟨world.disk, opened.state⟩ : Root).Holds codec maxBindings entries state :=
  ⟨(h.handles handle opened hhandle).1, h.disk, (h.handles handle opened hhandle).2⟩

theorem World.Commits.after (handle : Nat) {root : Root} {bytes : Bytes}
    (hroot : root.Holds codec maxBindings (entries ++ more) state')
    (hmore : Replays codec maxBindings state bytes more state') :
    (world.after handle maxBindings root).Commits codec maxBindings
      (entries ++ more) state' where
  disk := hroot.commits
  handles := by
    intro other opened hopened
    simp only [World.after, World.setHandle, Function.update_apply] at hopened
    split at hopened
    next =>
      cases hopened
      exact ⟨rfl, hroot.behind⟩
    next =>
      rcases h.handles other opened hopened with ⟨hsame, hbehind⟩
      exact ⟨hsame, hbehind.grow hmore⟩

/-- The world after a session of a store left something behind. -/
theorem World.Commits.session {handle : Nat} {opened : Handle}
    (hhandle : world.handles handle = some opened) {root : Root}
    (hpath : (⟨world.disk, opened.state⟩ : Root).Holds codec opened.maxBindings entries state →
      ReflTransGen (GrantedStep codec opened.maxBindings) ⟨world.disk, opened.state⟩ root) :
    (world.after handle opened.maxBindings root).Extends codec maxBindings entries state := by
  rcases h.holds hhandle with ⟨rfl, hholds⟩
  rcases Root.grows_of_path (hpath hholds) hholds with
    ⟨more, bytes, state', hroot, hmore, hgranted⟩
  exact ⟨more, bytes, state', h.after handle hroot hmore, hmore, hgranted⟩

theorem World.Commits.same : world.Extends codec maxBindings entries state := by
  refine ⟨[], [], state, ?_, .nil state, fun entry hentry => absurd hentry not_mem_nil⟩
  rw [append_nil]
  exact h

/-- Workers carry nothing that is committed. -/
theorem World.Commits.setWorker (worker : Nat) (value : Worker) :
    (world.setWorker worker value).Commits codec maxBindings entries state :=
  ⟨h.disk, h.handles⟩

end

theorem World.Extends.setWorker (h : world.Extends codec maxBindings entries state) (worker : Nat)
    (value : Worker) : (world.setWorker worker value).Extends codec maxBindings entries state := by
  rcases h with ⟨more, bytes, state', hworld, hmore⟩
  exact ⟨more, bytes, state', hworld.setWorker worker value, hmore⟩

/-- Whatever happens next, entries are only ever added. -/
theorem World.Step.grows (hcodec : codec.Lawful) (hstep : world.Step codec registry event next)
    (h : world.Commits codec maxBindings entries state) :
    next.Extends codec maxBindings entries state := by
  -- Opening for the capacity that is committed to.
  have hopen : Follows (GrantedStep codec maxBindings) (openStore codec maxBindings)
      ⟨world.disk, .empty⟩ _ _ :=
    follows_openStore hcodec (Or.inr ⟨entries, state, h.disk.holds⟩)
  cases hstep with
  | opened handle other hanswer =>
    by_cases hother : other = maxBindings
    · subst hother
      rcases Root.grows_of_path (hopen.reaches mem_cons_self) h.disk.holds with
        ⟨more, bytes, state', hroot, hmore, hgranted⟩
      exact ⟨more, bytes, state', h.after handle hroot hmore, hmore, hgranted⟩
    · exact ((follows_openStore_other h.disk hother).answered hanswer).elim
  | @openCut other root hleft =>
    by_cases hother : other = maxBindings
    · subst hother
      rcases Root.grows_of_path (hopen.reaches hleft) h.disk.holds with
        ⟨more, bytes, state', hroot, hmore, hgranted⟩
      refine ⟨more, bytes, state', ⟨hroot.commits, fun other opened hopened => ?_⟩, hmore, hgranted⟩
      exact ⟨(h.handles other opened hopened).1, (h.handles other opened hopened).2.grow hmore⟩
    · -- Opening for another capacity writes nothing.
      have hpath := (follows_openStore_other h.disk hother).reaches hleft
      have hroot : root = ⟨world.disk, .empty⟩ := by
        induction hpath with
        | refl => rfl
        | tail _ hlast _ => exact hlast.elim
      rw [hroot]
      exact h.same
  | closed handle =>
    refine World.Commits.same ⟨h.disk, fun other opened hopened => ?_⟩
    simp only [World.setHandle, Function.update_apply] at hopened
    split at hopened
    next => cases hopened
    next => exact h.handles other opened hopened
  | scheduled _ hhandle =>
    exact h.session hhandle (fun hholds => (follows_schedule hcodec hholds).reaches mem_cons_self)
  | current _ hhandle =>
    exact h.session hhandle (fun hholds => (follows_isCurrent hcodec hholds).reaches mem_cons_self)
  | session operation hhandle hleft =>
    exact h.session hhandle (fun hholds =>
      (traces_operation hcodec operation hholds).reaches hleft)
  | listed hhandle _ _ =>
    exact (h.session hhandle (fun hholds =>
      (traces_claimCandidates hcodec hholds).reaches mem_cons_self)).setWorker _ _
  | unselected hhandle _ _ | selected hhandle _ _ =>
    exact (h.session hhandle (fun hholds =>
      (traces_claimSelection hcodec hholds).reaches mem_cons_self)).setWorker _ _
  | claimed _ hhandle _ _ _ =>
    exact (h.session hhandle (fun hholds =>
      (traces_loadStagedStatus hcodec hholds).reaches mem_cons_self)).setWorker _ _
  | acknowledged hhandle _ _ =>
    exact (h.session hhandle (fun hholds =>
      (traces_acknowledge hcodec hholds).reaches mem_cons_self)).setWorker _ _
  | acknowledgeCut hhandle _ hleft =>
    exact (h.session hhandle (fun hholds =>
      (traces_acknowledge hcodec hholds).reaches hleft)).setWorker _ _
  | skipped | locked | dropped | abandoned => exact (h.setWorker _ _).same

/-- Before anything is committed, opening is all that can commit. -/
theorem World.Step.prepares (hcodec : codec.Lawful) (hstep : world.Step codec registry event next)
    (h : world.Unprepared) :
    next.Unprepared ∨ ∃ maxBindings entries state,
      next.Commits codec maxBindings entries state ∧
        ∀ entry ∈ entries, entry.action.Granted codec := by
  have hnone : ∀ {handle : Nat} {opened : Handle}, world.handles handle = some opened → False := by
    intro handle opened hopened
    rw [h.2 handle] at hopened
    cases hopened
  have hopen : ∀ maxBindings, Follows (GrantedStep codec maxBindings)
      (openStore codec maxBindings) ⟨world.disk, .empty⟩
      (fun _ next => ∃ entries state,
        next.Current codec maxBindings entries state) (fun _ _ => True) :=
    fun maxBindings => follows_openStore hcodec (Or.inl ⟨h.1, rfl⟩)
  cases hstep with
  | opened handle maxBindings hanswer =>
    rcases (hopen maxBindings).answered hanswer with ⟨_, _, hcurrent⟩
    rcases Root.fresh_of_path ((hopen maxBindings).reaches mem_cons_self) h.1 rfl with
      ⟨hfresh, _⟩ | ⟨entries, state, hroot, hgranted⟩
    · exact absurd hfresh hcurrent.commits.not_fresh
    refine Or.inr ⟨maxBindings, entries, state,
      ⟨hroot.commits, fun other opened hopened => ?_⟩, hgranted⟩
    simp only [World.after, World.setHandle, Function.update_apply] at hopened
    split at hopened
    next =>
      cases hopened
      exact ⟨rfl, hroot.behind⟩
    next => exact (hnone hopened).elim
  | @openCut maxBindings root hleft =>
    rcases Root.fresh_of_path ((hopen maxBindings).reaches hleft) h.1 rfl with
      ⟨hfresh, _⟩ | ⟨entries, state, hroot, hgranted⟩
    · exact Or.inl ⟨hfresh, h.2⟩
    · exact Or.inr ⟨maxBindings, entries, state,
        ⟨hroot.commits, fun other opened hopened => (hnone hopened).elim⟩, hgranted⟩
  | closed handle =>
    refine Or.inl ⟨h.1, fun other => ?_⟩
    simp only [World.setHandle, Function.update_apply]
    split
    next => rfl
    next => exact h.2 other
  | scheduled _ hhandle | current _ hhandle | session _ hhandle _ => exact (hnone hhandle).elim
  | listed hhandle _ _ | unselected hhandle _ _ | selected hhandle _ _ =>
    exact (hnone hhandle).elim
  | claimed _ hhandle _ _ _ | acknowledged hhandle _ _ | acknowledgeCut hhandle _ _ =>
    exact (hnone hhandle).elim
  | skipped | locked | dropped | abandoned => exact Or.inl h

variable {events : List Event}

theorem World.Run.grows (hcodec : codec.Lawful) (hrun : World.Run codec registry world events next)
    (h : world.Commits codec maxBindings entries state) :
    next.Extends codec maxBindings entries state := by
  induction hrun with
  | nil => exact h.same
  | snoc _ hstep ih =>
    rcases ih with ⟨more, bytes, mid, hmid, hmore, hgranted⟩
    rcases hstep.grows hcodec hmid with ⟨more', bytes', last, hlast, hmore', hgranted'⟩
    rw [append_assoc] at hlast
    exact ⟨more ++ more', bytes ++ bytes', last, hlast, hmore.append hmore',
      forall_mem_append.mpr ⟨hgranted, hgranted'⟩⟩

/-- Every run starts with nothing, and from its first opening on commits to
    some entries, each of them granted. -/
theorem World.Run.commits (hcodec : codec.Lawful)
    (hrun : World.Run codec registry .initial events world) :
    world.Unprepared ∨ ∃ maxBindings entries state,
      world.Commits codec maxBindings entries state ∧
        ∀ entry ∈ entries, entry.action.Granted codec := by
  induction hrun with
  | nil => exact Or.inl ⟨⟨rfl, Or.inl rfl⟩, fun _ => rfl⟩
  | snoc _ hstep ih =>
    rcases ih with hunprepared | ⟨maxBindings, entries, state, hcommits, hgranted⟩
    · exact hstep.prepares hcodec hunprepared
    · rcases hstep.grows hcodec hcommits with ⟨more, _, state', hlast, _, hgranted'⟩
      exact Or.inr ⟨maxBindings, entries ++ more, state', hlast,
        forall_mem_append.mpr ⟨hgranted, hgranted'⟩⟩

/-- The entries that the files of a run commit to are those of its world. -/
theorem World.Run.committed (hcodec : codec.Lawful)
    (hrun : World.Run codec registry .initial events world)
    (h : world.disk.Commits codec maxBindings entries state) :
    world.Commits codec maxBindings entries state ∧
      ∀ entry ∈ entries, entry.action.Granted codec := by
  rcases hrun.commits hcodec with hunprepared | ⟨maxBindings', entries', state', hworld, hgranted⟩
  · exact absurd hunprepared.1 h.not_fresh
  · have hmax : maxBindings' = maxBindings := hworld.disk.sameCapacity h
    subst hmax
    rcases hworld.disk.unique hcodec h with ⟨rfl, rfl⟩
    exact ⟨hworld, hgranted⟩

/-! ### Catching up -/

/-- The state a store holds once it has caught up with the files. -/
def synchronized (codec : JournalCodec) (maxBindings : Nat) (disk : Disk) (cached : State) :
    Except StoreError State :=
  (Relations.session codec maxBindings (fun _ => held) ⟨disk, cached⟩).answer

/-- Catching up ends in the committed state, from whatever is behind it. -/
theorem synchronized_of_behind {codec : JournalCodec} (hcodec : codec.Lawful) {cached : State}
    (h : disk.Commits codec maxBindings entries state)
    (hbehind : Behind codec maxBindings cached entries state) :
    synchronized codec maxBindings disk cached = .ok state := by
  have hsession : Finishes (Root.Step (fun _ => True) codec maxBindings)
      (Relations.session codec maxBindings (fun _ => held)) ⟨disk, cached⟩
      (fun answer _ => answer = state) := by
    refine Follows.session hcodec ⟨h, hbehind⟩ (fun next hnext => ?_)
    unfold Relations.held
    refine .reading (fun answer hanswer => ?_) (fun error herror => ?_)
    · rw [ok.injEq] at hanswer
      exact hanswer.symm.trans hnext.held
    · cases herror
  rcases hsession.succeeds with ⟨answer, hanswer, rfl⟩
  exact hanswer

/-- Catching up is replaying everything. In every world a run reaches, the
    files commit to entries, and

    * every opened store is behind them, and whatever is behind them catches
      up, as reading from nothing does, to the state all of them add up to;
    * no later world takes one of them away;
    * an entry that may follow them is read back as it was written, however
      much follows it, and it can be applied. -/
theorem synchronize_replays_committed (hcodec : codec.Lawful) {events : List Event}
    (hrun : World.Run codec registry .initial events world) :
    (∀ handle opened, world.handles handle = some opened →
      ∃ entries state, world.disk.Commits codec opened.maxBindings entries state ∧
        Behind codec opened.maxBindings opened.state entries state) ∧
    ∀ maxBindings entries state, world.disk.Commits codec maxBindings entries state →
      (∀ cached, Behind codec maxBindings cached entries state →
        synchronized codec maxBindings world.disk cached = .ok state ∧
        synchronized codec maxBindings world.disk .empty = .ok state) ∧
      (∀ later events', World.Run codec registry world events' later →
        ∃ more bytes state', later.disk.Commits codec maxBindings (entries ++ more) state' ∧
          Replays codec maxBindings state bytes more state') ∧
      ∀ entry chunk, encodeEntry codec entry = .ok chunk →
        validateAppend state entry chunk.length maxBindings = .ok () →
        (∀ rest remaining, chunk.length ≤ remaining →
          readEntry codec remaining (chunk ++ rest) = .ok (entry, chunk, rest)) ∧
        ∃ applied, applyEntry state entry (chainDigest codec chunk) chunk.length
            maxBindings = .ok applied ∧
          validateMetadata (applied.metadata maxBindings) = .ok () := by
  refine ⟨fun handle opened hopened => ?_, fun maxBindings entries state h => ⟨?_, ?_, ?_⟩⟩
  · rcases hrun.commits hcodec with hunprepared | ⟨maxBindings, entries, state, hworld, _⟩
    · rw [hunprepared.2 handle] at hopened
      cases hopened
    · rcases hworld.handles handle opened hopened with ⟨rfl, hbehind⟩
      exact ⟨entries, state, hworld.disk, hbehind⟩
  · intro cached hbehind
    exact ⟨synchronized_of_behind hcodec h hbehind, synchronized_of_behind hcodec h h.holds.behind⟩
  · intro later events' hlater
    rcases hlater.grows hcodec (hrun.committed hcodec h).1 with
      ⟨more, bytes, state', hlast, hmore, _⟩
    exact ⟨more, bytes, state', hlast.disk, hmore⟩
  · intro entry chunk hchunk hvalid
    rcases h.accepts hchunk hvalid with ⟨applied, happlied, _, hmetadata⟩
    exact ⟨fun rest remaining hfits => readEntry_chunk hcodec hchunk hfits rest, applied,
      happlied, hmetadata⟩

end Worlds

namespace Sample

/-- The hash of the sample: the number that the bytes spell, after a one. -/
def sha256 (bytes : Bytes) : Digest := ⟨ofBeBytes (1 :: bytes)⟩

/-- Each value of a list is written as its position, counted out in zeros. -/
def listed {α : Type} [DecidableEq α] (values : List α) : Serde α where
  toVec value := if value ∈ values then some (List.replicate (values.idxOf value) 0) else none
  fromSlice bytes := values[bytes.length]?

theorem listed_roundTrips {α : Type} [DecidableEq α] (values : List α) :
    (listed values).RoundTrips := by
  intro value bytes h
  unfold listed at h ⊢
  dsimp only at h ⊢
  split at h
  next hmem =>
    rw [some.injEq] at h
    rw [← h, length_replicate, getElem?_eq_getElem (idxOf_lt_length_of_mem hmem), getElem_idxOf]
  next => cases h

theorem oidHex_digits : oidHex .sha1 "0123456789012345678901234567890123456789" = true := by decide

theorem bounded_main : bounded (utf8 "main") 256 opaqueByte = true := by decide

theorem bounded_hook : bounded (utf8 "hook") 256 opaqueByte = true := by decide

def oid : Oid := ⟨.sha1, "0123456789012345678901234567890123456789", oidHex_digits⟩

def provider : ProviderIdentity := ⟨"github", ⟨"main", bounded_main⟩⟩

def limits : RelationLimits := ⟨1, 1, 1, 1⟩

def source : ProjectionSource := .blob ⟨"README.md", by decide⟩

def subject (role : ArtifactId) (repository : RepositoryIdentity) : RegisteredSubject :=
  { role
    scope := ⟨provider, ⟨"hook", bounded_hook⟩, repository⟩
    target := "refs/heads/main"
    objectFormat := .sha1
    credential := ⟨"token", by decide⟩
    source
    limits }

def plan : RegisteredRelation :=
  { identity := ⟨"docs"⟩
    contextDigest := ⟨1⟩
    projection := .codeTextV1
    subjects := (subject ⟨"left"⟩ ⟨"github.com", "owner", "left", by decide⟩,
      subject ⟨"right"⟩ ⟨"github.com", "owner", "right", by decide⟩)
    aggregateLimits := limits
    statusDestinations := [⟨⟨"left"⟩, "amiss"⟩] }

/-- The plan at one revision, under a coordination. -/
def transition (coordination : String) : RelationTransition :=
  ⟨⟨plan, ⟨"left"⟩⟩, ⟨coordination⟩,
    (⟨⟨"left"⟩, ⟨oid, oid⟩, ⟨oid, oid⟩⟩, ⟨⟨"right"⟩, ⟨oid, oid⟩, ⟨oid, oid⟩⟩)⟩

def boundSubject (subject : RegisteredSubject) : BoundPlanSubject :=
  { role := subject.role
    provider := subject.scope.provider
    integration := subject.scope.integration
    repositoryHost := subject.scope.repository.host
    repositoryOwner := subject.scope.repository.owner
    repositoryName := subject.scope.repository.name
    target := subject.target
    objectFormat := subject.objectFormat
    credential := subject.credential
    source := domainDigest sha256 "amiss/controller-relation-source-binding-v1" []
    limits := subject.limits }

def planDigest : Digest := domainDigest sha256 "amiss/controller-relation-plan-binding-v1" []

def work (coordination : String) : BoundWork :=
  ⟨plan.identity, planDigest, ⟨coordination⟩,
    (boundWorkSubject (transition coordination).subjects.1,
      boundWorkSubject (transition coordination).subjects.2)⟩

def works : Serde BoundWork := listed [work "a", work "b"]

def workDigest (coordination : String) : Digest :=
  domainDigest sha256 "amiss/controller-relation-work-binding-v1"
    ((works.toVec (work coordination)).getD [])

def statusDigest : Digest := domainDigest sha256 "amiss/controller-relation-status-binding-v1" []

def destination : DestinationIdentity :=
  ⟨provider, plan.subjects.1.scope.repository, "amiss"⟩

def destinationDigest : Digest :=
  domainDigest sha256 "amiss/controller-relation-destination-binding-v1" []

/-- Sixty-four hexadecimal digits. -/
def artifactId : String := "0123456789abcdef0123456789abcdef0123456789abcdef0123456789abcdef"

/-- The batch of the second work. -/
def staging : JournalAction :=
  .stage planDigest (workDigest "b")
    ⟨plan.identity, ⟨"b"⟩, ⟨"left"⟩, 2, statusDigest, [destinationDigest], artifactId⟩

/-- Two works are admitted, and the batch of the second is staged, delivered
    and completed. -/
def actions : List JournalAction :=
  [.schedule plan.identity planDigest ⟨⟨"a"⟩, workDigest "a", ⟨"left"⟩, 1⟩,
    .schedule plan.identity planDigest ⟨⟨"b"⟩, workDigest "b", ⟨"left"⟩, 2⟩,
    staging,
    .acknowledge plan.identity ⟨"b"⟩ statusDigest destinationDigest,
    .complete plan.identity ⟨"b"⟩ statusDigest]

/-- The chunk of the entry at a position. -/
def chunk (position : Nat) : Bytes :=
  let frame := Frame.around sha256 entryFrame (List.replicate position 0)
  beBytes entryLengthBytes frame.length ++ frame

def tail (count : Nat) : Option Digest :=
  if count = 0 then none
  else some (domainDigest sha256 "amiss/controller-relation-journal-chain-v3" (chunk (count - 1)))

def entries : List JournalEntry := actions.mapIdx (fun position action => ⟨tail position, action⟩)

/-- The head after the first entries. -/
def head (count : Nat) : RootMetadata :=
  ⟨4, min count 2, count, ((List.range count).map (fun position => (chunk position).length)).sum,
    tail count⟩

def snapshot : RelationSnapshot := ⟨oid, oid⟩

def digests : RelationAuditDigests := ⟨⟨0⟩, ⟨0⟩, none, ⟨0⟩, .aligned⟩

def codec : OutboxCodec :=
  { sha256
    entry := listed entries
    root := listed ((List.range 6).map head)
    canonicalSource := (listed [source]).toVec
    boundPlan := (listed [⟨plan.identity, plan.contextDigest, plan.projection,
      (boundSubject plan.subjects.1, boundSubject plan.subjects.2), plan.aggregateLimits,
      plan.statusDestinations⟩]).toVec
    boundWork := works.toVec
    boundStatus := fun _ => some []
    boundDestination := (listed [destination]).toVec
    parsePlan := fun _ => some ⟨plan.identity, ⟨"b"⟩, ⟨"left"⟩,
      (⟨⟨"left"⟩, snapshot, snapshot⟩, ⟨⟨"right"⟩, snapshot, snapshot⟩)⟩
    validateAudit := fun _ => some digests
    parseUrl := fun text => some ⟨"https", some "host", "", none, none, none, "/audits", text⟩ }

theorem codec_lawful : codec.Lawful := ⟨listed_roundTrips _, listed_roundTrips _⟩

def opened : Root := (openStore codec 4 ⟨.empty, .empty⟩).store

/-- The root a schedule call leaves behind, and what the call answers. -/
def admitting (transition : RelationTransition) (root : Root) : Root :=
  (schedule codec 4 transition root).store

def answering (transition : RelationTransition) (root : Root) :
    Except StoreError RelationAdmission :=
  (schedule codec 4 transition root).answer

def first : Root := admitting (transition "a") opened

def second : Root := admitting (transition "b") first

theorem opened_answer : (openStore codec 4 ⟨.empty, .empty⟩).answer = .ok () := by
  decide +kernel

def registry : RelationRegistry := (relationRegistry [plan]).toOption.getD ⟨∅⟩

/-- One process has the root open, and nobody claims. -/
def world (root : Root) : World := World.initial.after 0 4 root

theorem world_after (root next : Root) : (world root).after 0 4 next = world next := by
  unfold world World.after World.setHandle
  rw [Function.update_idem]

theorem world_disk (root : Root) : (world root).disk = root.disk := rfl

theorem world_handles (root : Root) : (world root).handles 0 = some ⟨4, root.state⟩ := by
  simp [world, World.after, World.setHandle]

theorem run_opened : World.Run codec registry .initial [.quiet] (world opened) :=
  .snoc (.nil _) (.opened 0 4 opened_answer)

theorem run_scheduled {root : Root} {events : List Event} (transition : RelationTransition)
    (h : World.Run codec registry .initial events (world root)) :
    World.Run codec registry .initial
      (events ++ [.scheduled transition (answering transition root)])
      (world (admitting transition root)) := by
  have hstep : (world root).Step codec registry _ _ := .scheduled transition (world_handles root)
  rw [world_after] at hstep
  exact .snoc h hstep

theorem run_second : World.Run codec registry .initial
    [.quiet, .scheduled (transition "a") (answering (transition "a") opened),
      .scheduled (transition "b") (answering (transition "b") first)] (world second) :=
  run_scheduled (transition "b") (run_scheduled (transition "a") run_opened)

theorem second_commits : ∃ entries state, (world second).Commits codec 4 entries state := by
  rcases run_second.commits codec_lawful with
    hunprepared | ⟨maxBindings, entries, state, hworld, _⟩
  · cases (world_handles second).symm.trans (hunprepared.2 0)
  · rcases hworld.handles 0 _ (world_handles second) with ⟨rfl, _⟩
    exact ⟨entries, state, hworld⟩

end Sample

open Relations.Sample

/-- Two works were admitted; the process that admitted them and one that has
    read nothing catch up to the same state, which counts both entries. -/
theorem synchronize_replays_committed_sample :
    ∃ entries state, second.disk.Commits codec 4 entries state ∧
      Behind codec 4 second.state entries state ∧
      synchronized codec 4 second.disk second.state = .ok state ∧
      synchronized codec 4 second.disk .empty = .ok state ∧
      state.entryCount = 2 := by
  rcases synchronize_replays_committed codec_lawful run_second with ⟨hopened, hcommitted⟩
  rw [world_disk] at hopened hcommitted
  rcases hopened 0 _ (world_handles second) with ⟨entries, state, hcommits, hbehind⟩
  dsimp only at hcommits hbehind
  rcases (hcommitted 4 entries state hcommits).1 _ hbehind with ⟨hheld, hempty⟩
  have hcount : (synchronized codec 4 second.disk .empty).map
      State.entryCount = .ok 2 := by
    decide +kernel
  refine ⟨entries, state, hcommits, hbehind, hheld, hempty, ?_⟩
  rw [hempty] at hcount
  exact ok.inj hcount

/-! ### Room for what follows a schedule -/

section Full

variable {codec : JournalCodec} {maxBindings : Nat} {disk : Disk} {entries : List JournalEntry}
  {state : State} {action : JournalAction}

/-- The limits leave room for all entries of every binding a journal has. -/
theorem Disk.Commits.room (h : disk.Commits codec maxBindings entries state) {chunk : Bytes}
    (hvalid : validateAction state maxBindings action = .ok ())
    (hchunk : encodeEntry codec ⟨state.tailDigest, action⟩ = .ok chunk) :
    (∃ relation planBinding binding, action = .schedule relation planBinding binding) ∨
      (∃ next, nextMetadata codec maxBindings (state.metadata maxBindings) action chunk =
        .ok next) ∧
      validateAppend state ⟨state.tailDigest, action⟩ chunk.length maxBindings = .ok () := by
  have hnone : (∃ relation planBinding binding, action = .schedule relation planBinding binding) ∨
      bindingIncrement action = 0 := by
    cases action with
    | schedule relation planBinding binding => exact .inl ⟨relation, planBinding, binding, rfl⟩
    | stage | acknowledge | complete => exact .inr rfl
  refine hnone.imp_right (fun hnone => ?_)
  rcases h.journal with ⟨bytes, _, _, hreplay⟩
  have hbindings := hreplay.bindingCount_le (Nat.zero_le _)
  rcases hreplay.room hvalid hnone hchunk with ⟨hentries, hbytes⟩
  have hentriesLimit := hentries.trans (Nat.mul_le_mul_right maxActionsPerBinding hbindings)
  have hbytesLimit := hbytes.trans (Nat.mul_le_mul_right maxJournalBytesPerBinding hbindings)
  -- A capacity that can be opened keeps every limit within 64 bits.
  have hentriesFit : maxBindings * maxActionsPerBinding < 2 ^ 64 :=
    (Nat.mul_le_mul_right _ h.capacity.2).trans_lt (by decide)
  have hbytesFit : maxBindings * maxJournalBytesPerBinding < 2 ^ 64 :=
    (Nat.mul_le_mul_right _ h.capacity.2).trans_lt (by decide)
  have hcountFit : state.bindingCount < 2 ^ 64 :=
    (hbindings.trans h.capacity.2).trans_lt (by decide)
  refine ⟨?_, validateAppend_eq_ok.mpr ⟨hentriesFit, hbytesFit, rfl, hentriesLimit, hbytesLimit,
    hvalid⟩⟩
  simp only [nextMetadata, journalByteLimit, State.metadata, hnone, Nat.add_zero,
    checkedU64_eq_some.mpr ⟨hbytesLimit.trans_lt hbytesFit, rfl⟩,
    checkedU64_eq_some.mpr ⟨hentriesLimit.trans_lt hentriesFit, rfl⟩,
    checkedU64_eq_some.mpr ⟨hbytesFit, rfl⟩, checkedU64_eq_some.mpr ⟨hentriesFit, rfl⟩,
    checkedU64_eq_some.mpr ⟨hcountFit, rfl⟩, any_some, filter_some,
    decide_eq_true hbytesLimit, decide_eq_true hentriesLimit, decide_eq_true hbindings, if_true,
    orFull, orConfiguration, ok_bind]
  exact ⟨_, rfl⟩

theorem orCorrupt_ne_full {α : Type} (value : Option α) : orCorrupt value ≠ .error .full := by
  cases value with
  | none => simp [orCorrupt]
  | some => simp [orCorrupt]

theorem encodeMetadata_ne_full (metadata : RootMetadata) :
    encodeMetadata codec metadata ≠ .error .full := by
  refine bind_ne_error ?_ (fun _ => ?_)
  · refine bind_ne_error (orCorrupt_ne_full _) (fun _ => ?_)
    refine bind_ne_error (orCorrupt_ne_full _) (fun _ => ?_)
    refine bind_ne_error (orCorrupt_ne_full _) (fun _ => ?_)
    simp [ite_eq_iff]
  · repeat' split
    all_goals simp

theorem encodeEntry_ne_full (entry : JournalEntry) : encodeEntry codec entry ≠ .error .full := by
  refine bind_ne_error (bind_ne_error ?_ (fun _ => ?_)) (fun _ => ?_)
  · simp [validateEntry, ite_eq_iff]
  · repeat' split
    all_goals simp
  · simp [ite_eq_iff]

/-- An append that its state takes and that schedules nothing is not refused as full. -/
theorem Disk.Commits.appendPlan_ne_full (h : disk.Commits codec maxBindings entries state)
    (hvalid : validateAction state maxBindings action = .ok ())
    (hschedule : ¬ ∃ relation planBinding binding,
      action = .schedule relation planBinding binding) :
    appendPlan codec maxBindings state action ≠ .error .full := by
  unfold appendPlan
  cases hchunk : encodeEntry codec ⟨state.tailDigest, action⟩ with
  | error =>
    intro hfull
    exact encodeEntry_ne_full _ (hchunk.trans (by simpa using hfull))
  | ok chunk =>
    rcases (h.room hvalid hchunk).resolve_left hschedule with ⟨⟨next, hnext⟩, happend⟩
    -- What is left is writing the head.
    rw [ok_bind, hnext, ok_bind, happend, ok_bind]
    exact bind_ne_error (encodeMetadata_ne_full next) (by simp)

end Full

/-- Every run commits to a journal with room for all entries of every binding it
    has: of the actions its state takes, only a new schedule can find it full, and
    an operation answers so only if it decides so or appends a schedule. -/
theorem only_schedules_find_full {codec : JournalCodec} {maxBindings : Nat} {disk : Disk}
    {entries : List JournalEntry} {state : State}
    (h : disk.Commits codec maxBindings entries state) :
    (∀ action chunk, validateAction state maxBindings action = .ok () →
      encodeEntry codec ⟨state.tailDigest, action⟩ = .ok chunk →
      (∃ relation planBinding binding, action = .schedule relation planBinding binding) ∨
        (∃ next, nextMetadata codec maxBindings (state.metadata maxBindings) action chunk =
          .ok next) ∧
        validateAppend state ⟨state.tailDigest, action⟩ chunk.length maxBindings = .ok ()) ∧
    ∀ (cached : State) {α : Type} (decision : State → Except StoreError (α × Option JournalAction)),
      codec.Lawful → Behind codec maxBindings cached entries state →
      (session codec maxBindings (fun metadata => enact codec maxBindings metadata decision)
        ⟨disk, cached⟩).answer = .error .full →
      decision state = .error .full ∨ ∃ answer action, decision state = .ok (answer, some action) ∧
        (validateAction state maxBindings action = .ok () →
          ∃ relation planBinding binding, action = .schedule relation planBinding binding) := by
  refine ⟨fun action chunk hvalid hchunk => h.room hvalid hchunk, ?_⟩
  intro cached _ decision hcodec hbehind hfull
  have hsession : Follows (Root.Step (fun _ => True) codec maxBindings)
      (session codec maxBindings (fun metadata => enact codec maxBindings metadata decision))
      ⟨disk, cached⟩ (fun _ _ => True)
      (fun error _ => decision state = .error error ∨ ∃ answer action,
        decision state = .ok (answer, some action) ∧
        appendPlan codec maxBindings state action = .error error) :=
    Follows.session hcodec ⟨h, hbehind⟩ (fun next hnext =>
      (follows_enact hcodec (by simp) hnext).mono (by simp) (fun _ _ herror => herror.1))
  refine (hsession.failed hfull).imp_right ?_
  rintro ⟨answer, action, hdecision, hplan⟩
  refine ⟨answer, action, hdecision, fun hvalid => ?_⟩
  by_contra hschedule
  exact h.appendPlan_ne_full hvalid hschedule hplan

/-- After two works were admitted, the batch of the second has room. -/
theorem only_schedules_find_full_sample :
    ∃ entries state, second.disk.Commits codec 4 entries state ∧
      validateAction state 4 staging = .ok () ∧
      (∃ next, nextMetadata codec 4 (state.metadata 4) staging (chunk 2) = .ok next) ∧
      validateAppend state ⟨state.tailDigest, staging⟩ (chunk 2).length 4 = .ok () := by
  rcases second_commits with ⟨entries, state, hcommits⟩
  have hdisk := hcommits.disk
  rw [world_disk] at hdisk
  have hchecks : (synchronized codec 4 second.disk .empty).map (fun state =>
      (validateAction state 4 staging, encodeEntry codec ⟨state.tailDigest, staging⟩)) =
        .ok (.ok (), .ok (chunk 2)) := by
    decide +kernel
  rw [synchronized_of_behind codec_lawful hdisk hdisk.holds.behind] at hchecks
  rcases Prod.mk.inj (ok.inj hchecks) with ⟨hvalid, hchunk⟩
  rcases (only_schedules_find_full hdisk).1 staging _ hvalid hchunk with ⟨_, _, _, habsurd⟩ | hroom
  · cases habsurd
  · exact ⟨entries, state, hdisk, hvalid, hroom⟩

end Relations

end Amiss
