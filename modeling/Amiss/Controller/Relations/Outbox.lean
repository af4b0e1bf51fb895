import Amiss.Controller.Relations.Store

/-!
# The Relation Status Outbox

A finished audit becomes a status batch: one update for each configured
destination, staged in the journal while its work is current, delivered
destination by destination and completed when all of them are acknowledged.
The journal stores a digest of the whole batch and of each destination; the
batch itself is put together again from the operator's registry and the
retained audit whenever it is needed, and must then have the stored digests.

A delivery is claimed under an operating-system lock on its shard, which is
the first byte of its destination digest. The claim is several sessions of the
store with the lock taken in between, so other processes act in the middle of
it; each session is a program of its own here, and the state machine that runs
them one after the other is in the module on runs.

Replaying an audit, parsing a relation plan and the artifact store belong to
other components. They are fields of `OutboxCodec`, or answers an operation is
given.

## Main definitions

* `RelationRegistry`, `relationRegistry`: The operator's plans.
* `relationStatusTargets`, `stageRelationStatus`: Freezing a batch.
* `storeStatus`, `reopenStatus`: A batch as it is stored, and put together again.
* `pendingDeliveries`: The next delivery of each destination.
* `stageStatus`, `claimCandidates`, `claimSelection`, `loadStagedStatus`,
  `acknowledgeStatusDestination`, `completeStatus`: The sessions.
-/

namespace Amiss

namespace Relations

/-! ### Batches -/

structure RelationSnapshot where
  commit : Oid
  tree : Oid

/-- What a provider says a subject's head is. -/
structure RelationSubjectHead where
  subject : RegisteredSubject
  candidate : RelationSnapshot

structure RelationStatusTarget where
  role : ArtifactId
  scope : PlanScope
  credential : OpaqueId
  candidateCommit : Oid
  requiredStatusName : String
  deriving DecidableEq

structure RelationStatusTargets where
  relation : ArtifactId
  coordination : ArtifactId
  triggerRole : ArtifactId
  fence : LeaseFence
  destinations : List RelationStatusTarget
  deriving DecidableEq

inductive RelationVerdict where
  | aligned
  | introducedDrift
  | preExistingDrift
  | resolvedDrift
  | unproven
  deriving DecidableEq

structure RelationAuditDigests where
  reportDigest : Digest
  planDigest : Digest
  evidenceDigest : Option Digest
  assessmentDigest : Digest
  verdict : RelationVerdict
  deriving DecidableEq

/-- The audit an artifact was retained for. Only a relation audit is looked
    into here. -/
inductive ArtifactAuditDigests where
  | publication
  | relation (digests : RelationAuditDigests)
  | locale
  deriving DecidableEq

structure ArtifactAuditReference where
  artifact : ArtifactReference
  audit : ArtifactAuditDigests
  deriving DecidableEq

structure RelationStatusRecord where
  targets : RelationStatusTargets
  audit : ArtifactAuditReference
  completed : Bool
  deriving DecidableEq

/-- The documents of one audit and the transition they are about. -/
structure RelationAuditBundle where
  transition : RelationTransition
  report : Bytes
  plan : Bytes
  evidence : Option Bytes
  assessment : Bytes

/-- An audit as the artifact store hands it back. -/
structure RetainedRelationAudit where
  artifact : ArtifactReference
  report : Bytes
  plan : Bytes
  evidence : Option Bytes
  assessment : Bytes

structure PlannedSubject where
  role : ArtifactId
  base : RelationSnapshot
  candidate : RelationSnapshot

/-- What is read of a parsed relation plan. -/
structure ParsedPlan where
  identity : ArtifactId
  coordination : ArtifactId
  triggerRole : ArtifactId
  subjects : PlannedSubject × PlannedSubject

structure BoundDestination where
  role : ArtifactId
  provider : ProviderIdentity
  integration : OpaqueId
  repository : RepositoryIdentity
  credential : OpaqueId
  objectFormat : ObjectFormat
  candidateCommit : String
  requiredStatusName : String

structure BoundStatus where
  relation : ArtifactId
  coordination : ArtifactId
  triggerRole : ArtifactId
  fence : Nat
  destinations : List BoundDestination
  artifactId : String
  artifactLocator : String
  artifactExpiresAtUnixMillis : Int
  artifactReportDigest : Digest
  audit : RelationAuditDigests

/-- What a destination is outside: a status name at a repository of a
    provider. -/
structure DestinationIdentity where
  provider : ProviderIdentity
  repository : RepositoryIdentity
  requiredStatusName : String
  deriving DecidableEq

/-- The JSON of the outbox, and what it asks of other components. -/
structure OutboxCodec extends BindingCodec where
  boundStatus : BoundStatus → Option Bytes
  boundDestination : DestinationIdentity → Option Bytes
  parsePlan : Bytes → Option ParsedPlan
  validateAudit : RelationAuditBundle → Option RelationAuditDigests
  parseUrl : String → Option ParsedUrl

instance : Coe OutboxCodec BindingCodec := ⟨OutboxCodec.toBindingCodec⟩

def RelationStatusTarget.identity (target : RelationStatusTarget) : DestinationIdentity :=
  ⟨target.scope.provider, target.scope.repository, target.requiredStatusName⟩

variable (plan : RegisteredRelation)

/-- One head names its frozen subject, in the object format of that subject. -/
def headNames (head : RelationSubjectHead)
    (frozen : RelationSubjectTransition) : Bool :=
  head.subject.role == frozen.role &&
    head.candidate.commit.objectFormat == head.subject.objectFormat &&
    head.candidate.tree.objectFormat == head.subject.objectFormat &&
    (both plan.subjects).find? (fun subject => subject.role == frozen.role) == some head.subject

/-- One head is still the frozen candidate. -/
def headCurrent (head : RelationSubjectHead) (frozen : RelationSubjectTransition) : Bool :=
  head.candidate.commit == frozen.commits.candidate && head.candidate.tree == frozen.trees.candidate

/-- The target of one configured destination. -/
def statusTarget (transition : RelationTransition) (destination : RelationStatusDestination) :
    Except RelationStatusError RelationStatusTarget :=
  match (both transition.relation.plan.subjects).find?
      (fun subject => subject.role == destination.subjectRole),
    (both transition.subjects).find? (fun frozen => frozen.role == destination.subjectRole) with
  | some subject, some frozen =>
    .ok ⟨subject.role, subject.scope, subject.credential, frozen.commits.candidate,
      destination.requiredStatusName⟩
  | _, _ => .error .invalidTransition

def relationStatusTargets (pending : PendingRelation)
    (heads : RelationSubjectHead × RelationSubjectHead) :
    Except RelationStatusError RelationStatusTargets :=
  match pending.transition.checked with
  | none => .error .invalidTransition
  | some transition =>
    let heads := sortPair (·.subject.role) heads
    let plan := transition.relation.plan
    if !(headNames plan heads.1 transition.subjects.1 &&
        headNames plan heads.2 transition.subjects.2) then .error .invalidHeads
    else if !(headCurrent heads.1 transition.subjects.1 &&
        headCurrent heads.2 transition.subjects.2) then .error .superseded
    else do
      let destinations ← plan.statusDestinations.mapM (statusTarget transition)
      .ok ⟨plan.identity, transition.coordination, transition.relation.triggerRole, pending.fence,
        sortBy (·.role) destinations⟩

variable (codec : OutboxCodec)

def stageRelationStatus (pending : PendingRelation)
    (current : Option PendingRelation) (heads : RelationSubjectHead × RelationSubjectHead)
    (previous : Option RelationStatusRecord) (audit : ArtifactAuditReference)
    (bundle : RelationAuditBundle) :
    Except RelationStatusError (Option RelationStatusRecord) :=
  if current ≠ some pending then .error .superseded
  else do
    let targets ← relationStatusTargets pending heads
    if bundle.transition ≠ pending.transition then .error .invalidAudit
    else
      match codec.validateAudit bundle with
      | none => .error .invalidAudit
      | some digests =>
        if audit.audit ≠ .relation digests ∨ !audit.artifact.isValid codec.parseUrl ∨
            audit.artifact.reportDigest ≠ digests.reportDigest ∨
            audit.artifact.semanticDigest.isSome ∨ audit.artifact.assessmentDigest.isSome ∨
            audit.artifact.externalTally.isSome ∨ audit.artifact.externalIncomplete then
          .error .invalidAudit
        else
          let requested : RelationStatusRecord := ⟨targets, audit, false⟩
          match previous with
          | none => .ok (some requested)
          | some previous =>
            if previous.targets ≠ requested.targets ∨ previous.audit ≠ requested.audit then
              .error .bindingConflict
            else .ok (if previous.completed then none else some previous)

def completeRelationStatus (current staged : RelationStatusRecord) :
    Except RelationStatusError RelationStatusRecord :=
  if current.targets ≠ staged.targets ∨ current.audit ≠ staged.audit then .error .bindingConflict
  else .ok { current with completed := true }

/-! ### The registry -/

/-- The operator's plans, by identity. -/
structure RelationRegistry where
  plans : BTreeMap ArtifactId RegisteredRelation

/-- The plan with its subjects and destinations in the order of their roles. -/
def sortedPlan : RegisteredRelation :=
  { plan with
    subjects := sortPair (·.role) plan.subjects
    statusDestinations := sortBy (·.subjectRole) plan.statusDestinations }

/-- What one destination of a plan is outside. -/
def planDestination (destination : RelationStatusDestination) : Option DestinationIdentity :=
  ((both plan.subjects).find? (fun subject => subject.role == destination.subjectRole)).map
    (fun subject => ⟨subject.scope.provider, subject.scope.repository,
      destination.requiredStatusName⟩)

/-- One credential stands for one provider authority. -/
def bindCredential (credentials : List (OpaqueId × (ProviderIdentity × OpaqueId)))
    (subject : RegisteredSubject) :
    Except RelationRegistryError (List (OpaqueId × (ProviderIdentity × OpaqueId))) :=
  let scope := (subject.scope.provider, subject.scope.integration)
  if (credentials.lookup subject.credential).all (fun registered => registered == scope) then
    .ok ((subject.credential, scope) :: credentials)
  else .error .reboundCredential

/-- One outside destination belongs to one relation. -/
def bindDestination (seen : Finset DestinationIdentity) (destination : RelationStatusDestination) :
    Except RelationRegistryError (Finset DestinationIdentity) :=
  match planDestination plan destination with
  | none => .error .invalidDestination
  | some identity =>
    if identity ∈ seen then .error .duplicateDestination else .ok (insert identity seen)

/-- The checks across plans, for one more of them. -/
def bindPlan (bound : List (OpaqueId × (ProviderIdentity × OpaqueId)) × Finset DestinationIdentity)
    (plan : RegisteredRelation) :
    Except RelationRegistryError
      (List (OpaqueId × (ProviderIdentity × OpaqueId)) × Finset DestinationIdentity) := do
  let credentials ← (both plan.subjects).foldlM bindCredential bound.1
  let destinations ← plan.statusDestinations.foldlM (bindDestination plan) bound.2
  .ok (credentials, destinations)

def relationRegistryLimit : Nat := 1024

/-- Validates and freezes the operator's plans. -/
def relationRegistry (plans : List RegisteredRelation) :
    Except RelationRegistryError RelationRegistry :=
  if relationRegistryLimit < plans.length then .error .tooManyRelations
  else do
    let plans := plans.map sortedPlan
    let _ ← plans.mapM RegisteredRelation.validate
    let plans := sortBy (·.identity) plans
    if !noNeighbours (fun left right => left.identity == right.identity) plans then
      .error .duplicateRelation
    else do
      let _ ← plans.foldlM bindPlan ([], ∅)
      .ok ⟨plans.foldl (fun map plan => map.insert plan.identity plan) ∅⟩

/-! ### Stored batches -/

def destinationBinding (target : RelationStatusTarget) :
    Except StoreError Digest := do
  let bytes ← orCorrupt (codec.boundDestination target.identity)
  .ok (domainDigest codec.sha256 "amiss/controller-relation-destination-binding-v1" bytes)

def boundDestination (target : RelationStatusTarget) : BoundDestination where
  role := target.role
  provider := target.scope.provider
  integration := target.scope.integration
  repository := target.scope.repository
  credential := target.credential
  objectFormat := target.candidateCommit.objectFormat
  candidateCommit := target.candidateCommit.raw
  requiredStatusName := target.requiredStatusName

def recordBinding (record : RelationStatusRecord) :
    Except StoreError Digest :=
  match record.audit.audit with
  | .relation audit => do
    let bytes ← orCorrupt (codec.boundStatus
      { relation := record.targets.relation
        coordination := record.targets.coordination
        triggerRole := record.targets.triggerRole
        fence := record.targets.fence.raw
        destinations := record.targets.destinations.map boundDestination
        artifactId := record.audit.artifact.id
        artifactLocator := record.audit.artifact.locator
        artifactExpiresAtUnixMillis := record.audit.artifact.expiresAtUnixMillis
        artifactReportDigest := record.audit.artifact.reportDigest
        audit })
    .ok (domainDigest codec.sha256 "amiss/controller-relation-status-binding-v1" bytes)
  | .publication | .locale => .error .corrupt

def storeStatus (record : RelationStatusRecord) :
    Except StoreError StoredStatus :=
  if record.completed then .error .corrupt
  else do
    let destinations ← record.targets.destinations.mapM (destinationBinding codec)
    let binding ← recordBinding codec record
    let stored : StoredStatus :=
      { relation := record.targets.relation
        coordination := record.targets.coordination
        triggerRole := record.targets.triggerRole
        fence := record.targets.fence.raw
        statusBinding := binding
        destinations := sortBy id destinations
        artifactId := record.audit.artifact.id }
    validateStoredStatus stored
    .ok stored

/-- The artifact store as it answers one operation. -/
structure Artifacts where
  verify : ArtifactReference → Except ArtifactError Unit
  reopenRelationAudit : String → Except ArtifactError RetainedRelationAudit

def orArtifact {α : Type} : Except ArtifactError α → Except StoreError α
  | .error error => .error (.artifact error)
  | .ok a => .ok a

def orStatus {α : Type} : Except RelationStatusError α → Except StoreError α
  | .error error => .error (.status error)
  | .ok a => .ok a

/-- The frozen subject of a planned one. -/
def PlannedSubject.transition (subject : PlannedSubject) : RelationSubjectTransition where
  role := subject.role
  commits := ⟨subject.base.commit, subject.candidate.commit⟩
  trees := ⟨subject.base.tree, subject.candidate.tree⟩

/-- The head a frozen subject had. -/
def frozenHead (frozen : RelationSubjectTransition) :
    Except StoreError RelationSubjectHead := do
  let subject ← orCorrupt
    ((both plan.subjects).find? (fun subject => subject.role == frozen.role))
  .ok ⟨subject, ⟨frozen.commits.candidate, frozen.trees.candidate⟩⟩

/-- Puts a stored batch together again. -/
def reopenStatus (registry : RelationRegistry) (artifacts : Artifacts)
    (stored : StoredStatus) (committedPlanBinding : Digest) :
    Except StoreError RelationStatusRecord := do
  validateStoredStatus stored
  match registry.plans[stored.relation]? with
  | none => .error .configuration
  | some plan => do
    let bound ← planBinding codec plan
    if bound ≠ committedPlanBinding then .error (.schedule .bindingConflict)
    else do
      let retained ← orArtifact (artifacts.reopenRelationAudit stored.artifactId)
      let parsed ← orCorrupt (codec.parsePlan retained.plan)
      if parsed.identity ≠ stored.relation ∨ parsed.coordination ≠ stored.coordination ∨
          parsed.triggerRole ≠ stored.triggerRole then .error .corrupt
      else do
        let transition ← orCorrupt (relationTransition ⟨plan, parsed.triggerRole⟩
          parsed.coordination (parsed.subjects.1.transition, parsed.subjects.2.transition))
        let fence ← orCorrupt (LeaseFence.new stored.fence)
        let pending : PendingRelation := ⟨transition, fence⟩
        let left ← frozenHead plan transition.subjects.1
        let right ← frozenHead plan transition.subjects.2
        let bundle : RelationAuditBundle :=
          ⟨transition, retained.report, retained.plan, retained.evidence, retained.assessment⟩
        let audit ← orCorrupt (codec.validateAudit bundle)
        let record ← match stageRelationStatus codec pending (some pending) (left, right) none
            ⟨retained.artifact, .relation audit⟩ bundle with
          | .ok (some record) => .ok record
          | _ => .error .corrupt
        let again ← storeStatus codec record
        if again ≠ stored then .error .corrupt else .ok record

/-! ### Deliveries -/

/-- The lock shard of a destination: the first byte of its digest. -/
def shardOf (destination : Digest) : UInt8 := (beBytes 32 destination.value).headD 0

/-- One destination of one staged batch. -/
structure PendingDelivery where
  status : StoredStatus
  destination : Digest
  deriving DecidableEq

def PendingDelivery.shard (delivery : PendingDelivery) : UInt8 := shardOf delivery.destination

/-- The order in which deliveries are tried. -/
def PendingDelivery.order (delivery : PendingDelivery) :
    Nat ×ₗ ArtifactId ×ₗ ArtifactId ×ₗ Digest :=
  toLex (delivery.status.fence, toLex (delivery.status.relation,
    toLex (delivery.status.coordination, delivery.destination)))

/-- Notes one unacknowledged destination, keeping the older batch where two
    name it. -/
def noteDelivery (pending : BTreeMap Digest PendingDelivery) (delivery : PendingDelivery) :
    Except StoreError (BTreeMap Digest PendingDelivery) :=
  match pending[delivery.destination]? with
  | none => .ok (pending.insert delivery.destination delivery)
  | some existing =>
    if existing.status.relation ≠ delivery.status.relation then .error .corrupt
    else if existing.status.fence = delivery.status.fence then .error .corrupt
    else if existing.status.fence < delivery.status.fence then .ok pending
    else .ok (pending.insert delivery.destination delivery)

variable (state : State)

/-- Notes what is left to deliver of one status. -/
def noteStatus (pending : BTreeMap Digest PendingDelivery)
    (status : StoredStatusState) : Except StoreError (BTreeMap Digest PendingDelivery) :=
  match status with
  | .completed _ => .ok pending
  | .staged _ status acknowledged =>
    if state.relations[status.relation]?.isNone then .error .corrupt
    else
      (status.destinations.filter (fun destination => decide (destination ∉ acknowledged))).foldlM
        (fun pending destination => noteDelivery pending ⟨status, destination⟩) pending

/-- The first delivery of each shard. -/
def firstOfShard : List UInt8 → List PendingDelivery → List PendingDelivery
  | _, [] => []
  | seen, delivery :: rest =>
    if delivery.shard ∈ seen then firstOfShard seen rest
    else delivery :: firstOfShard (delivery.shard :: seen) rest

/-- The next delivery of each destination, oldest first, one for each shard. -/
def pendingDeliveries : Except StoreError (List PendingDelivery) := do
  let pending ← (state.statuses.toList.map Prod.snd).foldlM (noteStatus state) ∅
  .ok (firstOfShard [] (sortBy PendingDelivery.order (pending.toList.map Prod.snd)))

/-- A destination under its lock. -/
structure RelationStatusDeliveryClaim where
  status : RelationStatusRecord
  target : RelationStatusTarget
  statusBinding : Digest
  destinationBinding : Digest
  deriving DecidableEq

open Durable (reading write fail ensure onlyIf ofExcept)

section Sessions

variable (codec : OutboxCodec) (maxBindings : Nat)

variable (relation coordination : ArtifactId)

/-- The status a staged batch has, and the plan its relation is bound to. -/
def stagedStatus :
    Except StoreError (Option (StoredStatus × Digest)) :=
  match state.statuses[(toLex (relation, coordination) : StatusKey)]? with
  | some (.staged _ status _) =>
    match state.relations[status.relation]? with
    | none => .error .corrupt
    | some stored => .ok (some (status, stored.planBinding))
  | some (.completed _) | none => .ok none

def loadStagedStatus : Store (Option (StoredStatus × Digest)) :=
  session codec maxBindings (fun _ => do
    let state ← held
    ofExcept (stagedStatus state relation coordination))

/-- What a stage call answers, and the action it appends for a new batch. -/
def stageDecision (state : State) (artifacts : Artifacts) (checked : CheckedWork)
    (pending : PendingRelation) (heads : RelationSubjectHead × RelationSubjectHead)
    (audit : ArtifactAuditReference) (bundle : RelationAuditBundle) :
    Except StoreError (Option RelationStatusRecord × Option JournalAction) := do
  let current := if isCurrentWork state checked pending then some pending else none
  let staged ← orStatus (stageRelationStatus codec pending current heads none audit bundle)
  let record ← orCorrupt staged
  let stored ← storeStatus codec record
  match state.statuses[(toLex (stored.relation, stored.coordination) : StatusKey)]? with
  | some (.staged existing status _) =>
    if existing ≠ stored.statusBinding then .error (.status .bindingConflict)
    else if status ≠ stored then .error .corrupt
    else do
      orArtifact (artifacts.verify record.audit.artifact)
      .ok (some record, none)
  | some (.completed existing) =>
    if existing ≠ stored.statusBinding then .error (.status .bindingConflict)
    else .ok (none, none)
  | none => do
    orArtifact (artifacts.verify record.audit.artifact)
    .ok (some record, some (.stage checked.planBinding checked.binding.workBinding stored))

/-- Retains one exact batch while its work is current. -/
def stageStatus (artifacts : Artifacts) (pending : PendingRelation)
    (heads : RelationSubjectHead × RelationSubjectHead) (audit : ArtifactAuditReference)
    (bundle : RelationAuditBundle) : Store (Option RelationStatusRecord) := do
  let checked ← ofExcept (checkedWork codec pending.transition)
  session codec maxBindings (fun metadata =>
    enact codec maxBindings metadata
      (fun state => stageDecision codec state artifacts checked pending heads audit bundle))

/-- The completion of a batch whose destinations are all acknowledged. -/
def completionOf (entry : StatusKey × StoredStatusState) : Option JournalAction :=
  match entry.2 with
  | .staged binding status acknowledged =>
    if allDestinationsAcknowledged status acknowledged then
      some (.complete (ofLex entry.1).1 (ofLex entry.1).2 binding)
    else none
  | .completed _ => none

/-- Completes what was acknowledged and not completed. -/
def settleAcknowledged (metadata : RootMetadata) : Store RootMetadata := do
  let state ← held
  (state.statuses.toList.filterMap completionOf).foldlM
    (append codec maxBindings) metadata

/-- The first session of a claim: what could be delivered. -/
def claimCandidates : Store (List PendingDelivery) :=
  session codec maxBindings (fun metadata => do
    let _ ← settleAcknowledged codec maxBindings metadata
    let state ← held
    ofExcept (pendingDeliveries state))

/-- The second session, under the lock of a shard: what it is to deliver now. -/
def claimSelection (shard : UInt8) : Store (Option PendingDelivery) :=
  session codec maxBindings (fun metadata => do
    let _ ← settleAcknowledged codec maxBindings metadata
    let state ← held
    let pending ← ofExcept (pendingDeliveries state)
    pure (pending.find? (fun delivery => delivery.shard == shard)))

/-- The one target of a batch that has the destination. -/
def claimTarget (destination : Digest) (targets : List RelationStatusTarget) :
    Except StoreError RelationStatusTarget := do
  let found ← targets.foldlM (fun (found : Option RelationStatusTarget) candidate => do
    let binding ← destinationBinding codec candidate
    if binding = destination then
      if found.isSome then .error .corrupt else .ok (some candidate)
    else .ok found) none
  orCorrupt found

/-- What is done with the answer of the third session: the selected batch is
    put together again and its target found. -/
def claimOf (registry : RelationRegistry) (artifacts : Artifacts) (selected : PendingDelivery)
    (loaded : Option (StoredStatus × Digest)) : Except StoreError RelationStatusDeliveryClaim := do
  let (stored, planBinding) ← orCorrupt loaded
  if stored ≠ selected.status then .error .corrupt
  else do
    let status ← reopenStatus codec registry artifacts stored planBinding
    let target ← claimTarget codec selected.destination status.targets.destinations
    .ok ⟨status, target, selected.status.statusBinding, selected.destination⟩

/-- The check on an acknowledgement against the state. -/
def acknowledgeDecision (stored : StoredStatus) (destination : Digest) :
    Except StoreError JournalAction :=
  match state.statuses[(toLex (stored.relation, stored.coordination) : StatusKey)]? with
  | some (.staged existing status acknowledged) =>
    if existing ≠ stored.statusBinding then .error (.status .bindingConflict)
    else if status ≠ stored then .error .corrupt
    else if destination ∈ acknowledged ∨ destination ∉ stored.destinations then .error .corrupt
    else .ok (.acknowledge stored.relation stored.coordination stored.statusBinding destination)
  | some (.completed _) | none => .error (.status .bindingConflict)

/-- The batch of a key is fully acknowledged. -/
def fullyAcknowledged : Bool :=
  match state.statuses[(toLex (relation, coordination) : StatusKey)]? with
  | some (.staged _ status acknowledged) => allDestinationsAcknowledged status acknowledged
  | some (.completed _) | none => false

/-- The checks on a claim that need no state. -/
def checkedClaim (claim : RelationStatusDeliveryClaim) : Except StoreError StoredStatus := do
  let stored ← storeStatus codec claim.status
  let destination ← destinationBinding codec claim.target
  if stored.statusBinding ≠ claim.statusBinding ∨ destination ≠ claim.destinationBinding ∨
      claim.target ∉ claim.status.targets.destinations then .error (.status .bindingConflict)
  else .ok stored

/-- Records that a provider accepted one destination, and completes the batch
    with the last of them. -/
def acknowledgeStatusDestination (claim : RelationStatusDeliveryClaim) :
    Store RelationStatusRecord := do
  let stored ← ofExcept (checkedClaim codec claim)
  session codec maxBindings (fun metadata => do
    let state ← held
    let action ← ofExcept (acknowledgeDecision state stored claim.destinationBinding)
    let metadata ← append codec maxBindings metadata action
    let state ← held
    if fullyAcknowledged state stored.relation stored.coordination then do
      let _ ← append codec maxBindings metadata
        (.complete stored.relation stored.coordination claim.statusBinding)
      ofExcept (orStatus (completeRelationStatus claim.status claim.status))
    else pure claim.status)

/-- What a complete call answers, and the action it appends. -/
def completeDecision (staged : RelationStatusRecord) (stored : StoredStatus) :
    Except StoreError (RelationStatusRecord × Option JournalAction) :=
  match state.statuses[(toLex (stored.relation, stored.coordination) : StatusKey)]? with
  | some (.staged existing status acknowledged) =>
    if existing ≠ stored.statusBinding then .error (.status .bindingConflict)
    else if status ≠ stored then .error .corrupt
    else if !allDestinationsAcknowledged stored acknowledged then .error .deliveryPending
    else do
      let completed ← orStatus (completeRelationStatus staged staged)
      .ok (completed, some (.complete stored.relation stored.coordination stored.statusBinding))
  | some (.completed existing) =>
    if existing ≠ stored.statusBinding then .error (.status .bindingConflict)
    else do
      let completed ← orStatus (completeRelationStatus staged staged)
      .ok (completed, none)
  | none => .error (.status .bindingConflict)

/-- Marks a batch complete once everything in it is acknowledged. -/
def completeStatus (staged : RelationStatusRecord) : Store RelationStatusRecord := do
  let stored ← ofExcept (storeStatus codec staged)
  session codec maxBindings (fun metadata =>
    enact codec maxBindings metadata
      (fun state => completeDecision state staged stored))

end Sessions

end Relations

end Amiss
