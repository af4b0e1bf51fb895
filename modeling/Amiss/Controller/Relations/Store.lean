import Amiss.Base.Durable
import Amiss.Controller.Relations.Journal

/-!
# The Relation Store

The journal and its root are two files, and every opened store keeps the state
it last read. A program here runs under the store's lock, over the files and
the state its own process holds. The trail of a run lists both after every
single write, a chunk being written byte by byte, so a run that is cut short
leaves any torn chunk the source can leave, and a run that fails keeps the
state it had read so far.

Directory scans, lock files and the leftovers of an atomic write carry no part
of the journal and are left out.

## Main definitions

* `Disk`, `Root`: The files, and the files with a process's own state.
* `planBinding`, `checkedWork`: The digests work is bound to.
* `synchronize`, `readEntries`: Catching up with the committed journal.
* `append`: Writing one entry and committing it.
* `session`, `enact`: What every operation does before its own work, and what
  those that write do then.
* `openStore`, `schedule`, `isCurrent`: The operations on schedules.
-/

namespace Amiss

namespace Relations

/-! ### Work bindings -/

/-- One subject of a plan as its binding spells it. -/
structure BoundPlanSubject where
  role : ArtifactId
  provider : ProviderIdentity
  integration : OpaqueId
  repositoryHost : String
  repositoryOwner : String
  repositoryName : String
  target : String
  objectFormat : ObjectFormat
  credential : OpaqueId
  source : Digest
  limits : RelationLimits
  deriving DecidableEq

structure BoundPlan where
  identity : ArtifactId
  contextDigest : Digest
  projection : ProjectionKind
  subjects : BoundPlanSubject × BoundPlanSubject
  aggregateLimits : RelationLimits
  statusDestinations : List RelationStatusDestination
  deriving DecidableEq

structure BoundWorkSubject where
  role : ArtifactId
  objectFormat : ObjectFormat
  baseCommit : String
  candidateCommit : String
  baseTree : String
  candidateTree : String
  deriving DecidableEq

structure BoundWork where
  relation : ArtifactId
  planBinding : Digest
  coordination : ArtifactId
  subjects : BoundWorkSubject × BoundWorkSubject
  deriving DecidableEq

/-- The JSON the bindings are digests of. -/
structure BindingCodec extends JournalCodec where
  canonicalSource : ProjectionSource → Option Bytes
  boundPlan : BoundPlan → Option Bytes
  boundWork : BoundWork → Option Bytes

instance : Coe BindingCodec JournalCodec := ⟨BindingCodec.toJournalCodec⟩

def boundPlanSubject (codec : BindingCodec) (subject : RegisteredSubject) :
    Except StoreError BoundPlanSubject := do
  let canonical ← orCorrupt (codec.canonicalSource subject.source)
  .ok { role := subject.role
        provider := subject.scope.provider
        integration := subject.scope.integration
        repositoryHost := subject.scope.repository.host
        repositoryOwner := subject.scope.repository.owner
        repositoryName := subject.scope.repository.name
        target := subject.target
        objectFormat := subject.objectFormat
        credential := subject.credential
        source := domainDigest codec.sha256 "amiss/controller-relation-source-binding-v1" canonical
        limits := subject.limits }

def planBinding (codec : BindingCodec) (plan : RegisteredRelation) : Except StoreError Digest := do
  let left ← boundPlanSubject codec plan.subjects.1
  let right ← boundPlanSubject codec plan.subjects.2
  let bytes ← orCorrupt (codec.boundPlan
    ⟨plan.identity, plan.contextDigest, plan.projection, (left, right), plan.aggregateLimits,
      plan.statusDestinations⟩)
  .ok (domainDigest codec.sha256 "amiss/controller-relation-plan-binding-v1" bytes)

def boundWorkSubject (subject : RelationSubjectTransition) : BoundWorkSubject where
  role := subject.role
  objectFormat := subject.commits.base.objectFormat
  baseCommit := subject.commits.base.raw
  candidateCommit := subject.commits.candidate.raw
  baseTree := subject.trees.base.raw
  candidateTree := subject.trees.candidate.raw

/-- A checked transition with the digests it is bound to. The fence of the
    binding is filled in when the work is admitted. -/
structure CheckedWork where
  transition : RelationTransition
  relation : ArtifactId
  planBinding : Digest
  binding : StoredBinding

def checkedWork (codec : BindingCodec) (transition : RelationTransition) :
    Except StoreError CheckedWork :=
  match transition.checked with
  | none => .error (.schedule .invalidTransition)
  | some transition => do
    let bound ← planBinding codec transition.relation.plan
    let relation := transition.relation.plan.identity
    let bytes ← orCorrupt (codec.boundWork
      ⟨relation, bound, transition.coordination,
        (boundWorkSubject transition.subjects.1, boundWorkSubject transition.subjects.2)⟩)
    .ok { transition
          relation
          planBinding := bound
          binding :=
            { coordination := transition.coordination
              workBinding :=
                domainDigest codec.sha256 "amiss/controller-relation-work-binding-v1" bytes
              triggerRole := transition.relation.triggerRole
              fence := 0 } }

/-- The pending value a stored binding stands for. -/
def pendingFromBinding (transition : RelationTransition) (binding : StoredBinding) :
    Except StoreError PendingRelation := do
  let transition ← orCorrupt (relationTransition
    ⟨transition.relation.plan, binding.triggerRole⟩ binding.coordination transition.subjects)
  let fence ← orCorrupt (LeaseFence.new binding.fence)
  .ok ⟨transition, fence⟩

/-! ### Files -/

/-- The root metadata and the journal. -/
structure Disk where
  metadata : Option Bytes
  journal : Option Bytes
  deriving DecidableEq

/-- A directory in which nothing has been prepared. -/
def Disk.empty : Disk := ⟨none, none⟩

/-- The files, and the state one process last read from them. -/
structure Root where
  disk : Disk
  state : State

abbrev Store (α : Type) := Durable Root StoreError α

open Durable (reading write fail ensure onlyIf ofExcept)

def Root.setState (state : State) (root : Root) : Root := { root with state }

def Root.setMetadata (bytes : Bytes) (root : Root) : Root :=
  { root with disk := { root.disk with metadata := some bytes } }

def Root.setJournal (bytes : Bytes) (root : Root) : Root :=
  { root with disk := { root.disk with journal := some bytes } }

/-- The journal with one more byte. -/
def Root.push (byte : UInt8) (root : Root) : Root :=
  root.setJournal (root.disk.journal.getD [] ++ [byte])

/-- The state the process holds. -/
def held : Store State := reading (fun root => .ok root.state)

/-- The bytes of the journal. -/
def journalFile : Store Bytes := reading (fun root =>
  match root.disk.journal with
  | none => .error .io
  | some bytes => .ok bytes)

section Programs

variable (codec : JournalCodec) (maxBindings : Nat)

def loadMetadata : Store RootMetadata := reading (fun root =>
  match root.disk.metadata, root.disk.journal with
  | some bytes, some _ =>
    if maxRootBytes < bytes.length then .error .io else decodeMetadata codec bytes maxBindings
  | _, _ => .error .corrupt)

variable (metadata : RootMetadata)

/-- The metadata is encoded first and then replaced as a whole. -/
def saveMetadata : Store Unit := do
  let bytes ← ofExcept (encodeMetadata codec metadata)
  write (Root.setMetadata bytes)

def loadOrInitialize : Store RootMetadata := do
  let disk ← reading (fun root => .ok root.disk)
  match disk.metadata, disk.journal with
  | some _, some _ => loadMetadata codec maxBindings
  | none, none => do
    write (Root.setJournal [])
    saveMetadata codec (emptyMetadata maxBindings)
    pure (emptyMetadata maxBindings)
  | none, some bytes => do
    ensure (bytes.length = 0) .corrupt
    saveMetadata codec (emptyMetadata maxBindings)
    pure (emptyMetadata maxBindings)
  | some _, none => fail .corrupt

/-- Cuts off what was written after the committed part. -/
def openCommittedJournal : Store Unit := do
  let bytes ← journalFile
  ensure (metadata.journalBytes ≤ bytes.length) .corrupt
  onlyIf (metadata.journalBytes < bytes.length)
    (write (Root.setJournal (bytes.take metadata.journalBytes)))

/-- Reads entries until the state has reached the committed part. Each entry
    takes up at least one byte, so the count of committed bytes is fuel enough
    and the loop has ended before the fuel has. -/
def readEntries (committed : Nat) : Nat → Bytes → Store Unit
  | 0, _ => pure ()
  | fuel + 1, rest => do
    let state ← held
    if state.journalBytes < committed then do
      let (entry, chunk, rest) ←
        ofExcept (readEntry codec (committed - state.journalBytes) rest)
      let next ←
        ofExcept (applyEntry state entry (chainDigest codec chunk) chunk.length maxBindings)
      write (Root.setState next)
      readEntries committed fuel rest
    else pure ()

/-- Catches up with the committed journal. -/
def synchronize : Store Unit := do
  let state ← held
  if state.matchesRoot metadata then pure ()
  else do
    onlyIf (metadata.journalBytes < state.journalBytes ∨
        metadata.bindingCount < state.bindingCount ∨ metadata.entryCount < state.entryCount)
      (write (Root.setState .empty))
    let state ← held
    let bytes ← journalFile
    readEntries codec maxBindings metadata.journalBytes metadata.journalBytes
      (bytes.drop state.journalBytes)
    let state ← held
    ensure (state.matchesRoot metadata = true) .corrupt

/-- The value, or a full store. -/
def orFull (value : Option Nat) : Except StoreError Nat :=
  match value with
  | none => .error .full
  | some n => .ok n

/-- The value, or a store that cannot be configured so. -/
def orConfiguration (value : Option Nat) : Except StoreError Nat :=
  match value with
  | none => .error .configuration
  | some n => .ok n

/-- The head of the journal after one more chunk. -/
def nextMetadata (action : JournalAction) (chunk : Bytes) :
    Except StoreError RootMetadata := do
  let nextBytes ← orFull ((checkedU64 (metadata.journalBytes + chunk.length)).filter
    (fun bytes => (journalByteLimit maxBindings).any (fun limit => decide (bytes ≤ limit))))
  let nextCount ← orFull ((checkedU64 (metadata.bindingCount + bindingIncrement action)).filter
    (fun count => decide (count ≤ maxBindings)))
  let maxEntries ← orConfiguration (checkedU64 (maxBindings * maxActionsPerBinding))
  let nextEntryCount ← orFull ((checkedU64 (metadata.entryCount + 1)).filter
    (fun count => decide (count ≤ maxEntries)))
  .ok ⟨maxBindings, nextCount, nextEntryCount, nextBytes, some (chainDigest codec chunk)⟩

/-- Writes a chunk at the end of the journal, byte by byte. -/
def writeAll (chunk : Bytes) : Store Unit :=
  chunk.foldlM (fun _ byte => write (Root.push byte)) ()

/-- Writes one entry and commits it. -/
def append (metadata : RootMetadata) (action : JournalAction) : Store RootMetadata := do
  let state ← held
  let entry : JournalEntry := ⟨state.tailDigest, action⟩
  let chunk ← ofExcept (encodeEntry codec entry)
  let next ← ofExcept (nextMetadata codec maxBindings metadata action chunk)
  ofExcept (validateAppend state entry chunk.length maxBindings)
  let bytes ← journalFile
  ensure (bytes.length = metadata.journalBytes) .corrupt
  writeAll chunk
  saveMetadata codec next
  let applied ←
    ofExcept (applyEntry state entry (chainDigest codec chunk) chunk.length maxBindings)
  write (Root.setState applied)
  ensure (applied.matchesRoot next = true) .corrupt
  pure next

/-- What every operation does under the lock before its own work. -/
def session {α : Type} (body : RootMetadata → Store α) : Store α := do
  let metadata ← loadMetadata codec maxBindings
  openCommittedJournal metadata
  synchronize codec maxBindings metadata
  body metadata

/-- Decides on an answer and appends the action that goes with it, if any. -/
def enact {α : Type} (metadata : RootMetadata)
    (decision : State → Except StoreError (α × Option JournalAction)) : Store α := do
  let state ← held
  let (answer, action) ← ofExcept (decision state)
  match action with
  | none => pure answer
  | some action => do
    let _ ← append codec maxBindings metadata action
    pure answer

/-- Opens a store: the root is prepared if it is new, and its journal read. -/
def openStore : Store Unit := do
  ensure (1 ≤ maxBindings ∧ maxBindings ≤ bindingLimit) .configuration
  let metadata ← loadOrInitialize codec maxBindings
  openCommittedJournal metadata
  synchronize codec maxBindings metadata

end Programs

/-! ### Scheduling -/

/-- The pending value of the current work of a relation, for the checks on
    the work that follows it. -/
def currentPending (stored : Option StoredRelation) (transition : RelationTransition) :
    Except StoreError (Option PendingRelation) :=
  match stored with
  | none => .ok none
  | some stored => do
    let binding ← orCorrupt stored.bindings[stored.currentCoordination]?
    let pending ← pendingFromBinding transition binding
    .ok (some pending)

/-- What a schedule call answers, and the action it appends for new work. -/
def admission (state : State) (maxBindings : Nat) (checked : CheckedWork) :
    Except StoreError (RelationAdmission × Option JournalAction) :=
  let stored := state.relations[checked.relation]?
  if stored.any (fun stored => stored.planBinding != checked.planBinding) then
    .error (.schedule .bindingConflict)
  else
    match stored.bind (fun stored => stored.bindings[checked.binding.coordination]?) with
    | some previous =>
      if previous.workBinding ≠ checked.binding.workBinding then
        .error (.schedule .coordinationConflict)
      else do
        let pending ← pendingFromBinding checked.transition previous
        .ok (.duplicate pending, none)
    | none =>
      if maxBindings ≤ state.bindingCount then .error .full
      else do
        let previous ← currentPending stored checked.transition
        match scheduleRelation previous checked.transition with
        | .error error => .error (.schedule error)
        | .ok (.duplicate _) => .error .corrupt
        | .ok (.scheduled pending) =>
          .ok (.scheduled pending, some (.schedule checked.relation checked.planBinding
            { checked.binding with fence := pending.fence.raw }))

/-- The work is the current work of its relation, under exactly this fence. -/
def isCurrentWork (state : State) (checked : CheckedWork) (pending : PendingRelation) : Bool :=
  ((state.relations[checked.relation]?.filter
      (fun stored => stored.planBinding == checked.planBinding)).bind
    (fun stored => stored.bindings[stored.currentCoordination]?)).any
    (fun current => current.coordination == checked.binding.coordination &&
      current.workBinding == checked.binding.workBinding &&
      current.triggerRole == checked.binding.triggerRole && current.fence == pending.fence.raw)

section Scheduling

variable (codec : BindingCodec) (maxBindings : Nat)

/-- Admits one exact transition. -/
def schedule (transition : RelationTransition) : Store RelationAdmission := do
  let checked ← ofExcept (checkedWork codec transition)
  session codec.toJournalCodec maxBindings (fun metadata =>
    enact codec.toJournalCodec maxBindings metadata
      (fun state => admission state maxBindings checked))

/-- Whether a worker still owns the latest fence. -/
def isCurrent (pending : PendingRelation) : Store Bool := do
  let checked ← ofExcept (checkedWork codec pending.transition)
  session codec.toJournalCodec maxBindings (fun _ => do
    let state ← held
    pure (isCurrentWork state checked pending))

end Scheduling

end Relations

end Amiss
