import Amiss.Base.Sorted
import Amiss.Controller.Frame
import Amiss.Controller.Relations.Plan

/-!
# The Relation Journal

Every decision of the relation store is one entry of an append-only journal.
An entry carries the digest of the chunk before it, so the entries form a
chain, and a chunk is the length of a frame followed by the frame. The root
metadata says how much of the journal is committed.

The state is what the entries add up to. `validateAppend` decides whether an
entry may follow a state, `applyEntry` makes the step, and both are used twice:
when an entry is written and when it is read back.

SHA-256 and JSON lie outside the sources and are fields of `JournalCodec`.

## Main definitions

* `JournalAction`, `JournalEntry`: What one entry records.
* `RootMetadata`: The committed head of the journal.
* `State`: What a journal adds up to.
* `encodeEntry`, `decodeEntry`: The chunk of an entry, and its frame read back.
* `validateAppend`, `applyEntry`: The step an entry makes.
* `readEntry`: One entry read off the bytes that follow.
-/

namespace Amiss

namespace Relations

inductive RelationStatusError where
  | invalidTransition
  | invalidHeads
  | superseded
  | invalidAudit
  | bindingConflict
  | invalidPublication
  deriving DecidableEq

/-- Why an operation of the store fails. -/
inductive StoreError where
  | configuration
  | full
  | corrupt
  | schedule (error : RelationScheduleError)
  | status (error : RelationStatusError)
  | artifact (error : ArtifactError)
  | deliveryPending
  | io
  deriving DecidableEq

/-- The value, or a corrupt store. -/
def orCorrupt {α : Type} : Option α → Except StoreError α
  | none => .error .corrupt
  | some a => .ok a

/-- A result that fits an unsigned 64-bit integer. -/
def checkedU64 (n : Nat) : Option Nat := if n < 2 ^ 64 then some n else none

/-- The exact work a coordination was first admitted with. -/
structure StoredBinding where
  coordination : ArtifactId
  workBinding : Digest
  triggerRole : ArtifactId
  fence : Nat
  deriving DecidableEq

/-- A staged status batch. -/
structure StoredStatus where
  relation : ArtifactId
  coordination : ArtifactId
  triggerRole : ArtifactId
  fence : Nat
  statusBinding : Digest
  destinations : List Digest
  artifactId : String
  deriving DecidableEq

inductive JournalAction where
  | schedule (relation : ArtifactId) (planBinding : Digest) (binding : StoredBinding)
  | stage (planBinding workBinding : Digest) (status : StoredStatus)
  | acknowledge (relation coordination : ArtifactId) (statusBinding destinationBinding : Digest)
  | complete (relation coordination : ArtifactId) (statusBinding : Digest)
  deriving DecidableEq

structure JournalEntry where
  previousTail : Option Digest
  action : JournalAction
  deriving DecidableEq

structure RootMetadata where
  maxBindings : Nat
  bindingCount : Nat
  entryCount : Nat
  journalBytes : Nat
  tailDigest : Option Digest
  deriving DecidableEq

/-- The hash and the JSON of what the journal holds. -/
structure JournalCodec where
  sha256 : Bytes → Digest
  entry : Serde JournalEntry
  root : Serde RootMetadata

/-- What is written to the journal and its root reads back. -/
structure JournalCodec.Lawful (codec : JournalCodec) : Prop where
  entry : codec.entry.RoundTrips
  root : codec.root.RoundTrips

/-! ### Root metadata -/

def bindingLimit : Nat := 16384

def maxRootBytes : Nat := 4096

def maxEntryBytes : Nat := 16384

def maxSmallEntryBytes : Nat := 4096

def entryLengthBytes : Nat := 8

def maxActionsPerBinding : Nat := 5

def maxJournalBytesPerBinding : Nat :=
  maxEntryBytes + 4 * maxSmallEntryBytes + 5 * entryLengthBytes

def rootFrame : FrameFormat :=
  ⟨utf8 "AMISS-RELATION-JOURNAL-ROOT", "amiss/controller-relation-journal-root-frame-v3",
    maxRootBytes⟩

def entryFrame : FrameFormat :=
  ⟨utf8 "AMISS-RELATION-JOURNAL-ENTRY", "amiss/controller-relation-journal-entry-frame-v3",
    maxEntryBytes⟩

def journalByteLimit (maxBindings : Nat) : Option Nat :=
  checkedU64 (maxBindings * maxJournalBytesPerBinding)

def emptyMetadata (maxBindings : Nat) : RootMetadata := ⟨maxBindings, 0, 0, 0, none⟩

def validateMetadata (metadata : RootMetadata) : Except StoreError Unit := do
  let empty := metadata.entryCount == 0
  let maxEntries ← orCorrupt (checkedU64 (metadata.maxBindings * maxActionsPerBinding))
  let admittedEntries ← orCorrupt (checkedU64 (metadata.bindingCount * maxActionsPerBinding))
  let byteLimit ← orCorrupt (journalByteLimit metadata.maxBindings)
  if !(decide (1 ≤ metadata.maxBindings) && decide (metadata.maxBindings ≤ bindingLimit)) ||
      decide (metadata.maxBindings < metadata.bindingCount) ||
      decide (metadata.entryCount < metadata.bindingCount) ||
      decide (maxEntries < metadata.entryCount) ||
      decide (admittedEntries < metadata.entryCount) ||
      decide (byteLimit < metadata.journalBytes) ||
      ((metadata.journalBytes == 0) != empty) ||
      (metadata.tailDigest.isNone != empty) then .error .corrupt
  else .ok ()

variable (codec : JournalCodec)

def decodeMetadata (bytes : Bytes) (maxBindings : Nat) :
    Except StoreError RootMetadata := do
  let metadata ←
    Frame.decode codec.sha256 rootFrame codec.root StoreError.corrupt validateMetadata bytes
  if metadata.maxBindings ≠ maxBindings then .error .configuration else .ok metadata

def encodeMetadata (metadata : RootMetadata) : Except StoreError Bytes :=
  Frame.encode codec.sha256 rootFrame codec.root StoreError.corrupt validateMetadata metadata

/-! ### Entries -/

def validArtifactId (id : String) : Bool :=
  (utf8 id).length == 64 && id.toList.all lowercaseHex

def validateStoredStatus (stored : StoredStatus) : Except StoreError Unit :=
  if (LeaseFence.new stored.fence).isNone ||
      !(decide (1 ≤ stored.destinations.length) && decide (stored.destinations.length ≤ 2)) ||
      !noNeighbours (fun left right => decide (right ≤ left)) stored.destinations ||
      !validArtifactId stored.artifactId then .error .corrupt
  else .ok ()

def validateEntry (entry : JournalEntry) : Except StoreError Unit :=
  let valid := match entry.action with
    | .schedule _ _ binding => binding.fence != 0
    | .stage _ _ status => (validateStoredStatus status).isOk
    | .acknowledge .. | .complete .. => true
  if valid then .ok () else .error .corrupt

def entryByteLimit : JournalAction → Nat
  | .stage .. => maxEntryBytes
  | .schedule .. | .acknowledge .. | .complete .. => maxSmallEntryBytes

/-- The chunk of an entry: the length of its frame, and the frame. -/
def encodeEntry (entry : JournalEntry) : Except StoreError Bytes := do
  let frame ←
    Frame.encode codec.sha256 entryFrame codec.entry StoreError.corrupt validateEntry entry
  if entryByteLimit entry.action < frame.length then .error .corrupt
  else .ok (beBytes entryLengthBytes frame.length ++ frame)

/-- The entry of a frame. -/
def decodeEntry (bytes : Bytes) : Except StoreError JournalEntry := do
  let entry ←
    Frame.decode codec.sha256 entryFrame codec.entry StoreError.corrupt validateEntry bytes
  if bytes.length ≤ entryByteLimit entry.action then .ok entry else .error .corrupt

/-- The digest that chains an entry to the chunk before it. -/
def chainDigest (chunk : Bytes) : Digest :=
  domainDigest codec.sha256 "amiss/controller-relation-journal-chain-v3" chunk

/-! ### State -/

structure StoredRelation where
  planBinding : Digest
  bindings : BTreeMap ArtifactId StoredBinding
  currentCoordination : ArtifactId

inductive StoredStatusState where
  | staged (binding : Digest) (status : StoredStatus) (acknowledged : Finset Digest)
  | completed (binding : Digest)
  deriving DecidableEq

/-- A relation and one of its coordinations, in the order of the pair. -/
abbrev StatusKey := ArtifactId ×ₗ ArtifactId

instance (priority := 20000) : Std.TransCmp (@compare StatusKey LinearOrder.toOrd) := transCmp

/-- What a journal adds up to. -/
structure State where
  relations : BTreeMap ArtifactId StoredRelation
  statuses : BTreeMap StatusKey StoredStatusState
  bindingCount : Nat
  entryCount : Nat
  journalBytes : Nat
  tailDigest : Option Digest

/-- The state of an empty journal. -/
def State.empty : State := ⟨∅, ∅, 0, 0, 0, none⟩

variable (state : State)

/-- Named `matchesRoot`, since `matches` is a keyword here. -/
def State.matchesRoot (metadata : RootMetadata) : Bool :=
  state.bindingCount == metadata.bindingCount && state.entryCount == metadata.entryCount &&
    state.journalBytes == metadata.journalBytes && state.tailDigest == metadata.tailDigest

def allDestinationsAcknowledged (status : StoredStatus) (acknowledged : Finset Digest) : Bool :=
  status.destinations.length == acknowledged.card &&
    status.destinations.all (fun destination => decide (destination ∈ acknowledged))

/-- The check on an acknowledgement of `destination`, or on a completion. -/
def validateStatusProgress (relation coordination : ArtifactId)
    (statusBinding : Digest) (destination : Option Digest) : Except StoreError Unit :=
  match state.statuses[(toLex (relation, coordination) : StatusKey)]? with
  | none | some (.completed _) => .error .corrupt
  | some (.staged binding status acknowledged) =>
    if binding ≠ statusBinding then .error .corrupt
    else
      let valid := match destination with
        | some destination =>
          (binarySearch status.destinations destination).isSome &&
            !decide (destination ∈ acknowledged)
        | none => allDestinationsAcknowledged status acknowledged
      if valid then .ok () else .error .corrupt

/-- The work a stage must be bound to: the current work of its relation. -/
def stageableBinding (planBinding : Digest) (status : StoredStatus) :
    Option StoredBinding :=
  (state.relations[status.relation]?.filter (fun relation =>
      relation.planBinding == planBinding &&
        relation.currentCoordination == status.coordination)).bind
    (fun relation => relation.bindings[status.coordination]?)

/-- The check on one action against the maps of a state. -/
def validateAction (maxBindings : Nat) : JournalAction → Except StoreError Unit
  | .schedule relation planBinding binding =>
    match state.relations[relation]? with
    | none =>
      if binding.fence = 1 ∧ state.bindingCount < maxBindings then .ok () else .error .corrupt
    | some stored =>
      if state.bindingCount < maxBindings ∧ stored.planBinding = planBinding ∧
          stored.bindings[binding.coordination]? = none ∧
          (stored.bindings[stored.currentCoordination]?).bind
            (fun current => checkedSucc current.fence) = some binding.fence then .ok ()
      else .error .corrupt
  | .stage planBinding workBinding status => do
    validateStoredStatus status
    if (state.statuses[(toLex (status.relation, status.coordination) : StatusKey)]?).isSome ||
        !(stageableBinding state planBinding status).any (fun binding =>
          binding.workBinding == workBinding && binding.triggerRole == status.triggerRole &&
            binding.fence == status.fence) then .error .corrupt
    else .ok ()
  | .acknowledge relation coordination statusBinding destinationBinding =>
    validateStatusProgress state relation coordination statusBinding (some destinationBinding)
  | .complete relation coordination statusBinding =>
    validateStatusProgress state relation coordination statusBinding none

/-- Whether an entry may follow a state. A byte count that does not fit 64
    bits is over the limit, which fits. -/
def validateAppend (entry : JournalEntry) (chunkLength maxBindings : Nat) :
    Except StoreError Unit := do
  let maxEntries ← orCorrupt (checkedU64 (maxBindings * maxActionsPerBinding))
  let byteLimit ← orCorrupt (journalByteLimit maxBindings)
  if entry.previousTail ≠ state.tailDigest ∨ maxEntries ≤ state.entryCount ∨
      byteLimit < state.journalBytes + chunkLength then .error .corrupt
  else validateAction state maxBindings entry.action

/-- One for a new binding. -/
def bindingIncrement : JournalAction → Nat
  | .schedule .. => 1
  | .stage .. | .acknowledge .. | .complete .. => 0

/-- The relation after one more binding, which becomes current. -/
def StoredRelation.admitting (stored : Option StoredRelation) (planBinding : Digest)
    (binding : StoredBinding) : StoredRelation :=
  match stored with
  | none =>
    { planBinding
      bindings := (∅ : BTreeMap ArtifactId StoredBinding).insert binding.coordination binding
      currentCoordination := binding.coordination }
  | some relation =>
    { relation with
      bindings := relation.bindings.insert binding.coordination binding
      currentCoordination := binding.coordination }

/-- The maps after one action. -/
def applyAction : JournalAction → Except StoreError State
  | .schedule relation planBinding binding =>
    .ok { state with
      relations := state.relations.insert relation
        (.admitting state.relations[relation]? planBinding binding) }
  | .stage _ _ status =>
    .ok { state with
      statuses := state.statuses.insert (toLex (status.relation, status.coordination))
        (.staged status.statusBinding status ∅) }
  | .acknowledge relation coordination _ destinationBinding =>
    match state.statuses[(toLex (relation, coordination) : StatusKey)]? with
    | some (.staged binding status acknowledged) =>
      if destinationBinding ∈ acknowledged then .error .corrupt
      else .ok { state with
        statuses := state.statuses.insert (toLex (relation, coordination))
          (.staged binding status (insert destinationBinding acknowledged)) }
    | none | some (.completed _) => .error .corrupt
  | .complete relation coordination binding =>
    .ok { state with
      statuses := state.statuses.insert (toLex (relation, coordination)) (.completed binding) }

/-- The state after one entry. -/
def applyEntry (entry : JournalEntry) (tailDigest : Digest)
    (chunkLength maxBindings : Nat) : Except StoreError State := do
  validateAppend state entry chunkLength maxBindings
  let bindingCount ←
    orCorrupt (checkedU64 (state.bindingCount + bindingIncrement entry.action))
  let entryCount ← orCorrupt (checkedU64 (state.entryCount + 1))
  let journalBytes ← orCorrupt (checkedU64 (state.journalBytes + chunkLength))
  let applied ← applyAction state entry.action
  .ok { applied with bindingCount, entryCount, journalBytes, tailDigest := some tailDigest }

/-- One entry off the bytes that follow, with its chunk and what comes after.
    A read past the end of the file is an input error, not a corrupt store. -/
def readEntry (remaining : Nat) (rest : Bytes) :
    Except StoreError (JournalEntry × Bytes × Bytes) :=
  if remaining < entryLengthBytes then .error .corrupt
  else if rest.length < entryLengthBytes then .error .io
  else
    let frameLength := ofBeBytes (rest.take entryLengthBytes)
    if remaining < entryLengthBytes + frameLength then .error .corrupt
    else if frameLength = 0 ∨ maxEntryBytes < frameLength then .error .corrupt
    else if rest.length < entryLengthBytes + frameLength then .error .io
    else
      let chunk := rest.take (entryLengthBytes + frameLength)
      match decodeEntry codec (chunk.drop entryLengthBytes) with
      | .error error => .error error
      | .ok entry => .ok (entry, chunk, rest.drop (entryLengthBytes + frameLength))

end Relations

end Amiss
