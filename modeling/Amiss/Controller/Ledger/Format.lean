import Amiss.Base.Fallible
import Amiss.Controller.Identity

/-!
# Delivery Records

The record the file ledger keeps for one delivery: what it binds, how long it
must be remembered, and the state of its lease. A record is written as one
digest-checked frame around its JSON; the frame holds nothing but the record,
so the model keeps the record itself together with the two checks that writing
and reading it make (`Record.validate` and the ceiling on the frame).

SHA-256, the JSON writer and the URL parser lie outside the sources. They are
the fields of `LedgerCodec`, and nothing is assumed of them.

## Main definitions

* `StoredPublication`: A publication as it is stored, its report kept apart.
* `StoredPublication.new`, `StoredPublication.materialize`: Storing a
  publication and reading it back.
* `Record`, `Record.State`: A delivery's record and the states of its lease.
* `Record.validate`: The check made on every record written or read.
-/

namespace Amiss

/-- Why a ledger operation fails. -/
inductive LedgerError where
  | configuration
  | full
  | expired
  | clock
  | random
  | reportTooLarge
  | corrupt
  | io
  deriving DecidableEq

/-- A repository's components as they are stored. -/
structure StoredRepository where
  host : String
  owner : String
  name : String
  deriving DecidableEq

/-- A change as it is stored. -/
structure StoredChange where
  provider : ProviderIdentity
  repository : StoredRepository
  change : Change
  deriving DecidableEq

namespace StoredChange

def new (change : ChangeLocator) : StoredChange :=
  ⟨change.provider, ⟨change.repository.host, change.repository.owner, change.repository.name⟩,
    change.change⟩

def materialize (stored : StoredChange) : Except LedgerError ChangeLocator :=
  match RepositoryIdentity.new stored.repository.host stored.repository.owner
      stored.repository.name with
  | none => .error .corrupt
  | some repository => .ok ⟨stored.provider, repository, stored.change⟩

/-- Named `matchesChange`, since `matches` is a keyword here. -/
def matchesChange (stored : StoredChange) (change : ChangeLocator) : Bool :=
  stored.provider == change.provider && stored.change == change.change &&
    stored.repository.host == change.repository.host &&
    stored.repository.owner == change.repository.owner &&
    stored.repository.name == change.repository.name

def isValid (stored : StoredChange) : Bool :=
  validComponents stored.repository.host stored.repository.owner stored.repository.name

end StoredChange

/-- The delivery a record is bound to. -/
structure StoredDelivery where
  identity : DeliveryIdentity
  change : StoredChange
  providerRun : ProviderRunIdentity
  deriving DecidableEq

namespace StoredDelivery

def new (delivery : AuthenticatedDelivery) : StoredDelivery :=
  ⟨delivery.identity, .new delivery.change, delivery.providerRun⟩

def matchesDelivery (stored : StoredDelivery) (delivery : AuthenticatedDelivery) : Bool :=
  stored.identity == delivery.identity && stored.change.matchesChange delivery.change &&
    stored.providerRun == delivery.providerRun

def validate (stored : StoredDelivery) : Bool :=
  stored.change.isValid && stored.providerRun.isValid &&
    stored.identity.provider == stored.change.provider

end StoredDelivery

/-- A replay lifetime as it is stored, without the window it came from. -/
inductive StoredReplayKeep where
  | permanent
  | keepThrough (unixMillis : Int)
  deriving DecidableEq

namespace StoredReplayKeep

def new : ReplayKeep → StoredReplayKeep
  | .permanent => .permanent
  | .keepThrough unixMillis _ => .keepThrough unixMillis

def validate : StoredReplayKeep → Bool
  | .permanent => true
  | .keepThrough unixMillis => decide (0 ≤ unixMillis)

def expiredAt (keep : StoredReplayKeep) (now : Int) : Bool :=
  match keep with
  | .permanent => false
  | .keepThrough unixMillis => decide (unixMillis < now)

end StoredReplayKeep

/-- The digest and length of a report kept in its own file. -/
structure ReportRef where
  digest : Digest
  length : Nat
  deriving DecidableEq

/-- A publication's report: absent, or a reference to its file. -/
inductive StoredReport where
  | absent
  | blob (reference : ReportRef)
  deriving DecidableEq

/-- A run as it is stored. -/
structure StoredRun where
  change : StoredChange
  refs : RunRefs
  objectFormat : ObjectFormat
  commits : OidPair
  trees : OidPair
  deriving DecidableEq

namespace StoredRun

def materialize (stored : StoredRun) : Except LedgerError RunIdentity :=
  match stored.change.materialize with
  | .error e => .error e
  | .ok change =>
    match RunIdentity.new change stored.refs stored.objectFormat stored.commits stored.trees with
    | none => .error .corrupt
    | some run => .ok run

def validate (stored : StoredRun) : Bool :=
  stored.change.isValid && stored.commits.wellFormed stored.objectFormat &&
    stored.trees.wellFormed stored.objectFormat

end StoredRun

/-- A publication as it is stored. The stored conclusion repeats
    `CheckConclusion` constructor by constructor and is not told apart from
    it. A record written before gates were bound has no gate commit. -/
structure StoredPublication where
  providerRun : ProviderRunIdentity
  evaluationId : OpaqueId
  check : CheckBinding
  run : StoredRun
  gateCommit : Option Oid
  conclusion : CheckConclusion
  report : StoredReport
  artifact : Option ArtifactReference
  deriving DecidableEq

/-- The states of a delivery's lease. -/
inductive Record.State where
  | running (owner : BitVec 128) (fence : Nat) (expiresAtUnixMillis : Int)
  | staged (fence : Nat) (publication : StoredPublication)
  | done (fence : Nat) (stagedDigest : Digest)
  deriving DecidableEq

/-- The record of one delivery. -/
structure Record where
  generation : Nat
  lastSeenUnixMillis : Int
  binding : StoredDelivery
  replayKeep : StoredReplayKeep
  check : CheckBinding
  evaluationId : OpaqueId
  state : Record.State
  deriving DecidableEq

/-- What the ledger takes from outside the sources. -/
structure LedgerCodec where
  sha256 : Bytes → Digest
  identityJson : DeliveryIdentity → Bytes
  stagedJson : OpaqueId → Nat → StoredPublication → Bytes
  recordJson : Record → Bytes
  parseUrl : String → Option ParsedUrl

/-- One lowercase hexadecimal digit. -/
def hexDigit (n : Nat) : Char := "0123456789abcdef".toList.getD n '0'

/-- The last `width` hexadecimal digits of a number. -/
def hexDigits : Nat → Nat → List Char
  | 0, _ => []
  | width + 1, n => hexDigits width (n / 16) ++ [hexDigit (n % 16)]

namespace LedgerCodec

variable (codec : LedgerCodec)

/-- The key of a delivery's row. The source spells the digest in hexadecimal
    for a file name; the digest itself is the key here. -/
def deliveryKey (identity : DeliveryIdentity) : Digest :=
  domainDigest codec.sha256 "amiss/controller-delivery-key-v1" (codec.identityJson identity)

/-- A fresh evaluation id: the delivery key and a random number. -/
def evaluationId (identity : DeliveryIdentity) (nonce : BitVec 128) :
    Except LedgerError OpaqueId :=
  match OpaqueId.tryFrom
      ("eval:" ++ String.ofList (hexDigits 64 (codec.deliveryKey identity).value) ++ ":" ++
        String.ofList (hexDigits 32 nonce.toNat)) with
  | none => .error .corrupt
  | some id => .ok id

/-- The digest that a completed delivery keeps of what it published. -/
def stagedDigest (evaluationId : OpaqueId) (fence : Nat) (publication : StoredPublication) :
    Digest :=
  domainDigest codec.sha256 "amiss/controller-staged-publication-v2"
    (codec.stagedJson evaluationId fence publication)

/-- The frame around a record's JSON is within its ceiling. -/
def recordFits (record : Record) : Bool :=
  decide ((utf8 "AMISS-DELIVERY-RECORD").length + (1 + 8 + 32) + (codec.recordJson record).length
    ≤ 131072)

end LedgerCodec

namespace ReportRef

variable (codec : LedgerCodec)

def new (report : Bytes) : Except LedgerError ReportRef :=
  if report.length ≤ machineJsonBytes then
    .ok ⟨domainDigest codec.sha256 "amiss/controller-report-blob-v1" report, report.length⟩
  else .error .reportTooLarge

/-- The reference is the one these bytes have. -/
def matchesBytes (reference : ReportRef) (report : Bytes) : Bool :=
  report.length == reference.length &&
    match new codec report with
    | .ok actual => actual == reference
    | .error _ => false

def validate (reference : ReportRef) : Bool := decide (reference.length ≤ machineJsonBytes)

end ReportRef

namespace StoredReport

variable (codec : LedgerCodec)

def new : Option Bytes → Except LedgerError StoredReport
  | none => .ok .absent
  | some bytes =>
    match ReportRef.new codec bytes with
    | .error e => .error e
    | .ok reference => .ok (.blob reference)

def verify : StoredReport → Option Bytes → Bool
  | .absent, none => true
  | .blob reference, some bytes => reference.matchesBytes codec bytes
  | .absent, some _ => false
  | .blob _, none => false

end StoredReport

/-- An artifact goes with exactly the report it names. -/
def validateArtifactReport (codec : LedgerCodec) (artifact : Option ArtifactReference)
    (report : Option Bytes) : Bool :=
  match artifact with
  | none => true
  | some reference => reference.matchesReport codec.sha256 report

namespace StoredPublication

variable (codec : LedgerCodec)

def new (publication : Publication) : Except LedgerError StoredPublication :=
  if !validateArtifactReport codec publication.artifact publication.report then .error .corrupt
  else
    match StoredReport.new codec publication.report with
    | .error e => .error e
    | .ok report =>
      .ok
        { providerRun := publication.providerRun
          evaluationId := publication.evaluationId
          check := publication.check
          run :=
            { change := .new publication.run.change
              refs := publication.run.refs
              objectFormat := publication.run.objectFormat
              commits := publication.run.commits
              trees := publication.run.trees }
          gateCommit := some publication.gateCommit
          conclusion := publication.conclusion
          report
          artifact := publication.artifact }

variable (stored : StoredPublication)

/-- The reference to the report's file, if there is a report. -/
def reportRef : Option ReportRef :=
  match stored.report with
  | .absent => none
  | .blob reference => some reference

def hasGateCommit : Bool := stored.gateCommit.isSome

def validateMetadata : Bool :=
  stored.reportRef.all ReportRef.validate &&
    stored.artifact.all (ArtifactReference.isValid codec.parseUrl) &&
    stored.providerRun.isValid &&
    stored.gateCommit.any (·.objectFormat == stored.run.objectFormat) &&
    stored.run.validate

def materialize (report : Option Bytes) :
    Except LedgerError Publication :=
  if !stored.validateMetadata codec || !stored.report.verify codec report ||
      !validateArtifactReport codec stored.artifact report then .error .corrupt
  else
    match stored.gateCommit, stored.run.materialize with
    | none, _ => .error .corrupt
    | some _, .error e => .error e
    | some gateCommit, .ok run =>
      .ok
        { providerRun := stored.providerRun
          evaluationId := stored.evaluationId
          check := stored.check
          run
          gateCommit
          conclusion := stored.conclusion
          report
          artifact := stored.artifact }

/-- The publication belongs to the record that holds it. A publication without
    a gate commit is from an older ledger, which had no artifacts. -/
def validateBinding (evaluationId : OpaqueId)
    (delivery : StoredDelivery) (check : CheckBinding) : Bool :=
  !(stored.artifact.isSome && stored.reportRef.isNone) &&
    (if stored.hasGateCommit then stored.validateMetadata codec
     else stored.artifact.isNone && stored.reportRef.all ReportRef.validate &&
       stored.providerRun.isValid && stored.run.validate) &&
    stored.evaluationId == evaluationId && stored.providerRun == delivery.providerRun &&
    stored.run.change == delivery.change &&
    stored.run.objectFormat == delivery.providerRun.objectFormat &&
    stored.run.commits.candidate == delivery.providerRun.candidateCommit &&
    stored.check == check

end StoredPublication

/-- The fence a state carries. -/
def Record.State.fence : Record.State → Nat
  | .running _ fence _ => fence
  | .staged fence _ => fence
  | .done fence _ => fence

namespace Record

variable (codec : LedgerCodec)

/-- The record of a delivery claimed for the first time. -/
def running (delivery : AcceptedDelivery) (check : CheckBinding) (evaluationId : OpaqueId)
    (owner : BitVec 128) (now expiresAtUnixMillis : Int) : Record :=
  { generation := 1
    lastSeenUnixMillis := now
    binding := .new delivery.delivery
    replayKeep := .new delivery.replayKeep
    check
    evaluationId
    state := .running owner 1 expiresAtUnixMillis }

variable (record : Record)

/-- The record is about this delivery under this check. -/
def matchesDelivery (delivery : AcceptedDelivery) (check : CheckBinding) :
    Bool :=
  record.binding.matchesDelivery delivery.delivery &&
    record.replayKeep == .new delivery.replayKeep && record.check == check

def matchesKey (key : Digest) : Bool :=
  codec.deliveryKey record.binding.identity == key

/-- The next generation of a record, seen at `now`. -/
def advance (record : Record) (now : Int) : Except LedgerError Record :=
  match checkedSucc record.generation with
  | none => .error .corrupt
  | some generation => .ok { record with generation, lastSeenUnixMillis := now }

/-- The check made on every record that is written or read. -/
def validate : Bool :=
  decide (record.generation ≠ 0 ∧ 0 ≤ record.lastSeenUnixMillis) && record.binding.validate &&
    record.replayKeep.validate &&
    match record.state with
    | .running _ fence expiresAtUnixMillis =>
      decide (fence ≠ 0 ∧ fence ≤ record.generation ∧
        record.lastSeenUnixMillis < expiresAtUnixMillis)
    | .staged fence publication =>
      decide (fence ≠ 0 ∧ fence ≤ record.generation) &&
        publication.validateBinding codec record.evaluationId record.binding record.check
    | .done fence _ => decide (fence ≠ 0 ∧ fence ≤ record.generation)

/-- The reference to the report file a record still needs. -/
def liveReport : Option ReportRef :=
  match record.state with
  | .staged _ publication => publication.reportRef
  | .running _ _ _ | .done _ _ => none

end Record

end Amiss
