import Amiss.Core.Wire

/-!
# Controller Identities

What the controller calls things: providers, deliveries, changes, runs, the
publications it stages and the leases it runs under. Everything here is data
that several components compare, store or carry; the few checks beside it are
the ones the source attaches to the type itself.

Times are milliseconds since the Unix epoch. Texts the controller only
compares (branch references, provider namespaces, status names) are kept
without their grammars; an `OpaqueId` and a `RepositoryIdentity` carry theirs,
because the ledger builds one and rebuilds the other.

## Main definitions

* `OpaqueId`: A bounded printable identifier.
* `RepositoryIdentity`: A repository, valid by construction.
* `AuthenticatedDelivery`, `AcceptedDelivery`: A delivery before and after its
  replay lifetime is chosen.
* `RunIdentity`: The exact identity one evaluation runs as.
* `Publication`: What is frozen before it is published.
* `ArtifactReference.isValid`: The checks on a retained artifact.
-/

namespace Amiss

/-- The largest value of a signed 64-bit integer. -/
def i64Max : Int := 9223372036854775807

/-- Addition that refuses to overflow a signed 64-bit integer. -/
def checkedAdd (a b : Int) : Option Int :=
  if -i64Max - 1 ≤ a + b ∧ a + b ≤ i64Max then some (a + b) else none

/-- The successor that refuses to overflow an unsigned 64-bit integer. -/
def checkedSucc (n : Nat) : Option Nat :=
  if n + 1 < 2 ^ 64 then some (n + 1) else none

theorem checkedAdd_eq_some {a b c : Int} (h : checkedAdd a b = some c) : c = a + b := by
  unfold checkedAdd at h
  split at h
  · exact (Option.some.inj h).symm
  · cases h

theorem checkedSucc_eq_some {n m : Nat} (h : checkedSucc n = some m) : m = n + 1 := by
  unfold checkedSucc at h
  split at h
  · exact (Option.some.inj h).symm
  · cases h

/-- Between one and `maximum` bytes, each of them admitted. -/
def bounded (raw : Bytes) (maximum : Nat) (admits : UInt8 → Bool) : Bool :=
  !raw.isEmpty && decide (raw.length ≤ maximum) && raw.all admits

/-- The bytes of an opaque identifier: letters, digits and `. _ : / @ + -`. -/
def opaqueByte (byte : UInt8) : Bool :=
  asciiAlphanumeric byte || [46, 95, 58, 47, 64, 43, 45].contains byte

/-- One provider-issued opaque identifier, stored and compared but never
    interpreted. -/
structure OpaqueId where
  raw : String
  valid : bounded (utf8 raw) 256 opaqueByte = true
  deriving DecidableEq

/-- An opaque identifier, if the text is one. -/
def OpaqueId.tryFrom (raw : String) : Option OpaqueId :=
  if h : bounded (utf8 raw) 256 opaqueByte = true then some ⟨raw, h⟩ else none

/-- A nonzero unsigned 64-bit number. -/
abbrev NonZeroU64 := { n : UInt64 // n ≠ 0 }

/-- The bytes of a repository segment or name. -/
def identityByte (byte : UInt8) : Bool :=
  (97 ≤ byte && byte ≤ 122) || (48 ≤ byte && byte ≤ 57) || [46, 95, 45].contains byte

/-- One segment of a repository owner. -/
def identitySegment (segment : Bytes) : Bool :=
  bounded segment 100 identityByte &&
    segment.head?.any asciiAlphanumeric && segment.getLast?.any asciiAlphanumeric

/-- A repository name. -/
def nameValid (name : String) : Bool :=
  bounded (utf8 name) 100 identityByte && name != "." && name != ".."

/-- The checks on a repository's host, owner and name. -/
def validComponents (host owner name : String) : Bool :=
  decide (1 ≤ (utf8 host).length ∧ (utf8 host).length ≤ 255) && !(utf8 host).contains 47 &&
    (decide (1 ≤ (utf8 owner).length ∧ (utf8 owner).length ≤ 255) &&
      ((utf8 owner).splitOn 47).all identitySegment) &&
    nameValid name

/-- A repository: any canonical forge host, an owner path and a name. -/
structure RepositoryIdentity where
  host : String
  owner : String
  name : String
  valid : validComponents host owner name = true
  deriving DecidableEq

/-- A repository identity, if its components are valid. -/
def RepositoryIdentity.new (host owner name : String) : Option RepositoryIdentity :=
  if h : validComponents host owner name = true then some ⟨host, owner, name, h⟩ else none

/-- One provider family at one of its instances. -/
structure ProviderIdentity where
  namespaceName : String
  instanceId : OpaqueId
  deriving DecidableEq

/-- What one delivery is: the id the provider put on it, the exact body, or
    the token a runner presented. -/
inductive Delivery where
  | provided (id : OpaqueId)
  | body (digest : Digest)
  | token (runnerId : NonZeroU64) (jti : Digest)
  deriving DecidableEq

/-- The identity of one delivery. -/
structure DeliveryIdentity where
  provider : ProviderIdentity
  integration : OpaqueId
  delivery : Delivery
  deriving DecidableEq

/-- Which provider run a delivery came from. -/
inductive ProviderRun where
  | pullRequest (digest : Digest)
  | job (pipelineId jobId : NonZeroU64)
  deriving DecidableEq

/-- A provider run pinned to the delivery's candidate commit. -/
structure ProviderRunIdentity where
  run : ProviderRun
  attempt : NonZeroU64
  objectFormat : ObjectFormat
  candidateCommit : Oid
  deriving DecidableEq

/-- The candidate commit is well formed for the object format. -/
def ProviderRunIdentity.isValid (identity : ProviderRunIdentity) : Bool :=
  identity.candidateCommit.objectFormat == identity.objectFormat

/-- Which change a delivery is about. -/
inductive Change where
  | pullRequest (repositoryId pullRequestId number : NonZeroU64)
  | mergeRequest (projectId iid : NonZeroU64)
  deriving DecidableEq

/-- One change of one repository at one provider. -/
structure ChangeLocator where
  provider : ProviderIdentity
  repository : RepositoryIdentity
  change : Change
  deriving DecidableEq

/-- Whether a change may still be evaluated. -/
inductive ChangeState where
  | active
  | superseded
  | closed
  | authorizationRevoked
  deriving DecidableEq

/-- The forges whose references are understood. -/
inductive ForgeDialect where
  | github
  | gitlab
  | gitea
  | bitbucketCloud
  | bitbucketDataCenter
  deriving DecidableEq

/-- The refs one run resolves against. -/
structure RunRefs where
  forge : ForgeDialect
  candidate : String
  target : String
  defaultBranch : String
  deriving DecidableEq

/-- One base and candidate pair of object ids. -/
structure OidPair where
  base : Oid
  candidate : Oid
  deriving DecidableEq

/-- Both ids are of the object format. -/
def OidPair.wellFormed (pair : OidPair) (objectFormat : ObjectFormat) : Bool :=
  pair.base.objectFormat == objectFormat && pair.candidate.objectFormat == objectFormat

/-- The exact identity one evaluation runs as. -/
structure RunIdentity where
  change : ChangeLocator
  refs : RunRefs
  objectFormat : ObjectFormat
  commits : OidPair
  trees : OidPair
  deriving DecidableEq

/-- None unless every id is well formed for the object format. -/
def RunIdentity.new (change : ChangeLocator) (refs : RunRefs) (objectFormat : ObjectFormat)
    (commits trees : OidPair) : Option RunIdentity :=
  if !commits.wellFormed objectFormat || !trees.wellFormed objectFormat then none
  else some ⟨change, refs, objectFormat, commits, trees⟩

/-- What a provider says of a change at one moment. -/
structure ChangeSnapshot where
  state : ChangeState
  run : RunIdentity
  gateCommit : Oid

/-- What a provider authenticated about one delivery. -/
structure ProviderFacts where
  provider : ProviderIdentity
  integration : OpaqueId
  change : ChangeLocator
  providerRun : ProviderRunIdentity

/-- An authenticated delivery under its identity. -/
structure AuthenticatedDelivery where
  identity : DeliveryIdentity
  change : ChangeLocator
  providerRun : ProviderRunIdentity
  deriving DecidableEq

/-- The replay ceilings for signed deliveries, both of them positive. -/
structure ReplayWindow where
  maxSignedAgeMillis : Int
  maxQueueAgeMillis : Int
  signed_pos : 0 < maxSignedAgeMillis
  queue_pos : 0 < maxQueueAgeMillis
  deriving DecidableEq

/-- How long a delivery must be remembered. -/
inductive ReplayKeep where
  | permanent
  | keepThrough (unixMillis : Int) (window : ReplayWindow)
  deriving DecidableEq

/-- A delivery whose replay lifetime was chosen by the ingress. -/
structure AcceptedDelivery where
  delivery : AuthenticatedDelivery
  replayKeep : ReplayKeep
  deriving DecidableEq

/-- The inclusive end of a bounded replay lifetime. -/
def AcceptedDelivery.replayKeepThroughUnixMillis (accepted : AcceptedDelivery) : Option Int :=
  match accepted.replayKeep with
  | .permanent => none
  | .keepThrough unixMillis _ => some unixMillis

/-- The check a delivery is evaluated under. -/
structure CheckBinding where
  planDigest : Digest
  requiredStatusName : String
  executionConstraintDigest : Digest
  deriving DecidableEq

/-- Why a run reached no verdict. -/
inductive RunFailure where
  | missingOutput
  | timeout
  | tamperedRuntime
  | unavailable
  | oversizedOutput
  | wrongIdentity
  | wrongTree
  | authorizationRevoked
  | closed
  deriving DecidableEq

/-- The verdict a publication carries. -/
inductive CheckConclusion where
  | pass
  | block
  | superseded
  | unavailable (failure : RunFailure)
  deriving DecidableEq

/-- The verdict counts of a retained external assessment. -/
structure ExternalTally where
  refuted : Nat
  unproven : Nat
  reachable : Nat
  deriving DecidableEq

/-- Where the artifacts of one delivery are retained. -/
structure ArtifactReference where
  id : String
  locator : String
  expiresAtUnixMillis : Int
  reportDigest : Digest
  assessmentDigest : Option Digest
  externalTally : Option ExternalTally
  externalIncomplete : Bool
  semanticDigest : Option Digest
  deriving DecidableEq

/-- What the controller publishes for one evaluation. -/
structure Publication where
  providerRun : ProviderRunIdentity
  evaluationId : OpaqueId
  check : CheckBinding
  run : RunIdentity
  gateCommit : Oid
  conclusion : CheckConclusion
  report : Option Bytes
  artifact : Option ArtifactReference
  deriving DecidableEq

/-- The ceiling on a machine-readable report. -/
def machineJsonBytes : Nat := 268435456

/-- The parts of an absolute URL that the artifact route reads. -/
structure ParsedUrl where
  scheme : String
  host : Option String
  username : String
  password : Option String
  query : Option String
  fragment : Option String
  path : String
  text : String

/-- The bytes of one segment of an artifact route. -/
def routeByte (byte : UInt8) : Bool :=
  asciiAlphanumeric byte || [45, 46, 95, 126].contains byte

/-- The path an artifact base URL routes to, if it may serve as one. The URL
    parser lies outside the sources and is a parameter. -/
def artifactRoute (parse : String → Option ParsedUrl) (baseUrl : String) : Option String :=
  if (utf8 baseUrl).length > 2048 || baseUrl.toList.getLast? == some '/' then none
  else
    match parse baseUrl with
    | none => none
    | some parsed =>
      match utf8 parsed.path with
      | 47 :: rest =>
        let validPath := parsed.path != "/" &&
          (rest.splitOn 47).all (fun segment => !segment.isEmpty && segment.all routeByte)
        if parsed.scheme == "https" && parsed.host.isSome && parsed.username == "" &&
            parsed.password.isNone && parsed.query.isNone && parsed.fragment.isNone &&
            parsed.text == baseUrl && validPath then some parsed.path
        else none
      | _ => none

/-- The base and the last segment of a text, split at its last slash. -/
def rsplitSlash (text : List Char) : Option (String × String) :=
  match text.reverse.span (· != '/') with
  | (_, []) => none
  | (last, _ :: base) => some (String.ofList base.reverse, String.ofList last.reverse)

/-- The text before a final `/report`. -/
def stripReport (locator : String) : Option (List Char) :=
  if "/report".toList.isSuffixOf locator.toList then
    some (locator.toList.take (locator.length - "/report".length))
  else none

/-- The checks on an artifact reference. -/
def ArtifactReference.isValid (parse : String → Option ParsedUrl)
    (reference : ArtifactReference) : Bool :=
  (reference.id.length == 64 && reference.id.toList.all lowercaseHex) &&
    ((stripReport reference.locator).bind rsplitSlash).any
      (fun (base, id) => id == reference.id && (artifactRoute parse base).isSome) &&
    decide (0 ≤ reference.expiresAtUnixMillis) &&
    !(reference.externalIncomplete && reference.externalTally.isSome) &&
    reference.assessmentDigest.isSome == reference.externalTally.isSome

/-- The reference names the digest of exactly this report. -/
def ArtifactReference.matchesReport (sha256 : Bytes → Digest) (reference : ArtifactReference)
    (report : Option Bytes) : Bool :=
  report.any (fun bytes => sha256 bytes == reference.reportDigest)

/-- The fence of a lease: never zero. -/
@[ext]
structure LeaseFence where
  raw : Nat
  nonzero : raw ≠ 0
  deriving DecidableEq

/-- A fence, if the number may be one. -/
def LeaseFence.new (raw : Nat) : Option LeaseFence :=
  if h : raw ≠ 0 then some ⟨raw, h⟩ else none

/-- A lease on one delivery. The deadline is advisory. -/
structure DeliveryLease where
  evaluationId : OpaqueId
  check : CheckBinding
  fence : LeaseFence
  expiresAtUnixMillis : Int
  deriving DecidableEq

/-- A publication as it was frozen. -/
structure StagedPublication where
  evaluationId : OpaqueId
  fence : LeaseFence
  publication : Publication
  deriving DecidableEq

/-- What a claim of a delivery returns. -/
inductive DeliveryClaim where
  | execute (lease : DeliveryLease)
  | publish (staged : StagedPublication)
  | busy (evaluationId : OpaqueId) (retryAtUnixMillis : Int)
  | duplicate (evaluationId : OpaqueId)
  | bindingConflict
  deriving DecidableEq

/-- What renewing a lease returns. -/
inductive LeaseRenewal where
  | renewed (lease : DeliveryLease)
  | lost
  deriving DecidableEq

/-- What staging a publication returns. -/
inductive StageOutcome where
  | staged (staged : StagedPublication)
  | lost
  deriving DecidableEq

/-- What completing a delivery returns. -/
inductive LeaseCompletion where
  | completed
  | lost
  deriving DecidableEq

end Amiss
