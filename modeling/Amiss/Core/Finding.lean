import Amiss.Core.Observation
import Amiss.Core.Components
import Amiss.Core.Taxonomy

/-!
# Findings

A finding, the key it is filed under, the facts it rests on, and the policy
trace that gives it its dispositions.

The digests of keys and facts are taken of their canonical JSON under a domain.
Serialization and SHA-256 lie outside the sources, so a `Codec` carries both as
functions; serialization may fail, and a finding whose key or fact has no text
is an internal error. The schema constants of the wire types are part of the
canonical text and hold no other value, so they are not fields here.

`simple` is the shell every builder but the structural one starts from, and
`candidateFactFinding` adds a candidate fact to it.

## Main definitions

* `KeyInput`, `FactInput`: What keys and facts are digests of.
* `Codec`, `keyDigest`, `factDigest`: The digests.
* `Finding`: One constructed finding.
* `simple`, `candidateFactFinding`: The two finding shells.
* `Codec.CollisionFree`: Different keys have different digests.
-/

namespace Amiss

/-- A repository path whose bytes are text. -/
structure RepoPathText where
  text : String
  valid : pathBytesValid (utf8 text) = true
  deriving DecidableEq

def RepoPathText.tryFrom (raw : String) : Option RepoPathText :=
  if h : pathBytesValid (utf8 raw) = true then some ⟨raw, h⟩ else none

/-- A text path embeds without revalidation. -/
def RepoPathText.path (text : RepoPathText) : RepoPath := ⟨utf8 text.text, text.valid⟩

/-- The path as text, where its bytes are text. -/
def RepoPath.asStr (path : RepoPath) : Option String :=
  String.fromUTF8? ⟨path.bytes.toArray⟩

/-- A path as text that is still a path. -/
def RepoPath.asText (path : RepoPath) : Option RepoPathText :=
  path.asStr.bind RepoPathText.tryFrom

/-- An identifier of a control row. -/
structure ArtifactId where
  raw : String
  deriving DecidableEq

theorem ArtifactId.raw_injective : Function.Injective ArtifactId.raw := by
  intro a b h
  cases a
  cases b
  cases h
  rfl

instance : LinearOrder ArtifactId := orderBy ArtifactId.raw ArtifactId.raw_injective

/-- An owner or issuer. -/
structure OwnerId where
  raw : String
  deriving DecidableEq

/-- A whole-second UTC instant in its fixed-width form, whose text order is
    chronological. -/
structure UtcInstant where
  raw : String
  deriving DecidableEq

theorem UtcInstant.raw_injective : Function.Injective UtcInstant.raw := by
  intro a b h
  cases a
  cases b
  cases h
  rfl

instance : LinearOrder UtcInstant := orderBy UtcInstant.raw UtcInstant.raw_injective

structure TreeIdentity where
  objectFormat : ObjectFormat
  treeOid : Oid
  deriving DecidableEq

/-- The intent path of a key, empty where the reference names none. -/
inductive IntentPath where
  | empty
  | path (path : RepoPath)
  deriving DecidableEq

/-- The normalized target of a reference. -/
structure TargetIntent where
  commitOid : Option Oid
  fragmentDigest : Option Digest
  path : IntentPath
  queryDigest : Option Digest
  targetKind : TargetKind
  deriving DecidableEq

/-- What a finding is about. -/
inductive KeyScope where
  | control (controlPath : Option RepoPath) (ruleId : String)
  | document (document : RepoPath)
  | observation (observationId : Digest)
  | reference (document : RepoPath) (normalizedTargetIntent : TargetIntent)
      (sourceProjectionDigest : Digest) (sourceConstruct : SourceConstruct)
  deriving DecidableEq

/-- What a finding key is the digest of. -/
structure KeyInput where
  findingKind : FindingKind
  scope : KeyScope
  deriving DecidableEq

inductive ControlState where
  | absent
  | invalid
  | outsideCoverage
  | present
  | unsupported
  deriving DecidableEq

structure ControlStateSource where
  digest : Digest
  multiplicity : Nat
  deriving DecidableEq

structure ControlStateInput where
  path : Option RepoPathText
  ruleId : String
  sources : List ControlStateSource
  state : ControlState
  deriving DecidableEq

inductive ClaimObserved where
  | lineDiffers
  | lineOutOfRange
  | targetAbsent
  | targetLfsPointer
  | targetNotABlob
  deriving DecidableEq

inductive BrokenRedirectReason where
  | ambiguousRoute
  | missingAnchor
  | missingRoute
  | nonterminalRedirect
  deriving DecidableEq

inductive ProjectionObserved where
  | contentAbsent
  | contentDiffers
  | sinkAbsent
  | sinkAmbiguous
  | sinkDocumentUnavailable
  | sinkNotAdjacent
  | sourceAbsent
  | sourceEndMarkerAbsent
  | sourceEndMarkerAmbiguous
  | sourceKeyAbsent
  | sourceKeyNotScalar
  | sourceLfsPointer
  | sourceLinesOutOfRange
  | sourceNotABlob
  | sourceRecordAbsent
  | sourceRecordSetAbsent
  | sourceRecordSetIncomplete
  | sourceRecordUnproven
  | sourceRegionNotUtf8
  | sourceRegionOrderInvalid
  | sourceStartMarkerAbsent
  | sourceStartMarkerAmbiguous
  | sourceTreePathNotARow
  | sourceTreePathNotUtf8
  | sourceTreeRootAbsent
  | sourceTreeRootNotATree
  | sourceUnparsable
  deriving DecidableEq

inductive KeyFormat where
  | toml
  | json
  deriving DecidableEq

inductive ProjectionKind where
  | codeTextV1
  | sortedRowsV1
  | decimalCountV1
  | containsV1
  deriving DecidableEq

/-- The ceiling on the bytes of a suffix. -/
def documentSuffixBytes : Nat := 64

/-- A suffix: a dot and at least one byte, none of them `/`, `\` or zero. -/
def exactSuffixValid (suffix : String) : Bool :=
  match utf8 suffix with
  | 46 :: tail =>
    !tail.isEmpty && decide ((utf8 suffix).length ≤ documentSuffixBytes) &&
      !tail.any (fun byte => byte == 47 || byte == 92 || byte == 0)
  | _ => false

inductive ProjectionSource where
  | blobLines (path : RepoPathText) (firstLine lastLine : Nat)
  | namedRegion (path : RepoPathText) (startMarker endMarker : String)
  | treePaths (root : RepoPathText) (suffix : Option String) (maximumDepth : Nat)
  | recordValue (set : ArtifactId) (key : String)
  | recordSet (set : ArtifactId)
  | blob (path : RepoPathText)
  | keyValue (path : RepoPathText) (format : KeyFormat) (key : List String)
  deriving DecidableEq

structure RowsProjectionDifference where
  expectedRecords : Nat
  extraOmitted : Nat
  extraPreview : List String
  extraRecords : Nat
  missingOmitted : Nat
  missingPreview : List String
  missingRecords : Nat
  observedRecords : Nat
  orderingOnly : Bool
  deriving DecidableEq

inductive ProjectionDifference where
  | count (expectedCount : Nat) (observedCount : Option Nat)
  | rows (difference : RowsProjectionDifference)
  deriving DecidableEq

/-- The complete diagnostic of an exception item that does not apply. A
    waiver's residual disposition has the one value `warn`. -/
inductive ExceptionDiagnostic where
  | debt (debtId : ArtifactId) (debtSnapshotDigest : Digest) (adoptionTree : TreeIdentity)
      (acceptedFactDigest currentFactDigest : Digest) (owner : OwnerId) (reason : String)
      (createdAt expiresAt : UtcInstant)
  | waiver (waiverId : ArtifactId) (waiverBundleDigest : Digest) (candidateTree : TreeIdentity)
      (findingKey authorizedFactDigest : Digest) (issuer : OwnerId) (notBefore : UtcInstant)
      (currentFactDigest : Option Digest) (owner : OwnerId) (reason : String)
      (createdAt expiresAt : UtcInstant)
  deriving DecidableEq

/-- What a fact rests on. -/
inductive Evidence where
  | brokenRedirect (claimDigest : Digest) (destination : String)
      (reason : BrokenRedirectReason) (route : String) (source : RepoPath)
  | claim (name : String) (targetPath : RepoPathText) (line : Nat) (expectedDigest : Digest)
      (observed : ClaimObserved) (observedDigest : Option Digest)
      (sources : List ControlStateSource)
  | control (controlPath : Option RepoPath) (ruleId : String)
      (baseControlState : Option ControlStateInput) (baseControlDigest : Option Digest)
      (candidateControlState : Option ControlStateInput)
      (candidateControlDigest : Option Digest) (exception : Option ExceptionDiagnostic)
  | duplicateRoute (claimDigests : List Digest) (route : String) (sources : List RepoPath)
  | projection (name : String) (projection : ProjectionKind) (source : ProjectionSource)
      (observed : ProjectionObserved) (expectedDigest observedDigest : Option Digest)
      (expectedBytes observedBytes : Option Nat) (sources : List ControlStateSource)
      (difference : Option ProjectionDifference)
  | reference (occurrenceMultiplicity : Nat) (resolution : Resolution RepoPath)
  deriving DecidableEq

/-- What a fact digest is the digest of. -/
structure FactInput where
  evidence : Evidence
  findingKind : FindingKind
  keyInput : KeyInput
  deriving DecidableEq

/-- One canonical fact and the digest computed from it. -/
structure FindingFact where
  input : FactInput
  digest : Digest
  deriving DecidableEq

inductive Attribution where
  | introduced
  | notApplicable
  | preExisting
  | resolved
  | unknown
  deriving DecidableEq

inductive LocationSide where
  | base
  | candidate
  | control
  | global
  deriving DecidableEq

structure Location where
  side : LocationSide
  path : Option RepoPath
  span : Option (Nat × Nat)
  display : Option SpanDisplay
  deriving DecidableEq

/-- Who took a policy step. -/
inductive PolicySource where
  | builtIn
  | debtSnapshot
  | organizationFloor
  | repositoryPolicy
  | resolvedProjection
  | unsuppressibleClamp
  | waiverBundle
  deriving DecidableEq

structure PolicyStep where
  source : PolicySource
  ruleId : String
  before : Disposition
  after : Disposition
  deriving DecidableEq

inductive FixKind where
  | claimValueRewrite
  | anchorRespelling
  | pathRespelling
  | pathRelocation
  deriving DecidableEq

/-- A repository edit. -/
structure FindingFix where
  path : RepoPathText
  span : Nat × Nat
  replacement : String
  kind : FixKind
  deriving DecidableEq

/-- The debt item a finding was lowered by. -/
structure DebtApplication where
  debtId : ArtifactId
  debtSnapshotDigest : Digest
  adoptionTree : TreeIdentity
  acceptedFactDigest : Digest
  owner : OwnerId
  reason : String
  createdAt : UtcInstant
  expiresAt : UtcInstant
  deriving DecidableEq

/-- The waiver item a finding was lowered by. -/
structure WaiverApplication where
  waiverId : ArtifactId
  waiverBundleDigest : Digest
  candidateTree : TreeIdentity
  authorizedFactDigest : Digest
  issuer : OwnerId
  notBefore : UtcInstant
  owner : OwnerId
  reason : String
  createdAt : UtcInstant
  expiresAt : UtcInstant
  deriving DecidableEq

/-- One constructed finding: its key, its facts, its aggregation, its
    dispositions and the policy trace that gave it them. -/
structure Finding where
  keyInput : KeyInput
  findingKey : Digest
  attribution : Attribution
  baseFact : Option FindingFact
  candidateFact : Option FindingFact
  memberCount : Nat
  observationIds : List Digest
  location : Location
  configuredDisposition : Disposition
  effectiveDisposition : Disposition
  steps : List PolicyStep
  debt : Option DebtApplication
  waiver : Option WaiverApplication
  fix : Option FindingFix
  deriving DecidableEq

/-- The kind of a finding is its key's. -/
def Finding.kind (finding : Finding) : FindingKind := finding.keyInput.findingKind

/-- The disposition the trace has reached, the configured one while the trace
    is empty. -/
def Finding.current (finding : Finding) : Disposition :=
  match finding.steps.getLast? with
  | some step => step.after
  | none => finding.configuredDisposition

/-- Which invisible construct carries a claim. -/
inductive ClaimCarrier where
  | definition
  | rstComment
  | adocComment
  deriving DecidableEq

/-- What lies outside the sources or behind the document parsers: SHA-256, the
    canonical texts digests are taken of, and the claim respelling, which asks
    the real extractor. -/
structure Codec where
  sha256 : Bytes → Digest
  keyText : KeyInput → Option Bytes
  factText : FactInput → Option Bytes
  rewrite : String → RepoPath → Nat → Bytes → ClaimCarrier → Option String

def findingKeyDomain : String := "amiss/scanner-finding-key"

def factDomain : String := "amiss/scanner-fact"

variable (codec : Codec)

def keyDigest (key : KeyInput) : Except ScanError Digest :=
  okOrInternal ((codec.keyText key).map (domainDigest codec.sha256 findingKeyDomain))

def factDigest (input : FactInput) : Except ScanError Digest :=
  okOrInternal ((codec.factText input).map (domainDigest codec.sha256 factDomain))

/-- Different keys have different digests. -/
def Codec.CollisionFree : Prop :=
  ∀ key key' digest, keyDigest codec key = .ok digest → keyDigest codec key' = .ok digest →
    key = key'

/-- A length as a 64-bit count, the largest one where it does not fit. -/
def countU64 (length : Nat) : Nat := if length < 2 ^ 64 then length else 2 ^ 64 - 1

def fact (key : KeyInput) (evidence : Evidence) : Except ScanError FindingFact := do
  let input : FactInput := ⟨evidence, key.findingKind, key⟩
  let digest ← factDigest codec input
  pure ⟨input, digest⟩

/-- The built-in step starts at record and applies the defaults table. -/
def builtInStep (kind : FindingKind) (profile : Profile) : PolicyStep where
  source := .builtIn
  ruleId := "scanner-policy-defaults/" ++ kind.name ++ "/" ++ profile.policyDefaults.name
  before := .record
  after := kind.builtInDisposition profile

def simple (kind : FindingKind) (scope : KeyScope) (attribution : Attribution)
    (ids : List Digest) (location : Location) (profile : Profile) :
    Except ScanError Finding := do
  let keyInput : KeyInput := ⟨kind, scope⟩
  let findingKey ← keyDigest codec keyInput
  let configured := kind.builtInDisposition profile
  pure {
    keyInput := keyInput
    findingKey := findingKey
    attribution := attribution
    baseFact := none
    candidateFact := none
    memberCount := 1
    observationIds := ids
    location := location
    configuredDisposition := configured
    effectiveDisposition := configured
    steps := [builtInStep kind profile]
    debt := none
    waiver := none
    fix := none }

def candidateFactFinding (kind : FindingKind) (scope : KeyScope)
    (evidence : Evidence) (memberCount : Nat) (location : Location) (profile : Profile) :
    Except ScanError Finding := do
  let finding ← simple codec kind scope .notApplicable [] location profile
  let candidateFact ← fact codec finding.keyInput evidence
  pure { finding with candidateFact := some candidateFact, memberCount := memberCount }

def observationLocation (observation : Observation) (side : LocationSide) : Location :=
  ⟨side, some observation.document, some observation.span, some observation.display⟩

end Amiss
