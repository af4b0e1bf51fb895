import Amiss.Core.References

/-!
# Findings About Documents, Claims and Controls

The builders that do not look at references: documents that left, stayed
opaque or are unreachable; governed definitions, value claims and projections;
and the rows of the control plane.

A `ClaimGroup` carries the proof that its kind is one of the two a defective
claim has. Grouping the claims of a document lies outside the evaluation, which
is given the groups.

## Main definitions

* `documentFindings`: The findings of one document.
* `ClaimGroup`, `claimFinding`: Defective value claims.
* `governedFinding`, `projectionFinding`: The other control-scoped boundaries.
* `controlRow`: The rows of the control plane.
-/

namespace Amiss

/-- What is known of one side of a document. -/
inductive DocumentSide where
  | scanned (mdxRegions htmlRegions extractedReferences : Nat)
  | unsupported
  | excludedBuiltIn
  deriving DecidableEq

/-- One document path's paired sides. -/
structure DocumentInput where
  path : RepoPath
  base : Option DocumentSide
  candidate : Option DocumentSide

/-- The navigation of a complete site build; `reachable` is sorted. -/
structure SiteNavigation where
  root : Option RepoPath
  manifest : RepoPath
  reachable : List RepoPath

/-- The path lies strictly below the navigation's root. -/
def navigationContains (root : Option RepoPath) (path : RepoPath) : Bool :=
  match root with
  | none => true
  | some root => (root.bytes ++ [47]).isPrefixOf path.bytes

/-- A scanned document the navigation does not reach. -/
def SiteNavigation.misses (navigation : SiteNavigation) (path : RepoPath) : Bool :=
  navigationContains navigation.root path && path ≠ navigation.manifest &&
    (binarySearch navigation.reachable path).isNone

variable (codec : Codec)

variable (profile : Profile)

/-- The finding of a document under one kind. -/
def documentFinding (side : LocationSide) (path : RepoPath)
    (kind : FindingKind) : Except ScanError Finding :=
  simple codec kind (.document path) .notApplicable [] ⟨side, some path, none, none⟩ profile

/-- The kinds the candidate side of a document calls for. -/
def candidateDocumentKinds (navigation : Option SiteNavigation) (path : RepoPath) :
    Option DocumentSide → List FindingKind
  | none | some .excludedBuiltIn => []
  | some .unsupported => [.unsupportedDocumentFormat]
  | some (.scanned mdxRegions htmlRegions _) =>
    (if mdxRegions > 0 then [.opaqueMdxRegion] else []) ++
      (if htmlRegions > 0 then [.opaqueHtmlRegion] else []) ++
      (if navigation.any (fun navigation => navigation.misses path) then [.unlinkedDocument]
        else [])

def documentFindings (navigation : Option SiteNavigation)
    (document : DocumentInput) : Except ScanError (List Finding) :=
  if document.base.isSome && document.candidate.isNone then
    [FindingKind.documentRemoved].mapM (documentFinding codec profile .base document.path)
  else
    (candidateDocumentKinds navigation document.path document.candidate).mapM
      (documentFinding codec profile .candidate document.path)

/-- A control-scoped finding of one candidate document. -/
def controlFactFinding (kind : FindingKind) (document : RepoPath)
    (ruleId : String) (evidence : Evidence) (memberCount : Nat)
    (span : Option (Nat × Nat)) (display : Option SpanDisplay) (profile : Profile) :
    Except ScanError Finding :=
  candidateFactFinding codec kind (.control (some document) ruleId) evidence memberCount
    ⟨.candidate, some document, span, display⟩ profile

/-- One candidate document's reserved governed definitions. -/
structure GovernedSeed where
  document : RepoPath
  memberCount : Nat
  sources : List ControlStateSource
  representativeSpan : Option (Nat × Nat)
  representativeDisplay : Option SpanDisplay

/-- The path a control state names; a text path that is no path is an
    internal defect. -/
def controlStatePath (path : RepoPath) : Except ScanError (Option RepoPathText) :=
  match path.asStr with
  | none => .ok none
  | some text => do
    let path ← okOrInternal (RepoPathText.tryFrom text)
    pure (some path)

def governedFinding (seed : GovernedSeed) :
    Except ScanError Finding := do
  let ruleId := "unsupported/governed-claim"
  let path ← controlStatePath seed.document
  let evidence := Evidence.control (some seed.document) ruleId none none
    (some ⟨path, ruleId, seed.sources, .unsupported⟩) none none
  controlFactFinding codec .unsupportedCapability seed.document ruleId evidence
    seed.memberCount seed.representativeSpan seed.representativeDisplay profile

/-- Where a broken claim's expected words sit now. -/
inductive Moved where
  | nowhere
  | to (line : Nat) (words : Bytes)
  | ambiguous
  deriving DecidableEq

/-- The kinds a defective claim can have. -/
def FindingKind.IsClaim (kind : FindingKind) : Prop :=
  kind = .claimBroken ∨ kind = .claimTargetMissing

/-- One document's defective value claims under one name. -/
structure ClaimGroup where
  kind : FindingKind
  carrier : ClaimCarrier
  document : RepoPath
  name : String
  memberCount : Nat
  sources : List ControlStateSource
  representativeSpan : Option (Nat × Nat)
  representativeDisplay : Option SpanDisplay
  targetPath : RepoPath
  line : Nat
  expectedDigest : Digest
  observed : ClaimObserved
  observedDigest : Option Digest
  observedLine : Option Bytes
  moved : Moved
  isClaim : kind.IsClaim

/-- The distinct digests with their multiplicities, in order. -/
def sourceMultiplicities (digests : List Digest) : List ControlStateSource :=
  ((sortBy id digests).splitBy (· == ·)).filterMap (fun run =>
    run.head?.map (fun digest => ⟨digest, countU64 run.length⟩))

/-- The words a broken claim is respelled to expect, and their line. -/
def ClaimGroup.respelling (group : ClaimGroup) : Option (Nat × Bytes) :=
  match group.moved with
  | .to line words => some (line, words)
  | .ambiguous => none
  | .nowhere => group.observedLine.map (fun words => (group.line, words))

/-- The rewrite of a lone broken claim. -/
def claimFix (group : ClaimGroup) : Option FindingFix := do
  guard (group.kind = .claimBroken ∧ group.memberCount = 1)
  let words ← group.respelling
  let replacement ← codec.rewrite group.name group.targetPath words.1 words.2 group.carrier
  let span ← group.representativeSpan
  let path ← group.document.asText
  pure ⟨path, span, replacement, .claimValueRewrite⟩

def claimFinding (group : ClaimGroup) :
    Except ScanError Finding := do
  let targetPath ← okOrInternal group.targetPath.asText
  let evidence := Evidence.claim group.name targetPath group.line group.expectedDigest
    group.observed group.observedDigest group.sources
  let finding ← controlFactFinding codec group.kind group.document
    ("claim/value/" ++ group.name) evidence group.memberCount group.representativeSpan
    group.representativeDisplay profile
  pure { finding with fix := claimFix codec group }

/-- What a projection's sink says against its source. -/
inductive ProjectionVerdict where
  | attested
  | drift (reason : ProjectionObserved) (expectedDigest observedDigest : Option Digest)
      (expectedBytes observedBytes : Option Nat) (difference : Option ProjectionDifference)
  deriving DecidableEq

structure ProjectionAssertion where
  document : RepoPathText
  name : String
  projection : ProjectionKind
  source : ProjectionSource

structure ProjectionOutcome where
  assertion : ProjectionAssertion
  carrierDigests : List Digest
  representativeSpan : Option (Nat × Nat)
  representativeDisplay : Option SpanDisplay
  verdict : ProjectionVerdict

/-- The finding of a projection that drifted. -/
def projectionFinding (outcome : ProjectionOutcome) :
    Except ScanError (Option Finding) :=
  match outcome.verdict with
  | .attested => .ok none
  | .drift reason expectedDigest observedDigest expectedBytes observedBytes difference => do
    let assertion := outcome.assertion
    let evidence := Evidence.projection assertion.name assertion.projection assertion.source
      reason expectedDigest observedDigest expectedBytes observedBytes
      (sourceMultiplicities outcome.carrierDigests) difference
    let finding ← controlFactFinding codec .projectionDrift assertion.document.path
      ("claim/projection/" ++ assertion.name) evidence 1 outcome.representativeSpan
      outcome.representativeDisplay profile
    pure (some finding)

/-- One control-plane finding the policy comparison produces. -/
structure ControlSeed where
  kind : FindingKind
  ruleId : String
  controlPath : Option RepoPath

/-- One control-scoped finding under an exact rule. -/
def controlRow (kind : FindingKind) (ruleId : String)
    (controlPath : Option RepoPath) (baseDigest candidateDigest : Option Digest)
    (exception : Option ExceptionDiagnostic) : Except ScanError Finding :=
  candidateFactFinding codec kind (.control controlPath ruleId)
    (.control controlPath ruleId none baseDigest none candidateDigest exception) 1
    ⟨if controlPath.isSome then .control else .global, controlPath, none, none⟩ profile

end Amiss
