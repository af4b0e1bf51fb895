import Amiss.Core.Fixes

/-!
# Findings About References

The findings that come out of a comparison: one per structural key across both
sides, and the removal, ambiguity and impact findings of single rows.

Structural failures are grouped by the digest of their key. A base occurrence
that the correlator paired with a candidate failing the same way joins the
candidate's group instead of the group of its own key, so a reworded block or
a renamed document keeps its failure pre-existing.

## Main definitions

* `resolutionKinds`: The kinds a resolution calls for.
* `collectStructural`: Filing one occurrence under its key.
* `joinComparison`, `structuralGroups`: The groups of a run.
* `structuralFinding`, `structuralFindings`: One finding per group.
* `structuralFacts`: The groups of one side alone.
* `comparisonFinding`: The finding of one row.
-/

namespace Amiss

/-- The kinds a resolution calls for, by the builder that reports them. -/
structure ResolutionKinds where
  structural : Option FindingKind
  boundary : Option FindingKind
  deriving DecidableEq

def resolutionKinds : Resolution RepoPath → ResolutionKinds
  | .missing _ => ⟨some .explicitTargetMissing, none⟩
  | .typeMismatch _ => ⟨some .explicitTargetTypeMismatch, none⟩
  | .invalid _ => ⟨none, some .invalidReference⟩
  | .unsupportedSemantics _ => ⟨none, some .unsupportedReferenceSemantics⟩
  | .unsupportedVersion _ => ⟨none, some .unsupportedVersionScope⟩
  | .unsupportedTarget _ => ⟨none, some .unsupportedTargetKind⟩
  | .declaredUntracked _ => ⟨none, some .targetDeclaredUntracked⟩
  | .resolved _ | .external _ => ⟨none, none⟩

/-- The occurrences of both sides that share one structural key. -/
structure KeyGroup where
  key : KeyInput
  base : List Observation
  candidate : List Observation

def KeyGroup.push (group : KeyGroup) (observation : Observation) (isBase : Bool) : KeyGroup :=
  if isBase then { group with base := group.base ++ [observation] }
  else { group with candidate := group.candidate ++ [observation] }

/-- The groups, by the digest of their key. -/
abbrev KeyGroups := BTreeMap Digest KeyGroup

variable (codec : Codec)

/-- The structural key of an occurrence. -/
def structuralKey (kind : FindingKind) (observation : Observation) : KeyInput :=
  let intent := observation.intent
  { findingKind := kind
    scope := .reference observation.document
      { commitOid := intent.commitOid
        fragmentDigest := textDigest codec.sha256 linkFragmentDomain intent.fragment
        path := match intent.repositoryPath with
          | none => .empty
          | some path => .path path
        queryDigest := textDigest codec.sha256 linkQueryDomain intent.query
        targetKind := intent.targetKind.getD .either }
      observation.projectionDigest observation.construct }

variable (groups : KeyGroups)

/-- File one occurrence under its key, and say which. An occurrence that does
    not fail structurally is left out. -/
def collectStructural (observation : Observation)
    (isBase : Bool) : Except ScanError (KeyGroups × Option Digest) :=
  match (resolutionKinds observation.resolution).structural with
  | none => .ok (groups, none)
  | some kind => do
    let key := structuralKey codec kind observation
    let digest ← keyDigest codec key
    pure (upsert groups digest
      (fun entry => (entry.getD ⟨key, [], []⟩).push observation isBase), some digest)

/-- File a list of occurrences of one side. -/
def collectAll (isBase : Bool) (groups : KeyGroups)
    (observations : List Observation) : Except ScanError KeyGroups :=
  observations.foldlM (fun groups observation => do
    let collected ← collectStructural codec groups observation isBase
    pure collected.1) groups

variable (comparison : Comparison)

/-- File the primary candidate; the digest stands only for a decided pairing. -/
def collectCandidate :
    Except ScanError (KeyGroups × Option Digest) :=
  match comparison.candidate with
  | none => .ok (groups, none)
  | some observation => do
    let collected ← collectStructural codec groups observation false
    match comparison.outcome with
    | .exact | .candidate => pure collected
    | .ambiguous | .none => pure (collected.1, none)

/-- File the primary base occurrence: with its candidate where that one fails
    in the same kind, under its own key otherwise. -/
def joinBase (continued : Option Digest)
    (base : Observation) : Except ScanError KeyGroups :=
  let kind := (resolutionKinds base.resolution).structural
  let joined := continued.bind (fun digest =>
    (groups[digest]?.filter (fun group => some group.key.findingKind = kind)).map
      (fun group => (digest, group)))
  match joined with
  | some (digest, group) => .ok (groups.insert digest (group.push base true))
  | none => do
    let collected ← collectStructural codec groups base true
    pure collected.1

/-- File the primary base occurrence of a row, if it has one. -/
def collectBase (continued : Option Digest) : Option Observation → Except ScanError KeyGroups
  | none => .ok groups
  | some base => joinBase codec groups continued base

/-- File the occurrences of one row. -/
def joinComparison :
    Except ScanError KeyGroups := do
  let collected ← collectCandidate codec groups comparison
  let groups ← collectAll codec false collected.1 comparison.alternativesCandidate
  let groups ← collectBase codec groups collected.2 comparison.base
  collectAll codec true groups comparison.alternativesBase

def structuralGroups (comparisons : List Comparison) :
    Except ScanError KeyGroups :=
  comparisons.foldlM (joinComparison codec) ∅

/-- The shape of a failure. Hints and the target's content are evidence about
    a failure, not part of it. -/
def failureShape (resolution : Resolution RepoPath) :
    ResolutionTag × Option MissingTag × Option TargetTag :=
  (resolution.tag,
    (match resolution with
      | .missing missing => some missing.tag
      | _ => none),
    (match resolution with
      | .typeMismatch target => some target.tag
      | _ => none))

/-- As many occurrences fail in the same shape on both sides. -/
def sameFailure (base candidate : List Observation) : Bool :=
  base.length == candidate.length &&
    match base, candidate with
    | left :: _, right :: _ => failureShape left.resolution == failureShape right.resolution
    | _, _ => false

/-- The first of the least elements by a key. -/
def leastBy {α β : Type} [LinearOrder β] (key : α → β) (xs : List α) : Option α :=
  (sortBy key xs).head?

/-- A span in the order of its positions. -/
def spanOrder (span : Nat × Nat) : Nat ×ₗ Nat := toLex span

/-- The side a group reports from: the candidate where it has an occurrence. -/
def KeyGroup.reported (group : KeyGroup) : List Observation × LocationSide :=
  if group.candidate.isEmpty then (group.base, .base) else (group.candidate, .candidate)

/-- The members a group reports, as sorted ids, a count and the least place. -/
def reportedMembers (group : KeyGroup) : List Digest × Nat × Location :=
  let members := group.reported.1
  let side := group.reported.2
  let ids := sortBy id (members.map Observation.id)
  let location := match leastBy
      (fun o : Observation => toLex (o.document, toLex (spanOrder o.span, o.id))) members with
    | none => ⟨side, none, none, none⟩
    | some observation => observationLocation observation side
  (ids, countU64 members.length, location)

/-- The fact of one side of a group, where it has an occurrence. -/
def sideFact (key : KeyInput) : List Observation → Except ScanError (Option FindingFact)
  | [] => .ok none
  | first :: rest => do
    let fact ← fact codec key
      (.reference (countU64 (rest.length + 1)) first.resolution)
    pure (some fact)

/-- Attribution follows which sides have a fact and the failure's shape. -/
def structuralAttribution (group : KeyGroup) (baseFact candidateFact : Option FindingFact) :
    Attribution :=
  match baseFact, candidateFact with
  | none, some _ => .introduced
  | some _, none => .resolved
  | some _, some _ =>
    if sameFailure group.base group.candidate then .preExisting else .unknown
  | none, none => .notApplicable

/-- A base-only projection is forced to record, so a deletion cannot retain an
    old blocking failure. -/
def structuralStep (kind : FindingKind) (attribution : Attribution) (profile : Profile) :
    PolicyStep :=
  if attribution = .resolved then ⟨.resolvedProjection, "resolved-projection", .record, .record⟩
  else builtInStep kind profile

/-- The finding of one group, none where neither side has an occurrence. -/
def structuralFinding (profile : Profile) (digest : Digest) (group : KeyGroup) :
    Except ScanError (Option Finding) := do
  let kind := group.key.findingKind
  let baseFact ← sideFact codec group.key group.base
  let candidateFact ← sideFact codec group.key group.candidate
  let attribution := structuralAttribution group baseFact candidateFact
  if attribution = .notApplicable then pure none
  else
    let members := reportedMembers group
    let configured : Disposition :=
      if attribution = .resolved then .record else kind.builtInDisposition profile
    pure (some {
      keyInput := group.key
      findingKey := digest
      attribution := attribution
      baseFact := baseFact
      candidateFact := candidateFact
      memberCount := members.2.1
      observationIds := members.1
      location := members.2.2
      configuredDisposition := configured
      effectiveDisposition := configured
      steps := [structuralStep kind attribution profile]
      debt := none
      waiver := none
      fix := missingFix group.candidate })

def structuralFindings (comparisons : List Comparison) (profile : Profile) :
    Except ScanError (List Finding) := do
  let groups ← structuralGroups codec comparisons
  let findings ← groups.toList.mapM
    (fun entry => structuralFinding codec profile entry.1 entry.2)
  pure findings.reduceOption

/-- Every structural key among the observations, with its occurrence count and
    the fact digest at that count. -/
def structuralFacts (observations : List Observation) :
    Except ScanError (List (Digest × Nat × Digest)) := do
  let groups ← collectAll codec false ∅ observations
  groups.toList.mapM (fun entry => do
    let first ← okOrInternal entry.2.candidate.head?
    let multiplicity := countU64 entry.2.candidate.length
    let digest ← factDigest codec
      ⟨.reference multiplicity first.resolution, entry.2.key.findingKind, entry.2.key⟩
    pure (entry.1, multiplicity, digest))

/-- The primary occurrence of a row, the candidate's where there is one. -/
def Comparison.primary : Option (Observation × LocationSide) :=
  match comparison.candidate, comparison.base with
  | some observation, _ => some (observation, .candidate)
  | none, some observation => some (observation, .base)
  | none, none => none

/-- The kind a row calls for: removal, ambiguity, or a named impact. -/
def comparisonKind : Option FindingKind :=
  if comparison.outcome = .none ∧ comparison.candidate = none then
    some .explicitReferenceRemoved
  else if comparison.outcome = .ambiguous then some .observationCorrelationAmbiguous
  else
    match comparison.impact with
    | .dependencyChangedSubjectUnchanged => some .dependencyChangedSubjectUnchanged
    | .dependencyAndSubjectCochanged => some .dependencyAndSubjectCochanged
    | .subjectChanged => some .subjectChanged
    | .none | .referenceResolved | .notApplicable | .observationCorrelationAmbiguous
    | .newObservation | .removedObservation => none

/-- The finding of one row, where it calls for one. -/
def comparisonFinding (profile : Profile) (comparison : Comparison) :
    Except ScanError (Option Finding) :=
  match comparison.primary, comparisonKind comparison with
  | some (primary, side), some kind => do
    let finding ← simple codec kind (.observation primary.id) .notApplicable [primary.id]
      (observationLocation primary side) profile
    pure (some finding)
  | _, _ => .ok none

end Amiss
