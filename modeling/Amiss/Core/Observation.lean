import Amiss.Core.Resolution

/-!
# Observations and Comparisons

One side's occurrence of a reference as correlation sees it, and the rows
correlation returns about a pair of sides.

An observation keeps the fields that correlation and evaluation read. Its
adapter contract, block kind, node path and external destination are carried
through to the report by the sources and read by nothing modelled here.

`Comparison.baseMembers` and `Comparison.candidateMembers` list every
observation a row holds, the primary before the alternatives.

## Main definitions

* `Intent`: What a reference asks for.
* `Observation`: One occurrence of a reference.
* `Side`: One snapshot side.
* `Comparison`: One comparison row.
* `locatedProjection`: The content projection of the file a reference located.
* `derive`: How a pair of observations compares.
-/

namespace Amiss

/-- What a reference asks for, before any lookup. -/
structure Intent where
  kind : IntentKind
  commitOid : Option Oid
  repositoryPath : Option RepoPath
  targetKind : Option TargetKind
  externalScheme : Option String
  query : Option String
  fragment : Option String
  deriving DecidableEq

/-- Display positions of a span. -/
structure SpanDisplay where
  startLine : Nat
  startColumn : Nat
  endLine : Nat
  endColumn : Nat
  deriving DecidableEq

/-- One side's occurrence: its identity, where it lives, what it extracted,
    and how it resolved. -/
structure Observation where
  id : Digest
  document : RepoPath
  span : Nat × Nat
  display : SpanDisplay
  adapter : Adapter
  construct : SourceConstruct
  intent : Intent
  rawDestination : String
  rawDestinationDigest : Digest
  projectionDigest : Digest
  resolution : Resolution RepoPath
  fragmentSpan : Option (Nat × Nat)
  pathSpan : Option (Nat × Nat)
  deriving DecidableEq

/-- One snapshot side: its observations and, for the rename rule, every
    classified document's mode and raw-evidence digest. -/
structure Side where
  observations : List Observation
  documents : BTreeMap RepoPath (GitMode ×ₗ Digest)

/-- The failures of the scanner. Only the internal defect is raised by what
    is modelled. -/
inductive ScanError where
  | internal
  deriving DecidableEq

/-- The error of a missing value that must be there. -/
def okOrInternal {α : Type} : Option α → Except ScanError α
  | some value => .ok value
  | none => .error .internal

inductive Outcome where
  | ambiguous
  | candidate
  | exact
  | none
  deriving DecidableEq

inductive Reason where
  | exactDocumentRenameUnchangedProjection
  | multipleCounterparts
  | newObservation
  | removedObservation
  | sameExtractionKeyAndProjection
  | sameIntentSourceChanged
  | sameIntentUnchangedProjection
  deriving DecidableEq

inductive SourceChange where
  | added
  | changed
  | equal
  | removed
  | unknown
  deriving DecidableEq

inductive TargetChange where
  | becameMissing
  | changed
  | equal
  | newlyResolved
  | notComparable
  deriving DecidableEq

inductive Impact where
  | dependencyAndSubjectCochanged
  | dependencyChangedSubjectUnchanged
  | newObservation
  | none
  | notApplicable
  | observationCorrelationAmbiguous
  | referenceResolved
  | removedObservation
  | subjectChanged
  deriving DecidableEq

/-- One comparison row: a primary on each present side, alternatives only for
    ambiguity, and the target derivation for exact and candidate pairs. -/
structure Comparison where
  outcome : Outcome
  reason : Reason
  sourceChange : SourceChange
  base : Option Observation
  candidate : Option Observation
  alternativesBase : List Observation
  alternativesCandidate : List Observation
  targetChange : TargetChange
  impact : Impact
  deriving DecidableEq

/-- The base observations of a row, the primary first. -/
def Comparison.baseMembers (comparison : Comparison) : List Observation :=
  comparison.base.toList ++ comparison.alternativesBase

/-- The candidate observations of a row, the primary first. -/
def Comparison.candidateMembers (comparison : Comparison) : List Observation :=
  comparison.candidate.toList ++ comparison.alternativesCandidate

/-- The content projection of the file a reference located, whether its
    meaning was then evaluated or not. -/
def locatedProjection : Resolution RepoPath → Option Digest
  | .resolved target
  | .unsupportedSemantics (.query target)
  | .unsupportedSemantics (.codeFragment target) => target.projectionDigest
  | .unsupportedSemantics (.fragment target) => target.content.projectionDigest
  | .unsupportedSemantics _ | .missing _ | .declaredUntracked _ | .typeMismatch _
  | .unsupportedTarget _ | .unsupportedVersion _ | .invalid _ | .external _ => none

/-- Both references resolved to the page that carries them. -/
def ownPage (base candidate : Observation) : Bool :=
  match base.resolution, candidate.resolution with
  | .resolved (.blob left), .resolved (.blob right) =>
    left.path = base.document && right.path = candidate.document
  | _, _ => false

/-- The base-versus-candidate derivation for exact and candidate pairs, in the
    closed table's order. -/
def derive (base candidate : Observation) (source : SourceChange) : TargetChange × Impact :=
  let equalImpact : Impact := if source = .changed then .subjectChanged else .none
  match locatedProjection base.resolution, locatedProjection candidate.resolution with
  | some left, some right =>
    if left = right then (.equal, equalImpact)
    else if ownPage base candidate then (.changed, equalImpact)
    else if source = .changed then (.changed, .dependencyAndSubjectCochanged)
    else (.changed, .dependencyChangedSubjectUnchanged)
  | _, _ =>
    match base.resolution, candidate.resolution with
    | .resolved _, .resolved _ => (.notComparable, .notApplicable)
    | .missing left, .missing right =>
      if left = right then (.equal, equalImpact) else (.notComparable, .notApplicable)
    | .declaredUntracked left, .declaredUntracked right =>
      if left = right then (.equal, equalImpact) else (.notComparable, .notApplicable)
    | .typeMismatch left, .typeMismatch right =>
      if left = right then (.equal, equalImpact) else (.notComparable, .notApplicable)
    | .missing _, .resolved _ | .typeMismatch _, .resolved _ =>
      (.newlyResolved, .referenceResolved)
    | .resolved _, .missing _ | .resolved _, .typeMismatch _ => (.becameMissing, .notApplicable)
    | _, _ => (.notComparable, .notApplicable)

end Amiss
