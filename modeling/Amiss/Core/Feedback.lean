import Amiss.Core.Evaluate

/-!
# Feedback and the Result of a Run

The projection of the findings a reviewer acts on, and how a run ends.

Findings remain the audit unit. The projection groups those above record by what
to do and about which path, and the result of a run looks at the findings
themselves. A run with errors of its own is incomplete and has no feedback.

## Main definitions

* `classify`: What a finding asks for, and about which path.
* `project`: The feedback of a list of findings.
* `runResult`: Completeness, status and exit code.
* `construct`: The report of a run, as far as its result and its feedback go.
-/

namespace Amiss

/-- The evidence classes of the taxonomy. -/
inductive EvidenceClass where
  | analysisIntegrity
  | controlPlane
  | coverageBoundary
  | deterministicStructural
  | impactObservation
  | unsupported
  deriving DecidableEq

def FindingKind.evidenceClass : FindingKind → EvidenceClass
  | .explicitTargetMissing | .explicitTargetTypeMismatch | .invalidReference | .siteBuildDefect
  | .claimBroken | .claimTargetMissing | .projectionDrift => .deterministicStructural
  | .targetDeclaredUntracked | .explicitReferenceRemoved | .documentRemoved | .opaqueMdxRegion
  | .opaqueHtmlRegion | .observationCorrelationAmbiguous | .unlinkedDocument =>
    .coverageBoundary
  | .unsupportedReferenceSemantics | .unsupportedDocumentFormat | .unsupportedTargetKind
  | .unsupportedVersionScope | .unsupportedCapability => .unsupported
  | .dependencyChangedSubjectUnchanged | .dependencyAndSubjectCochanged | .subjectChanged
  | .translationDrift => .impactObservation
  | .policyWeakened | .coverageReduced | .controlPlaneChanged | .debtWorsened | .debtExpired
  | .waiverInvalid => .controlPlane

inductive FeedbackAction where
  | fix
  | check
  | existing
  deriving DecidableEq

instance : LinearOrder FeedbackAction :=
  orderBy FeedbackAction.ctorIdx (Function.LeftInverse.injective FeedbackAction.ofNat_ctorIdx)

/-- What an item is about. -/
inductive Subject where
  | repositoryPath (path : RepoPath)
  | untargeted
  deriving DecidableEq

/-- The path of a subject. -/
def Subject.path : Subject → Option RepoPath
  | .repositoryPath path => some path
  | .untargeted => none

/-- Paths come in their order, before the subject without one. -/
def Subject.rank : Subject → WithTop RepoPath
  | .repositoryPath path => path
  | .untargeted => ⊤

theorem Subject.rank_injective : Function.Injective Subject.rank := by
  intro left right h
  cases left <;> cases right
  · exact congrArg _ (WithTop.coe_injective h)
  · exact absurd h WithTop.coe_ne_top
  · exact absurd h.symm WithTop.coe_ne_top
  · rfl

instance : LinearOrder Subject := orderBy Subject.rank Subject.rank_injective

/-- The subject of an optional path. -/
def Subject.of : Option RepoPath → Subject
  | some path => .repositoryPath path
  | none => .untargeted

/-- The place an item is shown at. -/
structure AnnotationItem where
  path : String
  span : Nat × Nat
  display : SpanDisplay
  tie : Digest
  deriving DecidableEq

/-- What annotations are compared by; the display is not part of it. -/
def AnnotationItem.key (annotated : AnnotationItem) : String ×ₗ (Nat ×ₗ Nat) ×ₗ Digest :=
  toLex (annotated.path, toLex (spanOrder annotated.span, annotated.tie))

structure FeedbackItem where
  action : FeedbackAction
  target : Option RepoPath
  findingKinds : List FindingKind
  locationCount : Nat
  effectiveDisposition : Disposition
  annotated : Option AnnotationItem
  deriving DecidableEq

structure Feedback where
  items : List FeedbackItem
  existingCount : Nat
  deriving DecidableEq

/-- A candidate occurrence, and whether its row asks for a check. -/
structure Candidate where
  observation : Observation
  check : Bool

structure FeedbackGroup where
  target : Option RepoPath
  findingKinds : BTreeSet FindingKind
  locationCount : Nat
  effectiveDisposition : Disposition
  annotated : Option AnnotationItem

inductive Decision where
  | item (action : FeedbackAction) (subject : Subject) (target : Option RepoPath)
  | ignore

variable (candidates : BTreeMap Digest Candidate)

/-- The candidates of one row, over those of the rows before it. -/
def indexComparison (comparison : Comparison) :
    BTreeMap Digest Candidate :=
  let primary := match comparison.candidate with
    | none => candidates
    | some observation => candidates.insert observation.id
        ⟨observation, comparison.impact = .dependencyChangedSubjectUnchanged⟩
  comparison.alternativesCandidate.foldl
    (fun candidates observation => candidates.insert observation.id ⟨observation, false⟩) primary

def candidateIndex (comparisons : List Comparison) : BTreeMap Digest Candidate :=
  comparisons.foldl indexComparison ∅

/-- The path a finding is about, by its side. -/
def feedbackTarget (finding : Finding) (candidate : Option Candidate) : Option RepoPath :=
  match finding.location.side with
  | .control => finding.location.path
  | .global => none
  | .base | .candidate => candidate.bind (fun item => item.observation.intent.repositoryPath)

/-- The decision an attribution calls for. -/
def attributed (attribution : Attribution) (side : LocationSide) (target : Option RepoPath) :
    Decision :=
  match attribution with
  | .introduced | .unknown => .item .fix (Subject.of target) target
  | .preExisting => .item .existing (Subject.of target) target
  | .resolved => .ignore
  | .notApplicable =>
    match side with
    | .candidate | .control | .global => .item .fix (Subject.of target) target
    | .base => .ignore

/-- A document-scoped impact warning asks someone to look at that document. -/
def FindingKind.isDocumentImpact (kind : FindingKind) : Bool :=
  kind.metadata.scope = .document && kind.evidenceClass = .impactObservation

def classify (finding : Finding) : Decision :=
  if finding.kind.isDocumentImpact then
    .item .check (Subject.of finding.location.path) finding.location.path
  else
    let candidate := finding.observationIds.findSome? (fun id => candidates[id]?)
    let invalid := candidate.any (fun item => item.observation.resolution.isInvalid)
    let target := if invalid then none else feedbackTarget finding candidate
    if candidate.any Candidate.check then .item .check (Subject.of target) target
    else attributed finding.attribution finding.location.side target

/-- The annotation of a finding of the candidate side, where it has a place. -/
def annotationCandidate (finding : Finding) : Option AnnotationItem := do
  if finding.location.side ≠ .candidate then none
  let path ← finding.location.path
  let text ← path.asStr
  let span ← finding.location.span
  let display ← finding.location.display
  pure ⟨text, span, display, finding.findingKey⟩

/-- The better of two annotations; the one already there wins a tie. -/
def AnnotationItem.better (current : Option AnnotationItem) (candidate : Option AnnotationItem) :
    Option AnnotationItem :=
  match candidate, current with
  | none, current => current
  | some candidate, none => some candidate
  | some candidate, some current =>
    if candidate.key < current.key then some candidate else some current

/-- Add a finding to its group, a new one where there is none. -/
def addFinding (action : FeedbackAction) (target : Option RepoPath) (finding : Finding)
    (entry : Option FeedbackGroup) : FeedbackGroup :=
  let group := entry.getD ⟨target, ∅, 0, finding.effectiveDisposition, none⟩
  { target := group.target
    findingKinds := group.findingKinds.insert finding.kind
    locationCount := saturatingAdd group.locationCount finding.memberCount
    effectiveDisposition := max group.effectiveDisposition finding.effectiveDisposition
    annotated :=
      if action = .fix then AnnotationItem.better group.annotated (annotationCandidate finding)
      else group.annotated }

/-- The key of a group. -/
abbrev ItemKey := FeedbackAction ×ₗ Subject

/-- Take one finding into the groups. -/
def projectFinding (groups : BTreeMap ItemKey FeedbackGroup) (finding : Finding) :
    BTreeMap ItemKey FeedbackGroup :=
  if finding.effectiveDisposition = .record then groups
  else
    match classify candidates finding with
    | .item action subject target =>
      upsert groups (toLex (action, subject)) (addFinding action target finding)
    | .ignore => groups

variable (findings : List Finding)

def feedbackGroups (comparisons : List Comparison) :
    BTreeMap ItemKey FeedbackGroup :=
  findings.foldl (projectFinding (candidateIndex comparisons)) ∅

/-- The item of a group. -/
def FeedbackGroup.item (key : ItemKey) (group : FeedbackGroup) : FeedbackItem where
  action := (ofLex key).1
  target := group.target
  findingKinds := group.findingKinds.toList
  locationCount := group.locationCount
  effectiveDisposition := group.effectiveDisposition
  annotated := group.annotated

/-- The projection over the exact finding set. -/
def project (comparisons : List Comparison) : Feedback :=
  let groups := feedbackGroups findings comparisons
  { items := groups.toList.map (fun entry => entry.2.item entry.1)
    existingCount := countU64
      (groups.keys.filter (fun key => (ofLex key).1 = .existing)).length }

/-- The errors a finished evaluation can leave: a governed definition that no
    capability answers, or an overlap of exceptions. -/
inductive LogicalError where
  | exceptionOverlap
  | unsupportedCapability (path : RepoPath)
  deriving DecidableEq

/-- The canonical error key: overlaps come first, then the documents in order. -/
def LogicalError.rank : LogicalError → WithBot RepoPath
  | .exceptionOverlap => ⊥
  | .unsupportedCapability path => path

/-- The deduplicated logical error set in canonical key order. -/
def logicalErrorSet (governed : List GovernedSeed) (exceptions : List AnalysisErrorCode) :
    List LogicalError :=
  let details := governed.map (fun seed => LogicalError.unsupportedCapability seed.document) ++
    exceptions.map (fun _ => LogicalError.exceptionOverlap)
  (sortBy LogicalError.rank details).destutter (· ≠ ·)

inductive ReportStatus where
  | pass
  | fail
  | incomplete
  deriving DecidableEq

structure RunResult where
  complete : Bool
  status : ReportStatus
  exitCode : Nat

/-- A complete run passes or fails by its effective dispositions. -/
def runResult (errors : List LogicalError) : RunResult :=
  if errors ≠ [] then ⟨false, .incomplete, 2⟩
  else if findings.any (fun finding => finding.effectiveDisposition = .fail) then
    ⟨true, .fail, 1⟩
  else ⟨true, .pass, 0⟩

/-- The report's feedback: none where the run is incomplete. An item that counts
    no location, or whose place is no path, is an internal defect. -/
def reportFeedback (complete : Bool) (findings : List Finding) (comparisons : List Comparison) :
    Except ScanError (Option Feedback) :=
  if complete then
    let projected := project findings comparisons
    if projected.items.all (fun item => decide (item.locationCount ≠ 0) &&
        item.annotated.all (fun annotated => (RepoPathText.tryFrom annotated.path).isSome)) then
      .ok (some projected)
    else .error .internal
  else .ok none

/-- The ceilings of a report. -/
structure ReportLimits where
  completeFindings : Nat
  errorsRetained : Nat
  machineJsonBytes : Nat

def errorCeiling (limits : ReportLimits) : Nat := max 1 (min limits.errorsRetained 64)

/-- The end of a run: its status, its exit code and its feedback. -/
structure Built where
  status : ReportStatus
  exitCode : Nat
  feedback : Option Feedback

/-- The report of a run that could not be completed. -/
def constructIncomplete : Built := ⟨.incomplete, 2, none⟩

/-- The report of a run. What is left of the payload is spelled by `spelled`: it
    gives the length of the wire form, or the defect met on the way. -/
def construct (codec : Codec) (limits : ReportLimits)
    (spelled : List Comparison → List Finding → RunResult → Option Feedback → Except ScanError Nat)
    (documents : List DocumentInput) (comparisons : List Comparison) (profile : Profile)
    (policy : Effects) (inputs : GovernedInputs) : Except ScanError Built :=
  match evaluateWithSite codec documents comparisons profile policy inputs with
  | .error _ => .ok constructIncomplete
  | .ok (findings, exceptions) =>
    if limits.completeFindings < countU64 findings.length then .ok constructIncomplete
    else
      let errors := logicalErrorSet inputs.governed exceptions
      if errorCeiling limits < errors.length then .ok constructIncomplete
      else do
        let result := runResult findings errors
        let feedback ← reportFeedback result.complete findings comparisons
        let length ← spelled comparisons findings result feedback
        if limits.machineJsonBytes < length then pure constructIncomplete
        else pure ⟨result.status, result.exitCode, feedback⟩

end Amiss
