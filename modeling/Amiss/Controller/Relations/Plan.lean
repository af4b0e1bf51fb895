import Amiss.Controller.Orchestration
import Amiss.Core.Finding

/-!
# Relations and Their Scheduling

A relation binds two repository subjects under one operator plan. A
transition freezes one base and candidate pair for each subject under a
coordination identity the operator chose; `relationTransition` is the check
every later function repeats, and it sorts the subjects by role on the way.

`scheduleRelation` is the scheduling law as a pure function of one optional
pending value and one transition. The durable store keeps more than that one
value, and how the two agree is a theorem about the store.

## Main definitions

* `RegisteredRelation`, `RegisteredRelation.validate`: An operator plan and
  its checks.
* `relationTransition`: Freezing two subject pairs against a plan.
* `scheduleRelation`: Admission of a transition after an optional pending one.
-/

namespace Amiss

/-- The largest integer a JSON number holds exactly. -/
def maxSafeInt : Nat := 9007199254740991

/-- A visible ASCII byte other than the blank. -/
def asciiGraphic (byte : UInt8) : Bool := 33 ≤ byte && byte ≤ 126

/-- A character of the Unicode category of controls. -/
def isControl (c : Char) : Bool := c.toNat < 32 || (127 ≤ c.toNat && c.toNat ≤ 159)

/-- Line numbers and depths: between one and the largest safe integer. -/
def safeLineValid (line : Nat) : Bool := 1 ≤ line && line ≤ maxSafeInt

def sourceMarkerValid (marker : String) : Bool :=
  !(utf8 marker).isEmpty && decide ((utf8 marker).length ≤ 256) &&
    (utf8 marker).any asciiGraphic &&
      (utf8 marker).all (fun byte => asciiGraphic byte || byte == 32)

def recordKeyValid (key : String) : Bool :=
  !(utf8 key).isEmpty && decide ((utf8 key).length ≤ 4096) && !key.toList.any isControl

def projectionSourceCompatible (projection : ProjectionKind) : ProjectionSource → Bool
  | .blobLines .. | .namedRegion .. | .recordValue .. | .blob .. | .keyValue .. =>
    projection == .codeTextV1 || projection == .containsV1
  | .treePaths .. | .recordSet .. =>
    projection == .sortedRowsV1 || projection == .decimalCountV1

/-- The checks on a selector under its projection. -/
def checkProjectionSource (projection : ProjectionKind) (source : ProjectionSource) : Bool :=
  (match source with
    | .blobLines _ firstLine lastLine =>
      safeLineValid firstLine && safeLineValid lastLine && decide (firstLine ≤ lastLine)
    | .namedRegion _ startMarker endMarker =>
      sourceMarkerValid startMarker && sourceMarkerValid endMarker && startMarker != endMarker
    | .treePaths _ suffix maximumDepth =>
      safeLineValid maximumDepth && suffix.all exactSuffixValid
    | .recordValue _ key => recordKeyValid key
    | .keyValue _ _ key =>
      !key.isEmpty && decide (key.length ≤ 16) && key.all (fun segment =>
        !(utf8 segment).isEmpty && decide ((utf8 segment).length ≤ 256) &&
          !segment.toList.any isControl)
    | .recordSet _ | .blob _ => true) &&
    projectionSourceCompatible projection source

/-- The resource ceilings of one subject, or of both together. -/
structure RelationLimits where
  acquisitionObjects : Nat
  acquisitionBytes : Nat
  projectionRecords : Nat
  projectionBytes : Nat
  deriving DecidableEq

/-- One repository a relation is about. -/
structure RegisteredSubject where
  role : ArtifactId
  scope : PlanScope
  target : String
  objectFormat : ObjectFormat
  credential : OpaqueId
  source : ProjectionSource
  limits : RelationLimits
  deriving DecidableEq

/-- Where a relation's result is published for one subject. -/
structure RelationStatusDestination where
  subjectRole : ArtifactId
  requiredStatusName : String
  deriving DecidableEq

/-- The two members of a pair, in order. -/
def both {α : Type} (pair : α × α) : List α := [pair.1, pair.2]

/-- The pair, ordered by a key. -/
def sortPair {α K : Type} [LinearOrder K] (key : α → K) (pair : α × α) : α × α :=
  if key pair.2 < key pair.1 then (pair.2, pair.1) else pair

/-- One operator plan. -/
structure RegisteredRelation where
  identity : ArtifactId
  contextDigest : Digest
  projection : ProjectionKind
  subjects : RegisteredSubject × RegisteredSubject
  aggregateLimits : RelationLimits
  statusDestinations : List RelationStatusDestination
  deriving DecidableEq

/-- A plan as one of its subjects triggered it. -/
structure TriggeredRelation where
  plan : RegisteredRelation
  triggerRole : ArtifactId
  deriving DecidableEq

inductive RelationRegistryError where
  | tooManyRelations
  | duplicateRelation
  | duplicateDestination
  | reboundCredential
  | invalidSubjects
  | invalidLimits
  | invalidProjection
  | invalidDestination
  deriving DecidableEq

/-- One aggregate ceiling against the two it bounds. -/
def limitValid (aggregate left right : Nat) : Bool :=
  left != 0 && right != 0 && decide (left + right < 2 ^ 64) &&
    decide (max left right ≤ aggregate) && decide (aggregate ≤ left + right)

variable (plan : RegisteredRelation)

def relationLimitsValid : Bool :=
  let aggregate := plan.aggregateLimits
  let left := plan.subjects.1.limits
  let right := plan.subjects.2.limits
  limitValid aggregate.acquisitionObjects left.acquisitionObjects right.acquisitionObjects &&
    limitValid aggregate.acquisitionBytes left.acquisitionBytes right.acquisitionBytes &&
    limitValid aggregate.projectionRecords left.projectionRecords right.projectionRecords &&
    limitValid aggregate.projectionBytes left.projectionBytes right.projectionBytes

/-- No two neighbours of the list are related. -/
def noNeighbours {α : Type} (related : α → α → Bool) : List α → Bool
  | left :: right :: rest => !related left right && noNeighbours related (right :: rest)
  | _ => true

/-- The checks on a plan, in the order in which they refuse. -/
def RegisteredRelation.validate : Except RelationRegistryError Unit :=
  let (left, right) := plan.subjects
  if left.role = right.role ∨ left.scope.repository = right.scope.repository then
    .error .invalidSubjects
  else if !relationLimitsValid plan then .error .invalidLimits
  else if (both plan.subjects).any
      (fun subject => !checkProjectionSource plan.projection subject.source) then
    .error .invalidProjection
  else if !(decide (1 ≤ plan.statusDestinations.length) &&
        decide (plan.statusDestinations.length ≤ 2)) ||
      !noNeighbours (fun left right => left.subjectRole == right.subjectRole)
        plan.statusDestinations ||
      plan.statusDestinations.any (fun destination =>
        !(both plan.subjects).any (fun subject => subject.role == destination.subjectRole)) then
    .error .invalidDestination
  else .ok ()

/-- The frozen revisions of one subject. -/
structure RelationSubjectTransition where
  role : ArtifactId
  commits : OidPair
  trees : OidPair
  deriving DecidableEq

/-- Two frozen subjects under one coordination identity. -/
structure RelationTransition where
  relation : TriggeredRelation
  coordination : ArtifactId
  subjects : RelationSubjectTransition × RelationSubjectTransition
  deriving DecidableEq

/-- The plan is valid and the trigger is one of its subjects. -/
def TriggeredRelation.isValid (relation : TriggeredRelation) : Bool :=
  relation.plan.validate.isOk &&
    (both relation.plan.subjects).any (fun subject => subject.role == relation.triggerRole)

/-- One frozen subject has the role and the object format of a registered one. -/
def RelationSubjectTransition.fits (transition : RelationSubjectTransition) : Bool :=
  ((both plan.subjects).find? (fun subject => subject.role == transition.role)).any
    (fun subject =>
      [transition.commits.base, transition.commits.candidate, transition.trees.base,
        transition.trees.candidate].all (fun oid => oid.objectFormat == subject.objectFormat))

/-- Freezes two revision pairs against a plan. The only refusal the source
    makes here is an invalid transition. -/
def relationTransition (relation : TriggeredRelation) (coordination : ArtifactId)
    (subjects : RelationSubjectTransition × RelationSubjectTransition) :
    Option RelationTransition :=
  let subjects := sortPair (·.role) subjects
  if relation.isValid && (subjects.1.role != subjects.2.role &&
      (both subjects).all (fun transition => transition.fits relation.plan)) then
    some ⟨relation, coordination, subjects⟩
  else none

/-- The check on a transition that is already put together. -/
def RelationTransition.checked (transition : RelationTransition) : Option RelationTransition :=
  relationTransition transition.relation transition.coordination transition.subjects

/-- Work that was admitted, under its fence. -/
structure PendingRelation where
  transition : RelationTransition
  fence : LeaseFence
  deriving DecidableEq

inductive RelationAdmission where
  | scheduled (pending : PendingRelation)
  | duplicate (pending : PendingRelation)
  deriving DecidableEq

inductive RelationScheduleError where
  | invalidTransition
  | bindingConflict
  | coordinationConflict
  | generationExhausted
  deriving DecidableEq

/-- Admits a transition after an optional pending one. -/
def scheduleRelation (previous : Option PendingRelation) (transition : RelationTransition) :
    Except RelationScheduleError RelationAdmission :=
  match transition.checked with
  | none => .error .invalidTransition
  | some transition =>
    match previous with
    | none =>
      match LeaseFence.new 1 with
      | none => .error .generationExhausted
      | some fence => .ok (.scheduled ⟨transition, fence⟩)
    | some previous =>
      match previous.transition.checked with
      | none => .error .invalidTransition
      | some checkedPrevious =>
        if checkedPrevious.relation.plan ≠ transition.relation.plan then .error .bindingConflict
        else if checkedPrevious.coordination = transition.coordination then
          if checkedPrevious.subjects = transition.subjects then .ok (.duplicate previous)
          else .error .coordinationConflict
        else
          match (checkedSucc previous.fence.raw).bind LeaseFence.new with
          | none => .error .generationExhausted
          | some fence => .ok (.scheduled ⟨transition, fence⟩)

/-- What `relationTransition` returns is the sorted transition, and it was
    valid. -/
theorem relationTransition_eq_some {relation : TriggeredRelation} {coordination : ArtifactId}
    {subjects : RelationSubjectTransition × RelationSubjectTransition}
    {transition : RelationTransition} :
    relationTransition relation coordination subjects = some transition ↔ relation.isValid = true ∧
      (sortPair (·.role) subjects).1.role ≠ (sortPair (·.role) subjects).2.role ∧
      (∀ subject ∈ both (sortPair (·.role) subjects), subject.fits relation.plan = true) ∧
      transition = ⟨relation, coordination, sortPair (·.role) subjects⟩ := by
  unfold relationTransition
  simp [and_assoc, eq_comm (b := transition)]

theorem sortPair_sorted {α K : Type} [LinearOrder K] {key : α → K} {pair : α × α} :
    sortPair key (sortPair key pair) = sortPair key pair := by
  unfold sortPair
  by_cases h : key pair.2 < key pair.1
  · rw [if_pos h, if_neg (not_lt_of_gt h)]
  · rw [if_neg h, if_neg h]

end Amiss
