import Amiss.Core.Components

/-!
# Correlation

Pairing the observations of two sides: exact by equal identity, then the
components of the plausible counterparts among the rest, one row each.

Two sides that list the same identities in the same order take a short path
that zips them. It never indexes the identities, so a repetition is found
afterwards, between neighbours of the sorted rows. The long path indexes both
sides first and refuses repetitions there.

The rows are sorted by candidate and then base identity. Rows can tie under
that key only when an identity repeats, and then no row is returned, so which
of two equal rows the unstable sort of the sources puts first is never seen.

## Main definitions

* `exactComparison`, `componentComparison`, `isolated`: The three row shapes.
* `componentRow`: The row of one component.
* `correlateUnaligned`: The path through the pool and the components.
* `correlate`: Both paths.
-/

namespace Amiss

def exactComparison (left right : Observation) : Comparison :=
  let (targetChange, impact) := derive left right .equal
  { outcome := .exact
    reason := .sameExtractionKeyAndProjection
    sourceChange := .equal
    base := some left
    candidate := some right
    alternativesBase := []
    alternativesCandidate := []
    targetChange := targetChange
    impact := impact }

/-- Why a component of one base and one candidate member is a pair, and
    whether the source around the reference changed. -/
def pairReason (left right : Observation) (renames : BTreeMap RepoPath RepoPath) :
    Reason × SourceChange :=
  let acrossRename :=
    left.document ≠ right.document && renames[left.document]? = some right.document
  if acrossRename then (.exactDocumentRenameUnchangedProjection, .equal)
  else if left.projectionDigest = right.projectionDigest then
    (.sameIntentUnchangedProjection, .equal)
  else (.sameIntentSourceChanged, .changed)

def componentComparison (baseMembers candidateMembers : List Observation)
    (renames : BTreeMap RepoPath RepoPath) : Comparison :=
  match baseMembers, candidateMembers with
  | [left], [right] =>
    let (reason, sourceChange) := pairReason left right renames
    let (targetChange, impact) := derive left right sourceChange
    { outcome := .candidate
      reason := reason
      sourceChange := sourceChange
      base := some left
      candidate := some right
      alternativesBase := []
      alternativesCandidate := []
      targetChange := targetChange
      impact := impact }
  | _, _ =>
    { outcome := .ambiguous
      reason := .multipleCounterparts
      sourceChange := .unknown
      base := baseMembers.head?
      candidate := candidateMembers.head?
      alternativesBase := baseMembers.tail
      alternativesCandidate := candidateMembers.tail
      targetChange := .notComparable
      impact := .observationCorrelationAmbiguous }

def isolated (observation : Observation) (isBase : Bool) : Comparison :=
  { outcome := .none
    reason := if isBase then .removedObservation else .newObservation
    sourceChange := if isBase then .removed else .added
    base := if isBase then some observation else none
    candidate := if isBase then none else some observation
    alternativesBase := []
    alternativesCandidate := []
    targetChange := .notComparable
    impact := if isBase then .removedObservation else .newObservation }

/-- The row of one component. -/
def componentRow (renames : BTreeMap RepoPath RepoPath)
    (baseMembers candidateMembers : List Observation) : Except ScanError Comparison :=
  match baseMembers.length, candidateMembers.length with
  | 1, 0 => do
    let observation ← okOrInternal baseMembers.head?
    return isolated observation true
  | 0, 1 => do
    let observation ← okOrInternal candidateMembers.head?
    return isolated observation false
  | _, _ => return componentComparison baseMembers candidateMembers renames

/-- Take the next observation of each side for each exact identity. -/
def takeExact : Nat → List Observation → List Observation →
    Except ScanError (List Comparison × List Observation × List Observation)
  | 0, base, candidate => .ok ([], base, candidate)
  | count + 1, left :: base, right :: candidate => do
    if left.id ≠ right.id then throw .internal
    let (comparisons, base, candidate) ← takeExact count base candidate
    return (exactComparison left right :: comparisons, base, candidate)
  | _ + 1, _, _ => .error .internal

/-- Take the next observations of each side for each component. -/
def takeComponents (renames : BTreeMap RepoPath RepoPath) : List (Nat × Nat) →
    List Observation → List Observation →
    Except ScanError (List Comparison × List Observation × List Observation)
  | [], base, candidate => .ok ([], base, candidate)
  | (baseCount, candidateCount) :: components, base, candidate => do
    let baseMembers := base.take baseCount
    let candidateMembers := candidate.take candidateCount
    if baseMembers.length ≠ baseCount ∨ candidateMembers.length ≠ candidateCount then
      throw .internal
    let comparison ← componentRow renames baseMembers candidateMembers
    let (comparisons, base, candidate) ←
      takeComponents renames components (base.drop baseCount) (candidate.drop candidateCount)
    return (comparison :: comparisons, base, candidate)

def correlateUnaligned (sha256 : Bytes → Digest) (base candidate : Side) :
    Except ScanError (List Comparison) := do
  let basePool ← ObservationPool.new base.observations
  let candidatePool ← ObservationPool.new candidate.observations
  let renames := uniquePathPairs base.documents candidate.documents
  let exactIds := basePool.positions.keys.filter (fun id => id ∈ candidatePool.positions)
  let grouped ← correlationComponents sha256 basePool candidatePool exactIds renames
  let components := grouped.toList.map (fun entry => (entry.2.1.length, entry.2.2.length))
  let baseOrder := exactIds ++ grouped.toList.flatMap (fun entry => entry.2.1)
  let candidateOrder := exactIds ++ grouped.toList.flatMap (fun entry => entry.2.2)
  let baseRest ← basePool.intoOrder baseOrder
  let candidateRest ← candidatePool.intoOrder candidateOrder
  let (exactRows, baseRest, candidateRest) ← takeExact exactIds.length baseRest candidateRest
  let (componentRows, baseRest, candidateRest) ←
    takeComponents renames components baseRest candidateRest
  if baseRest ≠ [] ∨ candidateRest ≠ [] then throw .internal
  return exactRows ++ componentRows

/-- The order of the rows: candidate identity, then base identity, an absent
    one first. -/
def Comparison.sortKey (comparison : Comparison) : WithBot Digest ×ₗ WithBot Digest :=
  toLex (comparison.candidate.map Observation.id, comparison.base.map Observation.id)

/-- Neighbouring rows of the short path must name different identities. -/
def checkNeighbours (previous : Option Digest) : List Comparison → Except ScanError Unit
  | [] => .ok ()
  | comparison :: comparisons => do
    let base ← okOrInternal comparison.base
    if previous = some base.id then throw .internal
    checkNeighbours (some base.id) comparisons

/-- The two sides list the same identities in the same order. -/
def aligned (base candidate : Side) : Bool :=
  base.observations.length = candidate.observations.length &&
    (base.observations.zip candidate.observations).all (fun pair => pair.1.id = pair.2.id)

/-- Correlate the two sides into comparison rows. -/
def correlate (sha256 : Bytes → Digest) (base candidate : Side) :
    Except ScanError (List Comparison) := do
  let comparisons ←
    if aligned base candidate then
      pure (List.zipWith exactComparison base.observations candidate.observations)
    else correlateUnaligned sha256 base candidate
  let comparisons := sortBy Comparison.sortKey comparisons
  if aligned base candidate then checkNeighbours none comparisons
  return comparisons

end Amiss
