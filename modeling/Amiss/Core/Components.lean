import Amiss.Base.Forest
import Amiss.Base.Sorted
import Amiss.Core.Observation

/-!
# Correlation Components

Grouping the observations that exact identity left unmatched. Observations
are plausible counterparts when adapter, construct and correlation intent
agree and they share a document, or when a rename pairs their documents and
their projections agree. Counterparts are never chosen among several, so what
is computed is the components of that relation.

The code never lists the pairs. It groups each side by correlation key, by
document and by projection, and links every two matching groups by a spanning
tree of their complete bipartite edges, into a forest over the positions of
the sorted identities.

`sha256` is the hash the sources take from outside. Queries and fragments
enter a correlation intent only as digests under their own domains.

## Main definitions

* `CorrelationIntent`, `CorrelationKey`: What counterparts must agree on.
* `observationGroups`: One side grouped by key, document and projection.
* `uniquePathPairs`: Unique equal identities among removed and added paths.
* `ObservationPool`: A side indexed by observation identity.
* `ComponentForest`: The forest over the sorted identities.
* `connectCandidates`: Linking the groups of the two sides.
* `correlationComponents`: The components, as identities by root.
-/

namespace Amiss

/-- The correlation projection of an intent. Repository intents of every
    spelling fall together; the others keep their raw digest. -/
inductive CorrelationIntent where
  | repository (commitOid : Option Oid) (path : Option RepoPath) (targetKind : TargetKind)
      (query fragment : Option Digest)
  | external (raw : Digest) (scheme : String) (query fragment : Option Digest)
  | other (kind : IntentKind) (raw : Digest) (query fragment : Option Digest)
  deriving DecidableEq

/-- The derived field order of a correlation intent: constructors in their
    order, an absent value before every present one. -/
def CorrelationIntent.fields : CorrelationIntent →
    (WithBot Oid ×ₗ WithBot RepoPath ×ₗ TargetKind ×ₗ WithBot Digest ×ₗ WithBot Digest) ⊕ₗ
      ((Digest ×ₗ String ×ₗ WithBot Digest ×ₗ WithBot Digest) ⊕ₗ
        (IntentKind ×ₗ Digest ×ₗ WithBot Digest ×ₗ WithBot Digest))
  | .repository commitOid path targetKind query fragment =>
    Sum.inlₗ (toLex (commitOid, toLex (path, toLex (targetKind, toLex (query, fragment)))))
  | .external raw scheme query fragment =>
    Sum.inrₗ (Sum.inlₗ (toLex (raw, toLex (scheme, toLex (query, fragment)))))
  | .other kind raw query fragment =>
    Sum.inrₗ (Sum.inrₗ (toLex (kind, toLex (raw, toLex (query, fragment)))))

theorem CorrelationIntent.fields_injective : Function.Injective CorrelationIntent.fields := by
  intro a b h
  cases a <;> cases b <;> cases h <;> rfl

instance : LinearOrder CorrelationIntent :=
  orderBy CorrelationIntent.fields CorrelationIntent.fields_injective

def linkQueryDomain : String := "amiss/scanner-link-query"

def linkFragmentDomain : String := "amiss/scanner-link-fragment"

variable (sha256 : Bytes → Digest)

/-- The digest of an optional text under a domain. -/
def textDigest (domain : String) (text : Option String) :
    Option Digest :=
  text.map (fun text => domainDigest sha256 domain (utf8 text))

def correlationIntent (observation : Observation) :
    CorrelationIntent :=
  let intent := observation.intent
  let query := textDigest sha256 linkQueryDomain intent.query
  let fragment := textDigest sha256 linkFragmentDomain intent.fragment
  match intent.kind with
  | .repositoryPath | .sameRepositoryGithub | .sameRepositoryGitlab | .sameRepositoryGitea
  | .sameRepositoryBitbucketCloud | .sameRepositoryBitbucketDataCenter =>
    .repository intent.commitOid intent.repositoryPath (intent.targetKind.getD .either)
      query fragment
  | .externalUrl =>
    .external observation.rawDestinationDigest (intent.externalScheme.getD "") query fragment
  | .siteRoute | .label | .unsupported =>
    .other intent.kind observation.rawDestinationDigest query fragment

/-- What two observations must agree on to be plausible counterparts. -/
structure CorrelationKey where
  adapter : Adapter
  construct : SourceConstruct
  intent : CorrelationIntent
  deriving DecidableEq

/-- The derived field order of a correlation key. -/
def CorrelationKey.fields (key : CorrelationKey) :
    Adapter ×ₗ SourceConstruct ×ₗ CorrelationIntent :=
  toLex (key.adapter, toLex (key.construct, key.intent))

theorem CorrelationKey.fields_injective : Function.Injective CorrelationKey.fields := by
  intro a b h
  cases a
  cases b
  cases h
  rfl

instance : LinearOrder CorrelationKey :=
  orderBy CorrelationKey.fields CorrelationKey.fields_injective

def correlationKey (observation : Observation) : CorrelationKey :=
  ⟨observation.adapter, observation.construct, correlationIntent sha256 observation⟩

/-- The observations of one document, also by projection. -/
structure DocumentGroup where
  observations : List Observation
  projections : BTreeMap Digest (List Observation)

def DocumentGroup.empty : DocumentGroup := ⟨[], ∅⟩

def DocumentGroup.push (group : DocumentGroup) (observation : Observation) : DocumentGroup :=
  { observations := group.observations ++ [observation]
    projections := upsert group.projections observation.projectionDigest
      (fun members => members.getD [] ++ [observation]) }

/-- One side by correlation key and document. -/
abbrev ObservationGroups := BTreeMap CorrelationKey (BTreeMap RepoPath DocumentGroup)

def ObservationGroups.push (sha256 : Bytes → Digest) (groups : ObservationGroups)
    (observation : Observation) : ObservationGroups :=
  upsert groups (correlationKey sha256 observation) (fun documents =>
    upsert (documents.getD ∅) observation.document (fun group =>
      (group.getD .empty).push observation))

def observationGroups
    (observations : List (Except ScanError Observation)) : Except ScanError ObservationGroups :=
  observations.foldlM (fun groups observation => do
    let observation ← observation
    return ObservationGroups.push sha256 groups observation) ∅

section Renames

variable {I : Type} [LinearOrder I]

/-- The one path under each identity, `none` where an identity repeats. -/
def pathByIdentity (paths : List (RepoPath × I)) : BTreeMap I (Option RepoPath) :=
  paths.foldl (fun unique (path, identity) => upsert unique identity (fun entry =>
    match entry with
    | none => some path
    | some _ => none)) ∅

/-- Unique equal identities among removed and added paths. Duplicate identity
    on either side creates no edge and is never tie-broken. -/
def uniquePathPairs (base candidate : BTreeMap RepoPath I) : BTreeMap RepoPath RepoPath :=
  let removed := base.toList.filter (fun entry => entry.1 ∉ candidate)
  let added := candidate.toList.filter (fun entry => entry.1 ∉ base)
  let removedByIdentity := pathByIdentity removed
  let addedByIdentity := pathByIdentity added
  removedByIdentity.toList.foldl (fun pairs (identity, path) =>
    match path, addedByIdentity[identity]? with
    | some path, some (some target) => pairs.insert path target
    | _, _ => pairs) ∅

end Renames

/-- A side indexed by observation identity. -/
structure ObservationPool where
  observations : List Observation
  positions : BTreeMap Digest Nat

/-- A duplicated identity within one side is an internal defect. -/
def ObservationPool.new (observations : List Observation) : Except ScanError ObservationPool := do
  let positions ← okOrInternal (observations.zipIdx.foldlM
    (fun positions (observation, position) => insertNew positions observation.id position) ∅)
  return ⟨observations, positions⟩

def ObservationPool.observation (pool : ObservationPool) (id : Digest) :
    Except ScanError Observation := do
  let position ← okOrInternal pool.positions[id]?
  let observation ← okOrInternal pool.observations[position]?
  if observation.id ≠ id then throw .internal
  return observation

/-- The largest value of a machine word. -/
def usizeMax : Nat := 2 ^ 64 - 1

/-- The observations in the order of `ids`, which must name each once. -/
def ObservationPool.intoOrder (pool : ObservationPool) (ids : List Digest) :
    Except ScanError (List Observation) := do
  if ids.length ≠ pool.observations.length then throw .internal
  let targets ← okOrInternal (ids.zipIdx.foldlM
    (fun (targets : BTreeMap Digest Nat) (id, target) => insertNew targets id target) ∅)
  if pool.observations.any (fun observation => observation.id ∉ targets) then throw .internal
  return sortBy (fun observation => targets[observation.id]?.getD usizeMax) pool.observations

/-- Base and candidate identities by component root. -/
abbrev ComponentIds := BTreeMap Nat (List Digest × List Digest)

/-- The forest over the positions of the sorted identities. -/
structure ComponentForest where
  identities : List Digest
  parents : List Nat

variable (forest : ComponentForest)

/-- The root of an identity's component, halving the path to it. -/
def ComponentForest.rootPosition (identity : Digest) :
    Except ScanError (Nat × ComponentForest) := do
  let position ← okOrInternal (binarySearch forest.identities identity)
  let (root, parents) ← okOrInternal
    (Forest.findRoot (forest.parents.length + 1) forest.parents position)
  return (root, { forest with parents := parents })

def ComponentForest.union (left right : Digest) :
    Except ScanError ComponentForest := do
  let (leftRoot, forest) ← forest.rootPosition left
  let (rightRoot, forest) ← forest.rootPosition right
  let parents ← okOrInternal (Forest.link forest.parents leftRoot rightRoot)
  return { forest with parents := parents }

/-- Connect one complete bipartite edge set with a linear spanning tree. -/
def connect (left right : List Observation) :
    Except ScanError ComponentForest :=
  match left, right with
  | leftPrimary :: _, rightPrimary :: rightRest => do
    let forest ← left.foldlM
      (fun forest observation => forest.union observation.id rightPrimary.id) forest
    rightRest.foldlM
      (fun forest observation => forest.union leftPrimary.id observation.id) forest
  | _, _ => return forest

/-- Connect the groups of a renamed document that share a projection. -/
def connectProjections (baseGroup candidateGroup : DocumentGroup) (forest : ComponentForest) :
    Except ScanError ComponentForest :=
  baseGroup.projections.toList.foldlM (fun forest (projection, baseIds) =>
    match candidateGroup.projections[projection]? with
    | some candidateIds => connect forest baseIds candidateIds
    | none => return forest) forest

/-- Connect one base document with the same document of the candidate side. -/
def connectSameDocument (candidateDocuments : BTreeMap RepoPath DocumentGroup)
    (baseDocument : RepoPath) (baseGroup : DocumentGroup) (forest : ComponentForest) :
    Except ScanError ComponentForest :=
  match candidateDocuments[baseDocument]? with
  | some candidateGroup => connect forest baseGroup.observations candidateGroup.observations
  | none => return forest

/-- Connect one base document with the document it was renamed to. -/
def connectRenamed (renames : BTreeMap RepoPath RepoPath)
    (candidateDocuments : BTreeMap RepoPath DocumentGroup) (baseDocument : RepoPath)
    (baseGroup : DocumentGroup) (forest : ComponentForest) : Except ScanError ComponentForest :=
  match renames[baseDocument]? with
  | none => return forest
  | some candidateDocument =>
    match candidateDocuments[candidateDocument]? with
    | none => return forest
    | some candidateGroup => connectProjections baseGroup candidateGroup forest

def connectDocument (renames : BTreeMap RepoPath RepoPath)
    (candidateDocuments : BTreeMap RepoPath DocumentGroup) (forest : ComponentForest)
    (baseDocument : RepoPath) (baseGroup : DocumentGroup) : Except ScanError ComponentForest := do
  let forest ← connectSameDocument candidateDocuments baseDocument baseGroup forest
  connectRenamed renames candidateDocuments baseDocument baseGroup forest

def connectCandidates (baseGroups candidateGroups : ObservationGroups)
    (renames : BTreeMap RepoPath RepoPath) : Except ScanError ComponentForest :=
  baseGroups.toList.foldlM (fun forest (key, baseDocuments) =>
    match candidateGroups[key]? with
    | none => return forest
    | some candidateDocuments =>
      baseDocuments.toList.foldlM (fun forest (baseDocument, baseGroup) =>
        connectDocument renames candidateDocuments forest baseDocument baseGroup) forest) forest

/-- File each identity under its root, on the side `add` names. -/
def fileUnderRoots (add : List Digest × List Digest → Digest → List Digest × List Digest)
    (ids : List Digest) (forest : ComponentForest) (grouped : ComponentIds) :
    Except ScanError (ComponentForest × ComponentIds) :=
  ids.foldlM (fun (forest, grouped) id => do
    let (root, forest) ← forest.rootPosition id
    return (forest, upsert grouped root (fun entry => add (entry.getD ([], [])) id)))
    (forest, grouped)

def addBase (entry : List Digest × List Digest) (id : Digest) : List Digest × List Digest :=
  (entry.1 ++ [id], entry.2)

def addCandidate (entry : List Digest × List Digest) (id : Digest) : List Digest × List Digest :=
  (entry.1, entry.2 ++ [id])

/-- The components of what exact identity left unmatched. -/
def correlationComponents (base candidate : ObservationPool)
    (exactIds : List Digest) (renames : BTreeMap RepoPath RepoPath) :
    Except ScanError ComponentIds := do
  let unmatched := fun id => (binarySearch exactIds id).isNone
  let baseIds := base.positions.keys.filter unmatched
  let candidateIds := candidate.positions.keys.filter unmatched
  let identities := sortBy id (baseIds ++ candidateIds)
  let forest : ComponentForest := ⟨identities, List.range identities.length⟩
  let baseGroups ← observationGroups sha256 (baseIds.map base.observation)
  let candidateGroups ← observationGroups sha256 (candidateIds.map candidate.observation)
  let forest ← connectCandidates forest baseGroups candidateGroups renames
  let (forest, grouped) ← fileUnderRoots addBase baseIds forest ∅
  let (_, grouped) ← fileUnderRoots addCandidate candidateIds forest grouped
  return grouped

end Amiss
