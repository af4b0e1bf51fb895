import Amiss.Core.Evaluate

/-!
# Repository Policy

The policy a repository keeps about itself, and what a run takes from the two
policies it compares. Includes admit paths: one document, a tree, or the paths
below a root that end in a suffix. A path may be bound to an adapter, by the
exact document first and then by the nearest tree. The comparison reports what
the candidate's policy gives up against the base's.

A `ScannerPolicy` carries the parts of its grammar that the comparison relies
on: includes strictly sorted by path and kind, and suffixes only on trees. A
branch alias is kept as its full text.

## Main definitions

* `ScannerPolicy`: A validated policy.
* `Includes`: The admitted paths and their bindings.
* `Includes.union`, `Includes.selects`, `Includes.binding`: Building and asking.
* `effects`: The controls and dispositions of two policies.
-/

namespace Amiss

/-- What an include names. -/
inductive IncludeKind where
  | document
  | tree
  deriving DecidableEq

instance : LinearOrder IncludeKind :=
  orderBy IncludeKind.ctorIdx (Function.LeftInverse.injective IncludeKind.ofNat_ctorIdx)

structure DocumentInclude where
  path : RepoPathText
  kind : IncludeKind
  suffix : Option String
  adapter : Option Adapter
  deriving DecidableEq

/-- The identity of an include. -/
def DocumentInclude.key (row : DocumentInclude) : String ×ₗ IncludeKind :=
  toLex (row.path.text, row.kind)

/-- An include whose suffix, if any, is valid and on a tree. -/
def DocumentInclude.valid (row : DocumentInclude) : Bool :=
  match row.suffix with
  | none => true
  | some suffix => decide (row.kind = .tree) && exactSuffixValid suffix

/-- A repository's policy. -/
structure ScannerPolicy where
  documentIncludes : List DocumentInclude
  projectionAssertions : Option (List ProjectionAssertion)
  protectedInventory : List RepoPathText
  findingDispositions : FindingDispositions
  defaultBranchAliases : Option (List String)
  anchorRenderers : Option (List String)
  includes_valid : ∀ row ∈ documentIncludes, row.valid = true
  includes_sorted : (documentIncludes.map DocumentInclude.key).Pairwise (· < ·)

/-- One side's policy; absence has empty semantics. -/
structure PolicySide where
  digest : Option Digest
  policy : Option ScannerPolicy

def PolicySide.default : PolicySide := ⟨none, none⟩

/-- The includes of a side. -/
def PolicySide.rows (side : PolicySide) : List DocumentInclude :=
  side.policy.elim [] ScannerPolicy.documentIncludes

/-! ### Includes -/

/-- The admitted paths, the bindings and the pinned renderers of a run. -/
structure Includes where
  documents : BTreeSet RepoPath
  trees : BTreeSet RepoPath
  suffixRoots : BTreeMap String (BTreeSet RepoPath)
  documentBindings : BTreeMap RepoPath Adapter
  treeBindings : BTreeMap RepoPath Adapter
  suffixBindings : BTreeMap RepoPath (String × Adapter)
  renderers : Option (BTreeSet String)

namespace Includes

def default : Includes := ⟨∅, ∅, ∅, ∅, ∅, ∅, none⟩

/-- The paths one include admits. -/
def merge (merged : Includes) (row : DocumentInclude) : Includes :=
  match row.suffix, row.kind with
  | some suffix, _ =>
    { merged with
      suffixRoots := upsert merged.suffixRoots suffix
        (fun roots => (roots.getD ∅).insert row.path.path) }
  | none, .document => { merged with documents := merged.documents.insert row.path.path }
  | none, .tree => { merged with trees := merged.trees.insert row.path.path }

/-- The binding of one include, where it has one. -/
def bind (merged : Includes) (row : DocumentInclude) : Includes :=
  match row.adapter, row.suffix, row.kind with
  | none, _, _ => merged
  | some adapter, some suffix, _ =>
    { merged with suffixBindings := merged.suffixBindings.insert row.path.path (suffix, adapter) }
  | some adapter, none, .document =>
    { merged with documentBindings := merged.documentBindings.insert row.path.path adapter }
  | some adapter, none, .tree =>
    { merged with treeBindings := merged.treeBindings.insert row.path.path adapter }

/-- Both sides' includes; the bindings are the candidate's, or the base's where
    the candidate has no policy. -/
def union (base candidate : PolicySide) : Includes :=
  let admitted := (base.rows ++ candidate.rows).foldl merge default
  let bound := ((candidate.policy.or base.policy).elim []
    ScannerPolicy.documentIncludes).foldl bind admitted
  { bound with
    renderers := (candidate.policy.bind ScannerPolicy.anchorRenderers).map
      (fun names => Std.ExtTreeSet.ofList names) }

end Includes

/-- An entry under the bytes of a path. -/
def atBytes {V : Type} (map : BTreeMap RepoPath V) (bytes : Bytes) : Option V :=
  (RepoPath.fromBytes bytes).bind (map[·]?)

/-- A root stands at the path or above it. -/
def covered (roots : BTreeSet RepoPath) (path : Bytes) : Bool :=
  (ancestors path).any (fun ancestor =>
    (RepoPath.fromBytes ancestor).any (fun root => roots.contains root))

/-- What follows the last slash. -/
def basename (path : Bytes) : Bytes := (path.reverse.takeWhile (· ≠ 47)).reverse

/-- The tails of a path's last segment that may be suffixes, the longest first. -/
def dottedTails (path : Bytes) : List Bytes :=
  (basename path).tails.filter (fun tail =>
    tail.head? = some 46 ∧ tail.length ≤ documentSuffixBytes)

namespace Includes

variable (includes : Includes)

/-- The adapter bound to a path: an exact document wins, then the nearest tree. -/
def binding (path : RepoPath) : Option Adapter :=
  match includes.documentBindings[path]? with
  | some adapter => some adapter
  | none => (ancestors path.bytes).findSome? (fun ancestor =>
    match atBytes includes.suffixBindings ancestor with
    | some (suffix, adapter) =>
      if (utf8 suffix).isSuffixOf path.bytes then some adapter
      else atBytes includes.treeBindings ancestor
    | none => atBytes includes.treeBindings ancestor)

/-- A path is admitted. The source calls this `matches`. -/
def selects (path : RepoPath) : Bool :=
  includes.documents.contains path || covered includes.trees path.bytes ||
    (dottedTails path.bytes).any (fun tail =>
      (textOf tail).any (fun suffix =>
        (includes.suffixRoots[suffix]?).any (fun roots => covered roots path.bytes)))

end Includes

/-! ### The comparison -/

def scannerPolicyPath : String := ".amiss/scanner-policy.json"

/-- The seed of a weakening. -/
def weakened (ruleId : String) (controlPath : Option RepoPath) : ControlSeed :=
  ⟨.policyWeakened, ruleId, controlPath⟩

/-- What a base include lost in the candidate's policy. -/
def includeWeakening (base : DocumentInclude) (candidate : Option DocumentInclude) :
    Option String :=
  match candidate with
  | none =>
    some (if base.suffix.isSome then "policy/include-suffix-selector-removed"
      else
        match base.kind with
        | .document => "policy/include-document-removed"
        | .tree => "policy/include-tree-removed")
  | some candidate =>
    if base.suffix ≠ candidate.suffix then
      some (if base.suffix.isSome then "policy/include-suffix-removed"
        else "policy/include-tree-narrowed")
    else
      (base.adapter.filter (fun adapter => candidate.adapter ≠ some adapter)).map
        (fun _ => "policy/include-binding-removed")

/-- The includes of a policy by their identity. -/
def includesByKey (rows : List DocumentInclude) :
    BTreeMap (String ×ₗ IncludeKind) DocumentInclude :=
  rows.foldl (fun map row => map.insert row.key row) ∅

def weakenedIncludes (base candidate : List DocumentInclude) : List ControlSeed :=
  base.filterMap (fun row =>
    (includeWeakening row ((includesByKey candidate)[row.key]?)).map
      (fun rule => weakened rule (some row.path.path)))

def removedInventory (base candidate : List RepoPathText) : List ControlSeed :=
  (base.filter (fun member => !(candidate.map RepoPathText.text).contains member.text)).map
    (fun member => weakened "policy/inventory-removed" (some member.path))

def removedProjectionAssertions (base candidate : List ProjectionAssertion) : List ControlSeed :=
  (base.filter (fun row =>
      !(candidate.map (fun row => (row.document.text, row.name))).contains
        (row.document.text, row.name))).map
    (fun row =>
      weakened ("policy/projection-assertion-removed/" ++ row.name) (some row.document.path))

/-- A branch's name below `refs/heads/`. -/
def branchName (branch : String) : String :=
  if (utf8 "refs/heads/").isPrefixOf (utf8 branch) then
    (textOf ((utf8 branch).drop (utf8 "refs/heads/").length)).getD branch
  else branch

/-- What a policy file gives up about itself: names of the default branch and
    the pin of its renderers. -/
def fileWeakening (base candidate : Option ScannerPolicy) : List ControlSeed :=
  let aliases (policy : Option ScannerPolicy) : List String :=
    (policy.bind ScannerPolicy.defaultBranchAliases).getD []
  let dropped := ((aliases base).filter (fun branch =>
      !(aliases candidate).contains branch)).map
    (fun branch => "policy/default-branch-alias-removed/" ++ branchName branch)
  let pinned := base.bind ScannerPolicy.anchorRenderers
  let pin := candidate.bind ScannerPolicy.anchorRenderers
  let widened := pinned.any (fun pinned =>
    pin.all (fun pin => pin.any (fun name => !pinned.contains name)))
  (dropped ++ (if widened then ["policy/anchor-renderers-widened"] else [])).map
    (fun ruleId => weakened ruleId (RepoPath.fromBytes (utf8 scannerPolicyPath)))

/-- The dispositions a policy raises. -/
def raisedBy (policy : Option ScannerPolicy) : RaiseTable :=
  policy.elim RaiseTable.empty (fun policy => dispositionRows policy.findingDispositions)

def weakenedDispositions (base candidate : RaiseTable) : List ControlSeed :=
  (base.rows.filter (fun row => (candidate.minimum row.1).all (· < row.2))).map
    (fun row =>
      weakened ("policy/disposition/" ++ row.1.name) (RepoPath.fromBytes (utf8 scannerPolicyPath)))

/-- A protected path's state in the candidate. -/
inductive InventoryState where
  | scanned
  | unsupported
  | missing
  | outside
  deriving DecidableEq

def InventoryState.rule : InventoryState → Option String
  | .scanned => none
  | .missing => some "coverage/repository-inventory-missing"
  | .unsupported => some "coverage/repository-inventory-unsupported"
  | .outside => some "coverage/repository-inventory-outside"

/-- The protected paths of both sides that the candidate does not scan. -/
def reducedCoverage (base candidate : List RepoPathText)
    (candidateDocuments : String → InventoryState) : List ControlSeed :=
  let inventory : BTreeSet String :=
    Std.ExtTreeSet.ofList ((base ++ candidate).map RepoPathText.text)
  inventory.toList.filterMap (fun path =>
    (candidateDocuments path).rule.map (fun rule =>
      ⟨.coverageReduced, rule, RepoPath.fromBytes (utf8 path)⟩))

/-- Compares the policies of the two sides. -/
def effects (base candidate : PolicySide) (candidateDocuments : String → InventoryState) :
    Effects :=
  let inventory (side : PolicySide) : List RepoPathText :=
    side.policy.elim [] ScannerPolicy.protectedInventory
  let assertions (side : PolicySide) : List ProjectionAssertion :=
    (side.policy.bind ScannerPolicy.projectionAssertions).getD []
  { Effects.default with
    raised := raisedBy candidate.policy
    controls :=
      weakenedIncludes base.rows candidate.rows ++
        removedInventory (inventory base) (inventory candidate) ++
        removedProjectionAssertions (assertions base) (assertions candidate) ++
        fileWeakening base.policy candidate.policy ++
        weakenedDispositions (raisedBy base.policy) (raisedBy candidate.policy) ++
        reducedCoverage (inventory base) (inventory candidate) candidateDocuments
    baseDigest := base.digest
    candidateDigest := candidate.digest }

/-- A router declaration: its name and the address it serves under. -/
abbrev RouterDeclarations := BTreeMap RepoPath (String × Option String)

/-- The declarations the candidate does not carry identically. -/
def removedDeclarations (base candidate : RouterDeclarations) : List ControlSeed :=
  (base.toList.filter (fun entry => candidate[entry.1]? ≠ some entry.2)).map (fun entry =>
    weakened
      (if candidate.contains entry.1 then "router/declaration-replaced"
        else "router/declaration-removed")
      (some entry.1))

/-- The policy layer of a run: the comparison of the policies and of the router
    declarations. -/
def pairControls (base candidate : PolicySide) (candidateDocuments : String → InventoryState)
    (baseDeclared candidateDeclared : RouterDeclarations) : List ControlSeed :=
  (effects base candidate candidateDocuments).controls ++
    removedDeclarations baseDeclared candidateDeclared

end Amiss
