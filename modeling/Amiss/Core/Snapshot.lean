import Amiss.Core.Router
import Amiss.Core.Scan

/-!
# Snapshots

What one side of a run holds once it is discovered: the documents in path
order, every entry of the tree or the index, and what the generators'
configurations in it say. The resolver asks a snapshot what a path names and
which site a document belongs to.

A commit tree lists its directories, an index lists files only. `locate`
answers the same for both: a directory is listed, or some entry sits below it.

The directories a configuration names are raw bytes, the root as none; the
maps over them are ordered by bytes.

## Main definitions

* `SnapshotDiscovery`: One side, discovered.
* `SnapshotDiscovery.document`: The document at a path.
* `SnapshotDiscovery.locate`: What a path names.
* `siteRoot`: The site a document belongs to under one rule.
* `soleSites`: The generators declared exactly once.
-/

namespace Amiss

/-- A path that need not pass the grammar, compared by its bytes. -/
structure RawPath where
  bytes : Bytes
  deriving DecidableEq

namespace RawPath

def spelling (path : RawPath) : List Nat := spellingOf path.bytes

theorem spelling_injective : Function.Injective spelling := by
  intro a b h
  cases a
  cases b
  exact congrArg RawPath.mk (spellingOf_injective h)

instance : LinearOrder RawPath := orderBy spelling spelling_injective

end RawPath

/-! ### Documents -/

/-- The boundaries a document can sit behind without failing the run. -/
inductive UnsupportedKind where
  | symlink
  | gitlink
  | lfsPointer
  | format
  | undecodable
  | unparsable
  | ceiling
  deriving DecidableEq

inductive DocumentStatus where
  | scanned (scanned : Scanned)
  | excludedBuiltIn
  | unsupported (kind : UnsupportedKind)
  | failed (error : SnapshotError)
  deriving DecidableEq

structure DocumentRecord where
  path : RepoPath
  classification : DocumentClassification
  adapter : Option Adapter
  status : DocumentStatus
  oid : Oid
  mode : GitMode
  byteCount : Nat
  rawDigest : Option Digest

/-- One refused path: the defect, and the raw bytes where the report can hold
    them. -/
structure PathDefect where
  error : SnapshotError
  raw : Option Bytes

/-- The one document that declares a label, or that several do. -/
inductive LabelState where
  | declared (path : RepoPath)
  | duplicated
  deriving DecidableEq

/-! ### What configurations say -/

structure AntoraComponent where
  name : String
  version : Option String
  extended : Bool

/-- What a Sphinx configuration turns on. -/
structure SphinxConfig where
  extensions : BTreeSet String
  prefixDocument : Bool
  intersphinx : Bool

/-- One side's complete discovery. -/
structure SnapshotDiscovery where
  documents : List DocumentRecord := []
  outsideDocumentSet : Nat := 0
  treeEntries : Nat := 0
  pathDefects : List PathDefect := []
  entries : BTreeMap RepoPath (GitMode × Oid) := ∅
  labels : BTreeMap String LabelState := ∅
  /-- The document published at each route. -/
  publishedRoutes : BTreeMap RepoPath RepoPath := ∅
  /-- The document that declares it moved away from each route. -/
  redirectRoutes : BTreeMap RepoPath RepoPath := ∅
  soleSites : BTreeMap String Bytes := ∅
  sphinxIncluded : BTreeSet RepoPath := ∅
  asciidocIncluded : BTreeSet RepoPath := ∅
  /-- The pages each included file is rendered into. -/
  fragmentPages : BTreeMap RepoPath (BTreeSet RepoPath) := ∅
  antoraComponents : BTreeMap RepoPath AntoraComponent := ∅
  sourceSuffixes : BTreeMap RawPath (BTreeSet String) := ∅
  sphinxConfigs : BTreeMap RawPath SphinxConfig := ∅
  /-- The router each declaration names, and the base it gives. -/
  declaredRouters : RouterDeclarations := ∅
  refusedRouters : BTreeSet RepoPath := ∅
  /-- The content roots of each project with the base each is served under. -/
  publishedRoots : BTreeMap RawPath (List (Bytes × String)) := ∅
  /-- The names of the rule each configuration under a shared name selects. -/
  boundConfigs : BTreeMap RepoPath (List String) := ∅
  /-- The directory each book reads its chapters from. -/
  bookSources : BTreeMap RawPath Bytes := ∅
  starlightRoots : BTreeSet RawPath := ∅
  /-- The content roots served in lowercase. -/
  foldedRoots : BTreeSet RawPath := ∅

def emptyDiscovery : SnapshotDiscovery := {}

/-- What a path names: an entry, or a directory implied by the entries below. -/
inductive Located where
  | entry (mode : GitMode) (oid : Oid)
  | impliedTree
  deriving DecidableEq

def GitMode.isFile (mode : GitMode) : Bool := mode = .regularFile || mode = .executableFile

/-- An ordinary file. -/
def Located.isFile : Located → Bool
  | .entry mode _ => mode.isFile
  | .impliedTree => false

/-- A directory, listed or implied. -/
def Located.isTree : Located → Bool
  | .entry mode _ => mode = .tree
  | .impliedTree => true

namespace SnapshotDiscovery

variable (snapshot : SnapshotDiscovery)

/-- The discovered document at one exact path. -/
def document (path : Bytes) : Option DocumentRecord :=
  (binarySearch (snapshot.documents.map (fun record => record.path.spelling))
    (spellingOf path)).bind (fun index => snapshot.documents[index]?)

/-- What the snapshot holds at a path: an entry of its own, or a directory
    implied by the first entry at or past the path with a slash. -/
def locate (path : RepoPath) : Option Located :=
  match snapshot.entries[path]? with
  | some (mode, oid) => some (.entry mode oid)
  | none =>
    let below := path.bytes ++ [47]
    ((snapshot.entries.toList.find? (fun entry =>
        decide (spellingOf below ≤ entry.1.spelling))).filter
      (fun entry => below.isPrefixOf entry.1.bytes)).map (fun _ => .impliedTree)

end SnapshotDiscovery

/-! ### Declarations above a document -/

section roots

variable (snapshot : SnapshotDiscovery)

def regularFile (path : Bytes) : Bool :=
  (RepoPath.fromBytes path).any (fun path => (snapshot.locate path).any Located.isFile)

/-- The nearest directory above a document that holds one of the named files;
    a file under a shared name counts where it selects this rule. -/
def declaredRoot (document : Bytes) (declaredBy : List String) : Option Bytes :=
  ancestorRoot document (fun directory =>
    declaredBy.any (fun name =>
      let path := join directory (utf8 name)
      let bound := !sharedConfigs.contains name ||
        (RepoPath.fromBytes path).any (fun path =>
          snapshot.boundConfigs[path]? = some declaredBy)
      bound && regularFile snapshot path))

/-- What a declaration in this exact directory names. -/
def declaredAt (directory : Bytes) : Option (String × Option String) :=
  (RepoPath.fromBytes (join directory (utf8 routerDeclaration))).bind
    (fun path => snapshot.declaredRouters[path]?)

/-- The nearest directory above a document with a declaration, where that
    declaration names the rule. -/
def declaredSite (document : Bytes) (rule : RouteRule) : Option Bytes :=
  if rule.declarable = false then none
  else
    (ancestorRoot document (fun directory => (declaredAt snapshot directory).isSome)).filter
      (fun root => (declaredAt snapshot root).any (fun declared => declared.1 = rule.name))

/-- The site that owns a document: the nearest configuration above it, the
    router declared for the directory, and failing both the single site the
    tree declares. A rule that answers for the build is not widened. -/
def siteRoot (path : Bytes) (rule : RouteRule) : Option Bytes :=
  let widens := !rule.serves.contains .builtRoute && !rule.serves.contains .builtPage
  let tree := if widens then snapshot.soleSites[rule.name]? else none
  ((declaredRoot snapshot path rule.declaredBy).or (declaredSite snapshot path rule)).or tree

/-- The directories the tree declares one rule's generator in, fixtures and
    dependencies apart. -/
def declaringDirectories (rule : RouteRule) : BTreeSet RawPath :=
  Std.ExtTreeSet.ofList <| snapshot.entries.toList.filterMap (fun entry =>
    if entry.2.1.isFile && !excludedByBuiltIn entry.1.bytes then
      (declaringName rule entry.1.bytes).bind (fun name =>
        let bound := !sharedConfigs.contains name ||
          snapshot.boundConfigs[entry.1]? = some rule.declaredBy
        if bound then (declaringDirectory entry.1.bytes name).map RawPath.mk else none)
    else none)

/-- The directory of each generator the tree declares exactly once. -/
def soleSites : BTreeMap String Bytes :=
  Std.ExtTreeMap.ofList <| routers.filterMap (fun rule =>
    match (declaringDirectories snapshot rule).toList with
    | [root] => some (rule.name, root.bytes)
    | _ => none)

/-- The routes of a rule are read for this tree: a configuration selects it, or
    a declaration names it. -/
def publishedBy (rule : RouteRule) : Bool :=
  !(declaringDirectories snapshot rule).isEmpty ||
    snapshot.declaredRouters.toList.any (fun declared => declared.2.1 = rule.name)

/-- Sphinx parses the document: a declaration stands above it, or a page of the
    tree includes it. -/
def sphinxGoverned (document : RepoPath) : Bool :=
  (routers.filter (fun rule => rule.serves.contains .sourceRoot)).any (fun rule =>
      (declaredRoot snapshot document.bytes rule.declaredBy).isSome) ||
    snapshot.sphinxIncluded.contains document

/-- A Sphinx root reads the path as one of its own sources: the nearest
    configuration above it declares the suffix. -/
def declaredSource (path : Bytes) : Bool :=
  (declaredRoot snapshot path RouteRule.sphinx.declaredBy).any (fun root =>
    snapshot.sourceSuffixes[RawPath.mk root]?.any (fun declared =>
      declared.toList.any (fun suffix => (utf8 suffix).isSuffixOf path)))

/-- The directory a mkdocs snippet is resolved from. -/
def snippetRoot (adapter : Adapter) (document : RepoPath) : Option Bytes :=
  if adapter ≠ .markdown then none
  else declaredRoot snapshot document.bytes RouteRule.mkdocs.declaredBy

end roots

end Amiss
