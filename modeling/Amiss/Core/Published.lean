import Amiss.Core.Snapshot

/-!
# Published Pages

Where the documents of a snapshot are published. A document is served at the
name it declares, at the route its path spells, or, under a root whose generator
serves every URL in lowercase, at that route in lowercase.

Two sides of a run are read under one set of routers: the base is read again
under what the candidate declares.

The lowercase of a text is a table of Unicode and a parameter here.

## Main definitions

* `publishedRoutes`: The routes the documents of a snapshot claim.
* `readAsDeclared`: A base read under the candidate's declarations.
-/

namespace Amiss

/-- The longest of the byte strings, the last of them where several are. -/
def longest (roots : List Bytes) : Option Bytes :=
  roots.foldl (fun held root => match held with
    | none => some root
    | some longest => if root.length < longest.length then some longest else some root) none

section routes

variable (lowercase : String → String)

/-- A route under a root that is served in lowercase, as it is served. -/
def folded (root route : Bytes) : Option RepoPath :=
  if route.length < root.length then none
  else (textOf (route.drop root.length)).bind (fun under =>
    RepoPath.fromBytes (root ++ utf8 (lowercase under)))

/-- The route a document's own site serves it at under the Starlight loader,
    which reads no file whose name opens with an underscore. -/
def starlightRoute (root raw : Bytes) (publication : PagePublication) : Option RepoPath :=
  if (basename raw).head? = some 95 then none
  else match publication.slug with
    | some slug => folded lowercase root (join root ((utf8 slug).dropWhile (· = 47)))
    | none => folded lowercase root (pageRoute raw false)

variable (snapshot : SnapshotDiscovery)

/-- The route a Docusaurus page is served at: its declared name in place of its
    own, or that name under its content root where it opens with a slash. -/
def docusaurusRoute (raw : Bytes) (publication : PagePublication) :
    Option RepoPath :=
  match publication.slug.or publication.id with
  | none => RepoPath.fromBytes (pageRoute raw false)
  | some name =>
    match ([47] : Bytes).isPrefixOf? (utf8 name) with
    | none => RepoPath.fromBytes (join (directory raw) (utf8 name))
    | some absolute =>
      (declaredRoot snapshot raw RouteRule.docusaurus.declaredBy).bind (fun site =>
        RepoPath.fromBytes (join ((contentRoot site raw).getD site) absolute))

/-- Where one document is published. -/
def publishedRoute (document : RepoPath)
    (publication : PagePublication) (docusaurus : Bool) : Option RepoPath :=
  let raw := document.bytes
  match (snapshot.starlightRoots.toList.map
      (fun project => join project.bytes (utf8 starlightContent))).find? (within raw) with
  | some root => starlightRoute lowercase root raw publication
  | none =>
    match longest ((snapshot.foldedRoots.toList.map RawPath.bytes).filter (within raw)) with
    | some root => folded lowercase root (pageRoute raw true)
    | none => if docusaurus then docusaurusRoute snapshot raw publication else none

/-- The page URLs one document declares it moved away from. -/
def movedFrom (document : RepoPath) (declared : List String) :
    List RepoPath :=
  if declared = [] ∨ siteRoot snapshot document.bytes .directoryPages = none then []
  else
    let parent := directory (pageRoute document.bytes true)
    (declared.filter (fun entry => (utf8 entry).head? ≠ some 47)).filterMap (fun entry =>
      (normalizedPathUnder parent false (utf8 entry)).toOption.map Prod.fst)

/-- The publication of a document that may claim a route. -/
def DocumentRecord.published (record : DocumentRecord) : Option PagePublication :=
  match record.status with
  | .scanned scanned =>
    if record.adapter = some .markdown ∨ record.adapter = some .mdx then some scanned.publication
    else none
  | .excludedBuiltIn | .unsupported _ | .failed _ => none

/-- Every route the documents claim, and apart from them the URLs they moved
    away from, each with the document where only one claims it. -/
def publishedRoutes :
    BTreeMap RepoPath RepoPath × BTreeMap RepoPath RepoPath :=
  let names := publishedBy snapshot .docusaurus
  let redirects := publishedBy snapshot .directoryPages
  if !names && !redirects && snapshot.foldedRoots.isEmpty then (soleClaims [], soleClaims [])
  else
    let claiming := snapshot.documents.filterMap (fun record =>
      record.published.map (fun publication => (record.path, publication)))
    let published := claiming.filterMap (fun claim =>
      (publishedRoute lowercase snapshot claim.1 claim.2 names).map (fun route => (route, claim.1)))
    let moved := if redirects then claiming.flatMap (fun claim =>
      (movedFrom snapshot claim.1 claim.2.redirects).map (fun route => (route, claim.1))) else []
    (soleClaims published, soleClaims moved)

/-- A snapshot with its routes read from what it now declares. -/
def withRoutes : SnapshotDiscovery :=
  { snapshot with
    publishedRoutes := (publishedRoutes lowercase snapshot).1
    redirectRoutes := (publishedRoutes lowercase snapshot).2 }

/-! ### The base under the candidate's declarations -/

/-- The configuration of a snapshot with what another one configures and it
    does not. -/
def configuredAs (snapshot candidate : SnapshotDiscovery) : SnapshotDiscovery :=
  { snapshot with
    declaredRouters := candidate.declaredRouters
    boundConfigs := orInsertAll snapshot.boundConfigs candidate.boundConfigs
    publishedRoots := orInsertAll snapshot.publishedRoots candidate.publishedRoots
    foldedRoots := insertAll snapshot.foldedRoots candidate.foldedRoots }

/-- Reads a snapshot under the routers another one declares; the declarations
    its own tree held come back with it. The routes are read again where the
    declarations or the size of a table changed. -/
def readAsDeclared (snapshot candidate : SnapshotDiscovery) :
    SnapshotDiscovery × RouterDeclarations :=
  let held := snapshot.declaredRouters
  let configured := (snapshot.boundConfigs.size, snapshot.publishedRoots.size,
    snapshot.foldedRoots.size)
  let declared := configuredAs snapshot candidate
  let changed := held.toList ≠ declared.declaredRouters.toList ∨
    configured ≠ (declared.boundConfigs.size, declared.publishedRoots.size,
      declared.foldedRoots.size)
  (if changed then withRoutes lowercase declared else declared, held)

end routes

/-- What the descriptor of an Antora source root declares. -/
def antoraDescriptorAt (snapshot : SnapshotDiscovery) (root : Bytes) : Option AntoraComponent :=
  RouteRule.antora.declaredBy.findSome? (fun name =>
    (RepoPath.fromBytes (join root (utf8 name))).bind (fun path =>
      snapshot.antoraComponents[path]?))

end Amiss
