import Amiss.Core.Published

/-!
# Antora Resources

How a file of an Antora component names another one. A resource id is
`[version@][component:][module:][family$]relative`: what it leaves out is taken
from the module the file belongs to, and what it names is looked up in the
family directory of that module, in every source root of the component version
that this tree holds.

A component is the directory an `antora.yml` stands in, and the module of a file
is the nearest `modules/<name>/` on its path below such a directory.

## Main definitions

* `Coordinate`, `coordinate`: A resource id at its coordinates.
* `coordinateRoots`: The source roots a coordinate names.
* `antoraModule`: The component root and the module of a file.
* `antoraAnchor`: Where a resource id is read from.
* `antoraPage`: A file of the `pages` family.
-/

namespace Amiss

/-- The families of resources and the directory of a module each is kept in. -/
def antoraFamilies : List (String × String) :=
  [("page", "pages"), ("partial", "partials"), ("example", "examples"),
    ("attachment", "attachments"), ("image", "images")]

structure Coordinate where
  version : Option Bytes
  component : Option Bytes
  moduleName : Option Bytes
  resource : Bytes
  deriving DecidableEq

/-- A coordinate that is given is a name. -/
def namedCoordinate (name : Option Bytes) : Bool :=
  name.all (fun name => decide (47 ∉ name ∧ 58 ∉ name ∧ name ≠ []))

/-- A resource id at its coordinates. An empty module is none. -/
def coordinate (pathPart : Bytes) : Option Coordinate :=
  let (version, rest) := match cutAt 64 pathPart with
    | some (version, rest) => (some version, rest)
    | none => (none, pathPart)
  let (component, moduleName, resource) := match cutAt 58 rest with
    | none => (none, none, rest)
    | some (first, later) => match cutAt 58 later with
      | none => (none, some first, later)
      | some (second, resource) => (some first, some second, resource)
  let moduleName : Option Bytes := moduleName.filter (· ≠ [])
  if namedCoordinate version && namedCoordinate component && namedCoordinate moduleName then
    some ⟨version, component, moduleName, resource⟩
  else none

section resources

variable (snapshot : SnapshotDiscovery)

/-- Every source root of the component version a coordinate names, the given
    root first. A component without a version is any version the tree holds. -/
def coordinateRoots (root : Bytes) (named : Coordinate) : List Bytes :=
  match antoraDescriptorAt snapshot root with
  | none => if named.component = none ∧ named.version = none then [root] else []
  | some own =>
    let name := named.component.getD (utf8 own.name)
    let version : Option (Option Bytes) := match named.component, named.version with
      | _, some version => some (some version)
      | none, none => some (own.version.map utf8)
      | some _, none => none
    let roots := (snapshot.antoraComponents.toList.filter (fun declared =>
      decide (utf8 declared.2.name = name) &&
        version.all (fun version => declared.2.version.map utf8 = version))).map
          (fun declared => directory declared.1.bytes)
    roots.filter (· = root) ++ roots.filter (· ≠ root)

/-- The component root and the module of a file: the last `modules/<name>/` on
    its path whose parent directory holds a descriptor. -/
def antoraModule (document : Bytes) : Option (Bytes × Bytes) :=
  let segments := document.splitOn 47
  (List.range segments.length).reverse.findSome? (fun index =>
    match segments.drop index with
    | holder :: name :: _ :: _ =>
      let root := [47].intercalate (segments.take index)
      if holder = utf8 "modules" ∧ name ≠ [] ∧
          RouteRule.antora.declaredBy.any (fun file => regularFile snapshot (join root (utf8 file)))
      then some (root, name)
      else none
    | _ => none)

/-- The family a construct reads from where the id names none: a reference reads
    pages and an image images. The second level is absent where the construct
    reads no resource. -/
def defaultFamily (construct : SourceConstruct) : Option (Option String) :=
  if construct = .asciidocCrossReference then some (some "page")
  else if construct.isImage then some (some "image")
  else if construct = .asciidocInclude then some none
  else none

/-- The directories a resource id is read from, each with what is read there. -/
def antoraAnchor (document : RepoPath) (construct : Option SourceConstruct) (pathPart : Bytes) :
    List (Bytes × Bytes) :=
  match construct.bind defaultFamily, antoraModule snapshot document.bytes, coordinate pathPart with
  | some family, some (root, ownModule), some named =>
    let moduleName := match named.component, named.moduleName with
      | _, some name => name
      | some _, none => utf8 "ROOT"
      | none, none => ownModule
    match (cutAt 36 named.resource).or (family.map (fun family => (utf8 family, named.resource)))
    with
    | none => []
    | some (family, relative) =>
      match antoraFamilies.find? (fun entry => utf8 entry.1 = family) with
      | none => []
      | some (_, kept) =>
        if relative = [] ∨ (utf8 "/").isPrefixOf relative ∨ (utf8 "./").isPrefixOf relative ∨
            (utf8 "../").isPrefixOf relative then []
        else (coordinateRoots snapshot root named).map (fun root =>
          (join (join (join root (utf8 "modules")) moduleName) (utf8 kept), relative))
  | _, _, _ => []

/-- A file of the `pages` family, which renders the partials it includes. -/
def antoraPage (document : RepoPath) : Bool :=
  (antoraModule snapshot document.bytes).any (fun (root, name) =>
    within document.bytes (join (join (join root (utf8 "modules")) name) (utf8 "pages")))

end resources

end Amiss
