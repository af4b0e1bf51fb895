import Amiss.Core.Components
import Amiss.Core.Policy

/-!
# Relocated Directories

Where a directory went. Between two trees a moved directory keeps its tree
identity, and the pairing of identities finds it. An index names files only, so
there a removed directory is looked for by its content: the one added directory
that holds exactly its files, provided no other removed directory held the same
tree.

The added directories are never listed. They are guessed from the paths that
hold the first file and confirmed by comparing the files beneath, each read as a
range of the ordered entries.

## Main definitions

* `Entries`: The entries of a snapshot.
* `beneath`: The files below a directory.
* `directoryPairs`: The removed directories and where they went.
-/

namespace Amiss

abbrev Entries := BTreeMap RepoPath (GitMode × Oid)

/-- The files beneath a directory, spelled relative to it. -/
def beneath (entries : Entries) (directory : Bytes) : List (Bytes × (GitMode × Oid)) :=
  let under := directory ++ [47]
  let range := entries.toList.dropWhile (fun entry => entry.1.spelling < spellingOf under)
  (mapWhile (fun entry => (under.isPrefixOf? entry.1.bytes).map (fun rest => (rest, entry.2)))
    range).filter (fun file => file.2.1 ≠ .tree)

/-- The entries hold nothing at a path: neither an entry nor a file below. -/
def absentAt (entries : Entries) (path : Bytes) : Bool :=
  (atBytes entries path).isNone && (beneath entries path).isEmpty

/-- The directories among the missing paths, with their trees. -/
def missingDirectories (base : Entries) (missing : List RepoPath) : BTreeMap RepoPath Oid :=
  missing.foldl (fun directories path =>
    match (base[path]? : Option (GitMode × Oid)) with
    | some (.tree, tree) => directories.insert path tree
    | _ => directories) ∅

/-- The directories of the base by their trees. -/
def directoriesByTree (base : Entries) : BTreeMap Oid (List RepoPath) :=
  collect (fun entry => entry.2.2) [] (fun held entry => held ++ [entry.1])
    (base.toList.filter (fun entry => entry.2.1 = .tree))

/-- The paths of the candidate by what they hold. -/
def holders (candidate : Entries) : BTreeMap (GitMode ×ₗ Oid) (List RepoPath) :=
  collect (fun entry => toLex entry.2) [] (fun held entry => held ++ [entry.1]) candidate.toList

variable (base candidate : Entries)

/-- The added directories that hold exactly the files, guessed from the paths
    that hold the first of them. -/
def addedDirectories (files : List (Bytes × (GitMode × Oid)))
    (first : Bytes) (identity : GitMode × Oid) : List Bytes :=
  let stems := (((holders candidate)[(toLex identity : GitMode ×ₗ Oid)]?).getD []).filterMap
    (fun path => (first.isSuffixOf? path.bytes).bind (fun stem => ([47] : Bytes).isSuffixOf? stem))
  stems.filter (fun stem => absentAt base stem && decide (beneath candidate stem = files))

/-- The one added directory, where one directory was removed. -/
def soleMove (removed : List RepoPath) (added : List Bytes) : Option RepoPath :=
  match removed, added with
  | [_], [stem] => RepoPath.fromBytes stem
  | _, _ => none

/-- Where one removed directory went. -/
def directoryPair (directory : RepoPath) (tree : Oid) :
    Option RepoPath :=
  let files := beneath base directory.bytes
  let removed := (((directoriesByTree base)[tree]?).getD []).filter
    (fun path => absentAt candidate path.bytes)
  match files with
  | [] => none
  | (first, identity) :: _ =>
    soleMove removed (addedDirectories base candidate files first identity)

/-- A removed directory's unique counterpart when the candidate names files
    only, as an index does. -/
def directoryPairs (missing : List RepoPath) :
    BTreeMap RepoPath RepoPath :=
  (missingDirectories base missing).toList.foldl (fun pairs directory =>
    match directoryPair base candidate directory.1 directory.2 with
    | some moved => pairs.insert directory.1 moved
    | none => pairs) ∅

end Amiss
