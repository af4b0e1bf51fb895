import Amiss.Base.Hex
import Amiss.Base.Reading
import Amiss.Base.Sorted
import Amiss.Core.Wire

/-!
# Git Tree Objects

A tree body is a run of entries, each a mode, a name and a raw object id.
Entries come in the order Git gives them: names compare by their bytes with a
slash behind the name of a directory. An entry out of that order is refused,
and so is a directory whose name a file before it already has, which the
order alone would let through.

## Main definitions

* `TreeEntry.key`: What the order of tree entries compares.
* `parseTree`: A tree body as its entries.
-/

namespace Amiss

/-- The defects of Git objects and of the index. -/
inductive GitDefect where
  | objectMissing
  | objectWrongKind
  | objectUnreadable
  | indexInvalid
  | indexFormatUnsupported
  | indexUnmerged
  | intentToAdd
  | snapshotChanged
  deriving DecidableEq

/-- The number of bytes of a raw object id. -/
def ObjectFormat.oidWidth : ObjectFormat → Nat
  | .sha1 => 20
  | .sha256 => 32

/-- The hexadecimal text of a byte string. -/
def hexText (bytes : Bytes) : String :=
  String.ofList ((hexEncode bytes).map (fun byte => Char.ofNat byte.toNat))

variable (objectFormat : ObjectFormat)

/-- An object id from its raw bytes. -/
def Oid.ofRaw (raw : Bytes) : Option Oid :=
  Oid.new objectFormat (hexText raw)

structure TreeEntry where
  mode : GitMode
  name : Bytes
  oid : Oid
  deriving DecidableEq

/-- What the order of tree entries compares: the name, with a slash behind the
    name of a directory. -/
def treeNameKey (name : Bytes) (isTree : Bool) : List Nat :=
  spellingOf name ++ if isTree then [47] else []

def TreeEntry.key (entry : TreeEntry) : List Nat :=
  treeNameKey entry.name (entry.mode == .tree)

def treeMode (bytes : Bytes) : Except GitDefect GitMode :=
  if bytes = utf8 "40000" then .ok .tree
  else if bytes = utf8 "100644" then .ok .regularFile
  else if bytes = utf8 "100755" then .ok .executableFile
  else if bytes = utf8 "120000" then .ok .symlink
  else if bytes = utf8 "160000" then .ok .gitlink
  else .error .objectUnreadable

/-- A name that may stand in a tree. -/
def treeNameValid (name : Bytes) : Bool :=
  !(name.isEmpty || name.contains 47 || name == [46] || name == [46, 46])

/-- One entry off the front of a tree body. -/
def readTreeEntry (rest : Bytes) :
    Except GitDefect (TreeEntry × Bytes) :=
  match cutAt 32 rest with
  | none => .error .objectUnreadable
  | some (modeBytes, afterMode) => do
    let mode ← treeMode modeBytes
    match cutAt 0 afterMode with
    | none => .error .objectUnreadable
    | some (name, afterName) =>
      if treeNameValid name = false then .error .objectUnreadable
      else
        match (slice afterName 0 objectFormat.oidWidth).bind (Oid.ofRaw objectFormat) with
        | none => .error .objectUnreadable
        | some oid => .ok (⟨mode, name, oid⟩, afterName.drop objectFormat.oidWidth)

/-- One entry behind the entries read so far. -/
def pushTreeEntry (entries : List TreeEntry) (entry : TreeEntry) :
    Except GitDefect (List TreeEntry) :=
  if entries.getLast?.any (fun previous => ¬ previous.key < entry.key) then
    .error .objectUnreadable
  -- A file of the same name sorts apart from the directory, so it is searched.
  else if entry.mode = .tree ∧
      (binarySearch (entries.map TreeEntry.key) (treeNameKey entry.name false)).isSome then
    .error .objectUnreadable
  else .ok (entries ++ [entry])

/-- A tree body as its entries. -/
def parseTree (body : Bytes) : Except GitDefect (List TreeEntry) :=
  consume (fun entries rest => do
    let (entry, after) ← readTreeEntry objectFormat rest
    let extended ← pushTreeEntry entries entry
    pure (extended, after)) body.length [] body

end Amiss
