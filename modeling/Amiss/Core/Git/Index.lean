import Amiss.Base.BigEndian
import Amiss.Core.Git.Tree

/-!
# The Git Index

The bytes of `.git/index` as the rows of the logical stage-zero index.
Versions two to four are read: two and three carry whole paths padded to eight
bytes, four writes each path as a change to the row before. Rows must come in
the order of their path bytes, and no row may lie under a row that is a file.

Every offset of the format is relative to the start of an entry, so an entry
is read off the front of what is left.

The trailing checksum is a parameter: it is the object hash of the
repository's format.

## Main definitions

* `IndexEntry`: One supported row.
* `prefixConflict`: Some earlier row is a directory above a path.
* `parseIndexFile`: The rows of an index file.
-/

namespace Amiss

/-- One supported stage-zero row. -/
structure IndexEntry where
  path : Bytes
  mode : GitMode
  oid : Oid
  skipWorktree : Bool
  deriving DecidableEq

/-- The logical stage-zero index. -/
structure LogicalIndex where
  entries : List IndexEntry
  deriving DecidableEq

def be32 (bytes : Bytes) (offset : Nat) : Except GitDefect Nat :=
  (slice bytes offset (offset + 4)).elim (.error .indexInvalid) (fun raw => .ok (ofBeBytes raw))

def be16 (bytes : Bytes) (offset : Nat) : Except GitDefect Nat :=
  (slice bytes offset (offset + 2)).elim (.error .indexInvalid) (fun raw => .ok (ofBeBytes raw))

def entryMode (raw : Nat) : Except GitDefect GitMode :=
  if raw = 0o100644 then .ok .regularFile
  else if raw = 0o100755 then .ok .executableFile
  else if raw = 0o120000 then .ok .symlink
  else if raw = 0o160000 then .ok .gitlink
  else .error .indexInvalid

/-- The mode of an entry, none for a whole directory. -/
def fileMode (raw : Nat) : Except GitDefect (Option GitMode) :=
  if raw = 0o040000 then .ok none else (entryMode raw).map some

/-- Some earlier row is one of the directories above a path. -/
def prefixConflict (entries : List IndexEntry) (path : Bytes) : Bool :=
  (ancestors path).tail.any (fun above =>
    (binarySearch (entries.map (fun entry => spellingOf entry.path)) (spellingOf above)).isSome)

/-- The offset varint of version four, with what follows it. The value and the
    one added before each further byte must fit 64 bits. -/
def varint : Nat → Bytes → Except GitDefect (Nat × Bytes)
  | _, [] => .error .indexInvalid
  | value, byte :: rest =>
    let shifted := value * 128 + (byte &&& 0x7f).toNat
    if 2 ^ 64 ≤ shifted then .error .indexInvalid
    else if byte &&& 0x80 = 0 then .ok (shifted, rest)
    else if 2 ^ 64 ≤ shifted + 1 then .error .indexInvalid
    else varint (shifted + 1) rest

/-- The distance of an offset delta, and what follows it: the same varint in a
    pack entry. The value, which no part of its sum exceeds, must fit 64 bits. -/
def ofsDistance (value : Nat) (byte : UInt8) (rest : Bytes) : Except GitDefect (Nat × Bytes) :=
  if byte &&& 0x80 = 0 then .ok (value, rest)
  else
    match rest with
    | [] => .error .objectUnreadable
    | byte :: rest =>
      let value := (value + 1) * 128 + (byte &&& 0x7f).toNat
      if 2 ^ 64 ≤ value then .error .objectUnreadable else ofsDistance value byte rest

def parseOfsDistance : Bytes → Except GitDefect (Nat × Bytes)
  | [] => .error .objectUnreadable
  | byte :: rest => ofsDistance (byte &&& 0x7f).toNat byte rest

/-- The path of an entry and what follows the entry. -/
def entryPath (rest : Bytes) (version pathAt flags : Nat) (previousPath : Bytes) :
    Except GitDefect (Bytes × Bytes) :=
  if version = 4 then do
    let (strip, afterStrip) ← varint 0 (rest.drop pathAt)
    match cutAt 0 afterStrip with
    | none => .error .indexInvalid
    | some (suffix, after) =>
      if previousPath.length < strip then .error .indexInvalid
      else .ok (previousPath.take (previousPath.length - strip) ++ suffix, after)
  else
    match cutAt 0 (rest.drop pathAt) with
    | none => .error .indexInvalid
    | some (path, _) =>
      -- The length bits saturate, so only a shorter length has to agree.
      let nameBits := flags &&& 0x0fff
      if nameBits < 0x0fff ∧ nameBits ≠ path.length then .error .indexInvalid
      else
        let unpadded := pathAt + path.length
        let pad := 8 - unpadded % 8
        if slice rest unpadded (unpadded + pad) = some (List.replicate pad 0) then
          .ok (path, rest.drop (unpadded + pad))
        else .error .indexInvalid

/-- What the flags of an entry say: its skip-worktree bit and where its path
    begins. -/
def entryFlags (rest : Bytes) (version flagsAt : Nat) : Except GitDefect (Nat × Bool × Nat) := do
  let flags ← be16 rest flagsAt
  if flags &&& 0x3000 ≠ 0 then .error .indexUnmerged
  else if flags &&& 0x4000 = 0 then .ok (flags, false, flagsAt + 2)
  else if version = 2 then .error .indexInvalid
  else do
    let extended ← be16 rest (flagsAt + 2)
    if extended &&& 0x8000 ≠ 0 then .error .indexInvalid
    else if extended &&& 0x2000 ≠ 0 then .error .intentToAdd
    else .ok (flags, extended &&& 0x4000 ≠ 0, flagsAt + 4)

/-- One row behind the rows read so far. -/
def pushIndexEntry (entries : List IndexEntry) (entry : IndexEntry) :
    Except GitDefect (List IndexEntry) :=
  let previousPath := entries.getLast?.elim [] IndexEntry.path
  if previousPath ≠ [] ∧ ¬ spellingOf previousPath < spellingOf entry.path then
    .error .indexInvalid
  else if prefixConflict entries entry.path then .error .indexInvalid
  else .ok (entries ++ [entry])

/-- What the loop over the entries holds: the rows so far, whether an entry
    was left unexpanded, and the bytes to come. -/
structure IndexRead where
  entries : List IndexEntry
  unexpanded : Bool
  rest : Bytes

/-- One entry. A whole directory, or a replacement without a path, is no row;
    both are only valid beside an extension that the reader refuses. -/
def readIndexEntry (objectFormat : ObjectFormat) (version : Nat) (read : IndexRead) :
    Except GitDefect IndexRead := do
  let rawMode ← be32 read.rest 24
  let mode ← fileMode rawMode
  match (slice read.rest 40 (40 + objectFormat.oidWidth)).bind (Oid.ofRaw objectFormat) with
  | none => .error .indexInvalid
  | some oid => do
    let (flags, skipWorktree, pathAt) ← entryFlags read.rest version (40 + objectFormat.oidWidth)
    let previousPath := read.entries.getLast?.elim [] IndexEntry.path
    let (path, after) ← entryPath read.rest version pathAt flags previousPath
    match mode.filter (fun _ => path ≠ []) with
    | none => .ok { read with unexpanded := true, rest := after }
    | some mode => do
      let extended ← pushIndexEntry read.entries ⟨path, mode, oid, skipWorktree⟩
      .ok { read with entries := extended, rest := after }

/-- One extension: an uppercase signature is optional and skipped. -/
def readExtension (rest : Bytes) : Except GitDefect Bytes :=
  match slice rest 0 4 with
  | none => .error .indexInvalid
  | some signature => do
    let length ← be32 rest 4
    if rest.length < 8 + length then .error .indexInvalid
    else if signature = utf8 "link" ∨ signature = utf8 "sdir" then .error .indexFormatUnsupported
    else if signature.head?.any (fun byte => 65 ≤ byte ∧ byte ≤ 90) then
      .ok (rest.drop (8 + length))
    else .error .indexInvalid

def extensions (rest : Bytes) : Except GitDefect Unit :=
  consume (fun _ rest => do
    let after ← readExtension rest
    pure ((), after)) rest.length () rest

/-- The rows of an index file. -/
def parseIndexFile (ordinaryDigest : ObjectFormat → Bytes → Bytes) (objectFormat : ObjectFormat)
    (bytes : Bytes) : Except GitDefect LogicalIndex :=
  if bytes.length < objectFormat.oidWidth then .error .indexInvalid
  else
    let content := bytes.take (bytes.length - objectFormat.oidWidth)
    let stored := bytes.drop (bytes.length - objectFormat.oidWidth)
    -- An all-zero trailer is written where the check is skipped.
    if stored.any (· ≠ 0) ∧ ordinaryDigest objectFormat content ≠ stored then
      .error .indexInvalid
    else if slice content 0 4 ≠ some (utf8 "DIRC") then .error .indexInvalid
    else do
      let version ← be32 content 4
      if version < 2 ∨ 4 < version then .error .indexInvalid
      else do
        let count ← be32 content 8
        let read ← (List.range count).foldlM
          (fun read _ => readIndexEntry objectFormat version read) ⟨[], false, content.drop 12⟩
        extensions read.rest
        if read.unexpanded then .error .indexInvalid else .ok ⟨read.entries⟩

end Amiss
