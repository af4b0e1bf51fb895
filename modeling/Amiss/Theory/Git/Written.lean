import Amiss.Theory.Git.Index

/-!
# Index Files as Git Writes Them

The writer of index files, in all three versions, against the reader. An entry
is a fixed part, of known width apart from the second flag word, and a path.
Versions two and three spell the path out and pad it to eight bytes; version
four says how many bytes of the path before it to drop and spells the rest.

`readIndexEntry_written` says what the reader makes of one written entry
without mentioning bytes: it refuses a stage or an intent to add, rebuilds the
path, and takes the entry as a row, unless it is a whole directory or has no
path. What "the path before" means is where writer and reader part. Git
compresses against the entry written just before, while the reader rebuilds
from the last row it kept. The two agree as long as every entry is kept, which
is the round trip `parseIndexFile_rows_roundTrip`. Behind an entry that was not
kept a path can come out wrong, unless what the entry drops and keeps of the
path before fits the last row as well, which is `Resume`.

## Main definitions

* `WrittenEntry`: One entry as Git writes it.
* `indexFile`: A whole index file.
* `Resume`: Every entry spells the same behind the last row.

## Theorems

* `varint_offsetVarint`: Written varints read back.
* `offset_varints_canonical`: The two readers of varints and their spellings.
* `readIndexEntry_written`: What the reader makes of a written entry.
* `parseIndexFile_written`: What the reader makes of a written file.
* `parseIndexFile_rows_roundTrip`: Rows, and what they are written as.
* `Taken.run`: Entries that resume are read to the end.
* `parseIndexFile_unsupported`: When an extension is reported.
-/

namespace Amiss

open Except

open List

open Fallible

/-! ### Numbers -/

/-- The reader of pack entries is the same one. -/
theorem ofsDistance_eq (value : Nat) (byte : UInt8) (rest : Bytes) : ofsDistance value byte rest =
    if byte &&& 0x80 = 0 then .ok (value, rest)
    else (readBelow (2 ^ 64) (value + 1) rest).elim (.error .objectUnreadable) .ok := by
  induction rest generalizing value byte with
  | nil =>
    rw [ofsDistance]
    rfl
  | cons next rest ih =>
    rw [ofsDistance, readBelow_cons]
    generalize (value + 1) * 128 + (next &&& 0x7f).toNat = whole
    refine if_congr Iff.rfl rfl ?_
    dsimp only
    rw [ih]
    repeat' split
    all_goals rfl

theorem parseOfsDistance_eq (bytes : Bytes) : parseOfsDistance bytes =
    (readBelow (2 ^ 64) 0 bytes).elim (.error .objectUnreadable) .ok := by
  cases bytes with
  | nil => rfl
  | cons byte rest =>
    have hlow : (byte &&& 0x7f).toNat < 2 ^ 64 := by
      rw [toNat_and_low]
      omega
    rw [parseOfsDistance, ofsDistance_eq, readBelow_cons, Nat.zero_mul, Nat.zero_add]
    dsimp only
    rw [if_neg (Nat.not_le.mpr hlow)]
    split
    all_goals rfl

theorem varint_offsetVarint {n : Nat} (hn : n < 2 ^ 64) (rest : Bytes) :
    varint 0 (offsetVarint n ++ rest) = .ok (n, rest) := by
  rw [varint_eq, readBelow_offsetVarint hn]
  rfl

/-- Both readers give back what is written and stop behind it, read a number
    from one spelling only, and refuse what reaches 64 bits. -/
theorem offset_varints_canonical :
    (∀ n < 2 ^ 64, ∀ rest, varint 0 (offsetVarint n ++ rest) = .ok (n, rest) ∧
      parseOfsDistance (offsetVarint n ++ rest) = .ok (n, rest)) ∧
    (∀ n left right, (varint 0 left = .ok (n, []) ∨ parseOfsDistance left = .ok (n, [])) →
      (varint 0 right = .ok (n, []) ∨ parseOfsDistance right = .ok (n, [])) → left = right) ∧
    ∀ n bytes rest, readOffset 0 bytes = some (n, rest) → 2 ^ 64 ≤ n →
      varint 0 bytes = .error .indexInvalid ∧
        parseOfsDistance bytes = .error .objectUnreadable := by
  have hspelled {n : Nat} {bytes : Bytes}
      (h : varint 0 bytes = .ok (n, []) ∨ parseOfsDistance bytes = .ok (n, [])) :
      bytes = offsetVarint n := by
    rw [varint_eq, parseOfsDistance_eq] at h
    cases hread : readBelow (2 ^ 64) 0 bytes with
    | none => simp only [hread, Option.elim_none, reduceCtorEq, or_self] at h
    | some read =>
      simp only [hread, Option.elim_some, ok.injEq, or_self] at h
      subst h
      rw [offsetVarint_of_readOffset (Option.filter_eq_some_iff.mp hread).1, append_nil]
  refine ⟨fun n hn rest => ?_, fun n left right hleft hright => ?_, fun n bytes rest hread hn => ?_⟩
  · rw [varint_eq, parseOfsDistance_eq, readBelow_offsetVarint hn]
    exact ⟨rfl, rfl⟩
  · rw [hspelled hleft, hspelled hright]
  · have hnone : readBelow (2 ^ 64) 0 bytes = none := by
      rw [readBelow, hread, Option.filter_some, if_neg (by simpa using hn)]
    rw [varint_eq, parseOfsDistance_eq, hnone]
    exact ⟨rfl, rfl⟩

section Words

variable (before after : Bytes) {offset value : Nat} (hoffset : before.length = offset)
include hoffset

theorem slice_beBytes (width : Nat) :
    slice (before ++ (beBytes width value ++ after)) offset (offset + width) =
      some (beBytes width value) :=
  slice_append before after hoffset (by rw [length_beBytes])

theorem be32_written (hvalue : value < 2 ^ 32) :
    be32 (before ++ (beBytes 4 value ++ after)) offset = .ok value := by
  rw [be32, slice_beBytes before after hoffset, Option.elim_some,
    ofBeBytes_beBytes (by norm_num; omega)]

theorem be16_written (hvalue : value < 2 ^ 16) :
    be16 (before ++ (beBytes 2 value ++ after)) offset = .ok value := by
  rw [be16, slice_beBytes before after hoffset, Option.elim_some,
    ofBeBytes_beBytes (by norm_num; omega)]

end Words

theorem and_high {low high mask width : Nat} (hlow : low < 2 ^ width) :
    (2 ^ width * high + low) &&& (2 ^ width * mask) = 2 ^ width * (high &&& mask) := by
  refine Nat.eq_of_testBit_eq ?_
  intro i
  rw [Nat.testBit_and, Nat.testBit_two_pow_mul_add _ hlow, Nat.testBit_two_pow_mul,
    Nat.testBit_two_pow_mul, Nat.testBit_and]
  by_cases hi : i < width
  · rw [if_pos hi]
    simp [not_le.mpr hi]
  · rw [if_neg hi]
    simp [not_lt.mp hi]

/-! ### The writer -/

/-- What an entry records that no row keeps: the times and the device, the
    owner and the size, the assume-valid bit, and whether the entry starts a
    block, in which no path is compressed against the block before. -/
structure EntryStat where
  times : Bytes
  owner : Bytes
  assumeValid : Bool
  restart : Bool
  timesLength : times.length = 24
  ownerLength : owner.length = 12

/-- One entry as Git writes it. A whole directory has the mode of a tree, and
    the replacement of an entry of a shared index has no path. -/
structure WrittenEntry extends EntryStat where
  mode : GitMode
  oid : Oid
  stage : Fin 4
  intentToAdd : Bool
  skipWorktree : Bool
  path : Bytes

def indexModeBits : GitMode → Nat
  | .tree => 0o040000
  | .regularFile => 0o100644
  | .executableFile => 0o100755
  | .symlink => 0o120000
  | .gitlink => 0o160000

/-- The length of the longest common beginning. -/
def commonLength : Bytes → Bytes → Nat
  | left :: lefts, right :: rights => if left = right then commonLength lefts rights + 1 else 0
  | _, _ => 0

namespace WrittenEntry

variable (entry : WrittenEntry)

/-- A second word of flags follows. -/
def extended : Bool := entry.intentToAdd || entry.skipWorktree

def highFlags : Nat :=
  (if entry.assumeValid then 8 else 0) + (if entry.extended then 4 else 0) + entry.stage

/-- The flags: four bits, and the length of the path as far as it fits. -/
def flags : Nat := 2 ^ 12 * entry.highFlags + min entry.path.length 0x0fff

def extendedFlags : Nat :=
  (if entry.skipWorktree then 0x4000 else 0) + (if entry.intentToAdd then 0x2000 else 0)

def extendedWord : Bytes := if entry.extended then beBytes 2 entry.extendedFlags else []

/-- What precedes the flags. -/
def fixedPart : Bytes :=
  entry.times ++ (beBytes 4 (indexModeBits entry.mode) ++ (entry.owner ++ entry.oid.toRaw))

/-- How many bytes of the path before it an entry keeps. -/
def shared (previous : Bytes) : Nat :=
  if entry.restart then 0 else commonLength previous entry.path

/-- How many bytes of the path before it an entry drops. -/
def strip (previous : Bytes) : Nat := previous.length - entry.shared previous

/-- Where the path begins. -/
def pathAt : Nat := entry.fixedPart.length + 2 + entry.extendedWord.length

/-- The path as an entry spells it behind another entry. -/
def spelled (version : Nat) (previous : Bytes) : Bytes :=
  if version = 4 then
    offsetVarint (entry.strip previous) ++ (entry.path.drop (entry.shared previous) ++ [0])
  else entry.path ++ List.replicate (8 - (entry.pathAt + entry.path.length) % 8) 0

/-- An entry behind another entry. -/
def write (version : Nat) (previous : Bytes) : Bytes :=
  entry.fixedPart ++ (beBytes 2 entry.flags ++ (entry.extendedWord ++
    entry.spelled version previous))

/-- What the format asks of an entry. -/
@[mk_iff]
structure Writable (objectFormat : ObjectFormat) (version : Nat) : Prop where
  nulFree : 0 ∉ entry.path
  short : entry.path.length < 2 ^ 64
  format : entry.oid.objectFormat = objectFormat
  plain : version = 2 → entry.extended = false

end WrittenEntry

/-- Entries, each behind the one before. -/
def writeEntries (version : Nat) : Bytes → List WrittenEntry → Bytes
  | _, [] => []
  | previous, entry :: entries =>
    entry.write version previous ++ writeEntries version entry.path entries

structure IndexExtension where
  signature : Bytes
  payload : Bytes
  signatureLength : signature.length = 4
  payloadLength : payload.length < 2 ^ 32

namespace IndexExtension

variable (extension : IndexExtension)

/-- A reader that does not know the extension may skip it. -/
def optional : Bool := extension.signature.head?.any (fun byte => 65 ≤ byte ∧ byte ≤ 90)

/-- The extension of a split index or of a sparse one. -/
def unexpandable : Bool :=
  extension.signature = utf8 "link" ∨ extension.signature = utf8 "sdir"

def write : Bytes :=
  extension.signature ++ (beBytes 4 extension.payload.length ++ extension.payload)

end IndexExtension

/-- What precedes the checksum. -/
def indexContent (version : Nat) (entries : List WrittenEntry)
    (extensions : List IndexExtension) : Bytes :=
  utf8 "DIRC" ++ (beBytes 4 version ++ (beBytes 4 entries.length ++
    (writeEntries version [] entries ++ extensions.flatMap IndexExtension.write)))

/-- An index file, with its checksum or with the zeros that stand for none. -/
def indexFile (ordinaryDigest : ObjectFormat → Bytes → Bytes) (objectFormat : ObjectFormat)
    (version : Nat) (entries : List WrittenEntry) (extensions : List IndexExtension)
    (checked : Bool) : Bytes :=
  indexContent version entries extensions ++
    if checked then ordinaryDigest objectFormat (indexContent version entries extensions)
    else List.replicate objectFormat.oidWidth 0

/-! ### One entry -/

namespace WrittenEntry

variable {entry : WrittenEntry}

theorem indexModeBits_lt (mode : GitMode) : indexModeBits mode < 2 ^ 32 := by
  cases mode <;> norm_num [indexModeBits]

theorem fileMode_indexModeBits (mode : GitMode) :
    fileMode (indexModeBits mode) = .ok (if mode = .tree then none else some mode) := by
  cases mode <;> rfl

variable {objectFormat : ObjectFormat}

theorem length_fixedPart (h : entry.oid.objectFormat = objectFormat) :
    entry.fixedPart.length = 40 + objectFormat.oidWidth := by
  have hwidth := (Oid.raw_eq_hexText entry.oid).2
  rw [h] at hwidth
  simp only [fixedPart, length_append, entry.timesLength, entry.ownerLength, length_beBytes, hwidth]
  omega

theorem highFlags_lt : entry.highFlags < 16 := by
  have hstage := entry.stage.isLt
  unfold highFlags
  split <;> split <;> omega

theorem min_lt : min entry.path.length 0x0fff < 2 ^ 12 :=
  lt_of_le_of_lt (Nat.min_le_right _ _) (by norm_num)

theorem flags_lt : entry.flags < 2 ^ 16 := by
  have hhigh := entry.highFlags_lt
  have hlow := entry.min_lt
  unfold flags
  omega

theorem flags_and (mask : Nat) :
    entry.flags &&& (2 ^ 12 * mask) = 2 ^ 12 * (entry.highFlags &&& mask) :=
  and_high entry.min_lt

theorem stage_bits : entry.flags &&& 0x3000 ≠ 0 ↔ entry.stage ≠ 0 := by
  have hall : ∀ (a b : Bool) (s : Fin 4),
      (2 ^ 12 * (((if a then 8 else 0) + (if b then 4 else 0) + s.val) &&& 3) ≠ 0 ↔ s ≠ 0) := by
    decide
  rw [show (0x3000 : Nat) = 2 ^ 12 * 3 from rfl, flags_and]
  exact hall entry.assumeValid entry.extended entry.stage

theorem extended_bit : entry.flags &&& 0x4000 = 0 ↔ entry.extended = false := by
  have hall : ∀ (a b : Bool) (s : Fin 4),
      (2 ^ 12 * (((if a then 8 else 0) + (if b then 4 else 0) + s.val) &&& 4) = 0 ↔ b = false) := by
    decide
  rw [show (0x4000 : Nat) = 2 ^ 12 * 4 from rfl, flags_and]
  exact hall entry.assumeValid entry.extended entry.stage

theorem name_bits : entry.flags &&& 0x0fff = min entry.path.length 0x0fff := by
  have hmod : entry.flags &&& 0x0fff = entry.flags % 2 ^ 12 :=
    Nat.and_two_pow_sub_one_eq_mod entry.flags 12
  have hlow := entry.min_lt
  rw [hmod]
  unfold flags
  omega

theorem extendedFlags_bits : entry.extendedFlags < 2 ^ 16 ∧ entry.extendedFlags &&& 0x8000 = 0 ∧
    (entry.extendedFlags &&& 0x2000 ≠ 0 ↔ entry.intentToAdd = true) ∧
    (entry.extendedFlags &&& 0x4000 ≠ 0 ↔ entry.skipWorktree = true) := by
  unfold extendedFlags
  cases entry.skipWorktree <;> cases entry.intentToAdd <;> decide

theorem entryFlags_written {version : Nat} (hok : entry.Writable objectFormat version)
    (after : Bytes) :
    entryFlags (entry.fixedPart ++ (beBytes 2 entry.flags ++ (entry.extendedWord ++ after)))
      version (40 + objectFormat.oidWidth) =
      if entry.stage ≠ 0 then .error .indexUnmerged
      else if entry.intentToAdd then .error .intentToAdd
      else .ok (entry.flags, entry.skipWorktree, entry.pathAt) := by
  have hfixed := length_fixedPart hok.format
  unfold entryFlags
  rw [be16_written _ _ hfixed entry.flags_lt, ok_bind]
  by_cases hstage : entry.stage = 0
  · rw [if_neg (by rw [stage_bits]; exact not_not.mpr hstage), if_neg (not_not.mpr hstage)]
    by_cases hextended : entry.extended = false
    · have hnone := hextended
      simp only [extended, Bool.or_eq_false_iff] at hnone
      rw [if_pos (extended_bit.mpr hextended), hnone.1, hnone.2, if_neg Bool.false_ne_true]
      simp [pathAt, extendedWord, hextended, hfixed]
    · have hword : entry.extendedWord = beBytes 2 entry.extendedFlags := by
        rw [extendedWord, if_pos (Bool.eq_true_of_not_eq_false hextended)]
      have hversion : version ≠ 2 := fun h => hextended (hok.plain h)
      have hsecond : be16 (entry.fixedPart ++ (beBytes 2 entry.flags ++
          (entry.extendedWord ++ after))) (40 + objectFormat.oidWidth + 2) =
          .ok entry.extendedFlags := by
        rw [hword, ← append_assoc]
        refine be16_written _ _ ?_ extendedFlags_bits.1
        rw [length_append, hfixed, length_beBytes]
      rw [if_neg (by rw [extended_bit]; exact hextended), if_neg hversion, hsecond,
        ok_bind, if_neg (not_not.mpr extendedFlags_bits.2.1)]
      simp only [extendedFlags_bits.2.2.1, extendedFlags_bits.2.2.2]
      split
      · rfl
      · simp [pathAt, hword, hfixed, length_beBytes]
  · rw [if_pos (stage_bits.mpr hstage), if_pos hstage]

/-- The path the reader rebuilds for an entry, where `previous` is the path
    written just before and `last` the one the reader kept. -/
def readPath (entry : WrittenEntry) (version : Nat) (previous last : Bytes) : Option Bytes :=
  if version = 4 then
    if last.length < entry.strip previous then none
    else some (last.take (last.length - entry.strip previous) ++
      entry.path.drop (entry.shared previous))
  else some entry.path

theorem entryPath_written {version : Nat} (hok : entry.Writable objectFormat version)
    {before : Bytes} (hbefore : before.length = entry.pathAt) {previous : Bytes}
    (hprevious : previous.length < 2 ^ 64) (last after : Bytes) :
    entryPath (before ++ (entry.spelled version previous ++ after)) version entry.pathAt
      entry.flags last =
      (entry.readPath version previous last).elim (.error .indexInvalid)
        (fun path => .ok (path, after)) := by
  have hdrop : (before ++ (entry.spelled version previous ++ after)).drop entry.pathAt =
      entry.spelled version previous ++ after := by
    rw [← hbefore, drop_left]
  unfold entryPath readPath
  rw [hdrop]
  by_cases hversion : version = 4
  · have hstrip : entry.strip previous < 2 ^ 64 := lt_of_le_of_lt (Nat.sub_le _ _) hprevious
    have hsuffix : 0 ∉ entry.path.drop (entry.shared previous) := by
      intro hmem
      exact hok.nulFree (mem_of_mem_drop hmem)
    rw [if_pos hversion, if_pos hversion, spelled, if_pos hversion, append_assoc,
      varint_offsetVarint hstrip, ok_bind, append_assoc, singleton_append]
    simp only [cutAt_append hsuffix]
    split
    · rfl
    · rfl
  · obtain ⟨zeros, hpad⟩ : ∃ zeros, 8 - (entry.pathAt + entry.path.length) % 8 = zeros + 1 :=
      ⟨7 - (entry.pathAt + entry.path.length) % 8, by omega⟩
    have hspelled : entry.spelled version previous =
        entry.path ++ List.replicate (zeros + 1) 0 := by
      rw [spelled, if_neg hversion, hpad]
    have hname : ¬ (entry.flags &&& 0x0fff < 0x0fff ∧
        entry.flags &&& 0x0fff ≠ entry.path.length) := by
      rw [name_bits]
      omega
    have hslice : slice (before ++ (entry.spelled version previous ++ after))
        (entry.pathAt + entry.path.length) (entry.pathAt + entry.path.length + (zeros + 1)) =
        some (List.replicate (zeros + 1) 0) := by
      rw [hspelled, append_assoc, ← append_assoc before]
      refine slice_append _ _ ?_ ?_
      · rw [length_append, hbefore]
      · rw [length_replicate]
    have hbehind : (before ++ (entry.spelled version previous ++ after)).drop
        (entry.pathAt + entry.path.length + (zeros + 1)) = after := by
      rw [← append_assoc]
      refine drop_left' ?_
      rw [length_append, hbefore, hspelled, length_append, length_replicate, Nat.add_assoc]
    have hcut : cutAt 0 (entry.spelled version previous ++ after) =
        some (entry.path, List.replicate zeros 0 ++ after) := by
      rw [hspelled, replicate_succ, append_assoc, cons_append, cutAt_append hok.nulFree]
    rw [if_neg hversion, if_neg hversion, hcut]
    simp only [hpad]
    rw [if_neg hname, if_pos hslice, hbehind]
    rfl

end WrittenEntry

/-- What the reader makes of an entry, without its bytes: the rows so far and
    whether an entry was left unexpanded. -/
def takeEntry (version : Nat) (previous : Bytes) (kept : List IndexEntry) (unexpanded : Bool)
    (entry : WrittenEntry) : Except GitDefect (List IndexEntry × Bool) :=
  if entry.stage ≠ 0 then .error .indexUnmerged
  else if entry.intentToAdd then .error .intentToAdd
  else
    (entry.readPath version previous (lastPath kept)).elim (.error .indexInvalid) (fun path =>
      if entry.mode = .tree ∨ path = [] then .ok (kept, true)
      else (pushIndexEntry kept ⟨path, entry.mode, entry.oid, entry.skipWorktree⟩).map
        (fun extended => (extended, unexpanded)))

section Written

variable {objectFormat : ObjectFormat} {version : Nat} {entry : WrittenEntry}

variable {previous : Bytes}

theorem takeEntry_of_plain {kept : List IndexEntry} {unexpanded : Bool} (hstage : entry.stage = 0)
    (hintent : entry.intentToAdd = false) :
    takeEntry version previous kept unexpanded entry =
      (entry.readPath version previous (lastPath kept)).elim (.error .indexInvalid) (fun path =>
        if entry.mode = .tree ∨ path = [] then .ok (kept, true)
        else (pushIndexEntry kept ⟨path, entry.mode, entry.oid, entry.skipWorktree⟩).map
          (fun extended => (extended, unexpanded))) := by
  unfold takeEntry
  rw [if_neg (not_not.mpr hstage), if_neg (Bool.eq_false_iff.mp hintent)]

/-- The parts of a written entry, the fixed one first. -/
theorem WrittenEntry.write_append (previous after : Bytes) :
    entry.write version previous ++ after = entry.fixedPart ++ (beBytes 2 entry.flags ++
      (entry.extendedWord ++ (entry.spelled version previous ++ after))) := by
  simp [WrittenEntry.write]

theorem be32_mode_written (previous after : Bytes) :
    be32 (entry.write version previous ++ after) 24 = .ok (indexModeBits entry.mode) := by
  rw [WrittenEntry.write_append, WrittenEntry.fixedPart, append_assoc, append_assoc]
  exact be32_written _ _ entry.timesLength (WrittenEntry.indexModeBits_lt entry.mode)

theorem oid_written (hformat : entry.oid.objectFormat = objectFormat) (previous after : Bytes) :
    (slice (entry.write version previous ++ after) 40 (40 + objectFormat.oidWidth)).bind
      (Oid.ofRaw objectFormat) = some entry.oid := by
  have hwidth : 40 + entry.oid.toRaw.length = 40 + objectFormat.oidWidth := by
    rw [(Oid.raw_eq_hexText entry.oid).2, hformat]
  have hbefore : (entry.times ++ (beBytes 4 (indexModeBits entry.mode) ++ entry.owner)).length =
      40 := by
    simp [entry.timesLength, entry.ownerLength, length_beBytes]
  have hsplit : entry.write version previous ++ after =
      (entry.times ++ (beBytes 4 (indexModeBits entry.mode) ++ entry.owner)) ++
        (entry.oid.toRaw ++ (beBytes 2 entry.flags ++ (entry.extendedWord ++
          (entry.spelled version previous ++ after)))) := by
    rw [WrittenEntry.write_append]
    simp [WrittenEntry.fixedPart]
  rw [hsplit, slice_append _ _ hbefore hwidth, Option.bind_some, Oid.ofRaw_eq_some_iff]
  exact ⟨hformat, rfl⟩

theorem path_written (hok : entry.Writable objectFormat version)
    (hprevious : previous.length < 2 ^ 64) (last after : Bytes) :
    entryPath (entry.write version previous ++ after) version entry.pathAt entry.flags last =
      (entry.readPath version previous last).elim (.error .indexInvalid)
        (fun path => .ok (path, after)) := by
  have hsplit : entry.write version previous ++ after =
      (entry.fixedPart ++ (beBytes 2 entry.flags ++ entry.extendedWord)) ++
        (entry.spelled version previous ++ after) := by
    rw [WrittenEntry.write_append]
    simp
  rw [hsplit]
  refine WrittenEntry.entryPath_written hok ?_ hprevious last after
  simp [length_beBytes, WrittenEntry.pathAt, Nat.add_assoc]

/-- One written entry is read as `takeEntry` says, and exactly its bytes are
    used up. -/
theorem readIndexEntry_written (hok : entry.Writable objectFormat version)
    (hprevious : previous.length < 2 ^ 64) (kept : List IndexEntry) (unexpanded : Bool)
    (after : Bytes) :
    readIndexEntry objectFormat version ⟨kept, unexpanded, entry.write version previous ++ after⟩ =
      (takeEntry version previous kept unexpanded entry).map
        (fun taken => ⟨taken.1, taken.2, after⟩) := by
  have hflags := WrittenEntry.entryFlags_written hok (entry.spelled version previous ++ after)
  rw [← WrittenEntry.write_append] at hflags
  unfold readIndexEntry takeEntry
  simp only [be32_mode_written, ok_bind, WrittenEntry.fileMode_indexModeBits,
    oid_written hok.format, hflags]
  split
  · rfl
  split
  · rfl
  simp only [ok_bind, path_written hok hprevious, lastPath]
  cases entry.readPath version previous (kept.getLast?.elim [] IndexEntry.path) with
  | none => rfl
  | some path =>
    simp only [Option.elim_some, ok_bind]
    by_cases htree : entry.mode = .tree
    · rw [if_pos htree, if_pos (Or.inl htree)]
      rfl
    rw [if_neg htree]
    by_cases hempty : path = []
    · rw [if_pos (Or.inr hempty)]
      simp only [hempty, ne_eq, not_true_eq_false, decide_false, Option.filter_some,
        Bool.false_eq_true, if_false]
      rfl
    · rw [if_neg (not_or.mpr ⟨htree, hempty⟩)]
      simp only [hempty, ne_eq, not_false_eq_true, decide_true, Option.filter_some, if_true]
      cases pushIndexEntry kept ⟨path, entry.mode, entry.oid, entry.skipWorktree⟩ with
      | error defect => rfl
      | ok extended => rfl

end Written

/-! ### Whole files -/

/-- What the reader makes of a run of entries. -/
def takeEntries (version : Nat) : Bytes → List IndexEntry × Bool → List WrittenEntry →
    Except GitDefect (List IndexEntry × Bool)
  | _, taken, [] => .ok taken
  | previous, taken, entry :: entries => do
    let next ← takeEntry version previous taken.1 taken.2 entry
    takeEntries version entry.path next entries

theorem foldlM_readIndexEntry_written {objectFormat : ObjectFormat} {version : Nat}
    (after : Bytes) {entries : List WrittenEntry} :
    ∀ {rounds : List Nat} {previous : Bytes} (taken : List IndexEntry × Bool),
      rounds.length = entries.length → previous.length < 2 ^ 64 →
      (∀ entry ∈ entries, entry.Writable objectFormat version) →
      rounds.foldlM (fun read _ => readIndexEntry objectFormat version read)
        ⟨taken.1, taken.2, writeEntries version previous entries ++ after⟩ =
      (takeEntries version previous taken entries).map
        (fun taken => ⟨taken.1, taken.2, after⟩) := by
  induction entries with
  | nil =>
    intro rounds previous taken hlength _ _
    rw [eq_nil_of_length_eq_zero hlength]
    rfl
  | cons entry entries ih =>
    intro rounds previous taken hlength hprevious hok
    rcases forall_mem_cons.mp hok with ⟨hentry, hentries⟩
    cases rounds with
    | nil => exact absurd hlength (by simp only [length_nil, length_cons]; omega)
    | cons round rounds =>
      rw [length_cons, length_cons, Nat.add_right_cancel_iff] at hlength
      rw [foldlM_cons, writeEntries, append_assoc,
        readIndexEntry_written hentry hprevious, takeEntries]
      cases takeEntry version previous taken.1 taken.2 entry with
      | error defect => rfl
      | ok next =>
        simp only [Except.map, ok_bind]
        exact ih next hlength hentry.short hentries

/-- What the reader makes of an extension. -/
def skipExtension (extension : IndexExtension) : Except GitDefect Unit :=
  if extension.signature = utf8 "link" ∨ extension.signature = utf8 "sdir" then
    .error .indexFormatUnsupported
  else if extension.signature.head?.any (fun byte => 65 ≤ byte ∧ byte ≤ 90) then .ok ()
  else .error .indexInvalid

theorem skipExtension_of_unexpandable {extension : IndexExtension}
    (h : extension.unexpandable = true) :
    skipExtension extension = .error .indexFormatUnsupported :=
  if_pos (decide_eq_true_eq.mp h)

theorem skipExtension_of_optional {extension : IndexExtension} (h : extension.optional = true)
    (hexpandable : extension.unexpandable = false) : skipExtension extension = .ok () := by
  unfold skipExtension
  rw [if_neg (of_decide_eq_false hexpandable)]
  exact if_pos h

theorem readExtension_written (extension : IndexExtension) (rest : Bytes) :
    readExtension (extension.write ++ rest) = (skipExtension extension).map (fun _ => rest) := by
  have hwritten : extension.write ++ rest = extension.signature ++
      (beBytes 4 extension.payload.length ++ (extension.payload ++ rest)) := by
    simp [IndexExtension.write]
  have hsignature : slice (extension.write ++ rest) 0 4 = some extension.signature := by
    rw [hwritten]
    exact slice_append [] _ rfl (by rw [extension.signatureLength])
  have hlength : be32 (extension.write ++ rest) 4 = .ok extension.payload.length := by
    rw [hwritten]
    exact be32_written _ _ extension.signatureLength extension.payloadLength
  have hwithin : ¬ (extension.write ++ rest).length < 8 + extension.payload.length := by
    rw [hwritten]
    simp only [length_append, extension.signatureLength, length_beBytes]
    omega
  have hdrop : (extension.write ++ rest).drop (8 + extension.payload.length) = rest := by
    have hwhole : extension.write.length = 8 + extension.payload.length := by
      simp only [IndexExtension.write, length_append, extension.signatureLength, length_beBytes]
      omega
    rw [← hwhole, drop_left]
  unfold readExtension skipExtension
  simp only [hsignature, hlength, ok_bind, if_neg hwithin, hdrop]
  split
  · rfl
  split
  · rfl
  · rfl

theorem extensions_written (appended : List IndexExtension) :
    extensions (appended.flatMap IndexExtension.write) =
      appended.foldlM (fun _ extension => skipExtension extension) () := by
  have hread : ∀ (s : Unit) (extension : IndexExtension) (rest : Bytes),
      (do
        let after ← readExtension (extension.write ++ rest)
        pure ((), after)) = (skipExtension extension).map (fun t => (t, rest)) := by
    intro s extension rest
    rw [readExtension_written]
    cases skipExtension extension with
    | error defect => rfl
    | ok t => rfl
  have hwrite : ∀ extension : IndexExtension, extension.write ≠ [] := by
    intro extension hempty
    have hlength := congrArg List.length hempty
    simp only [IndexExtension.write, length_append, extension.signatureLength,
      length_nil] at hlength
    omega
  exact consume_flatMap hread hwrite appended _ () le_rfl

section File

variable {ordinaryDigest : ObjectFormat → Bytes → Bytes} {objectFormat : ObjectFormat}
  {version : Nat} {entries : List WrittenEntry} {appended : List IndexExtension} {checked : Bool}

/-- What the reader makes of a file, without its bytes. -/
theorem parseIndexFile_written (hversion : 2 ≤ version ∧ version ≤ 4)
    (hcount : entries.length < 2 ^ 32)
    (hentries : ∀ entry ∈ entries, entry.Writable objectFormat version)
    (hdigest : ∀ content, (ordinaryDigest objectFormat content).length = objectFormat.oidWidth) :
    parseIndexFile ordinaryDigest objectFormat
      (indexFile ordinaryDigest objectFormat version entries appended checked) = (do
        let taken ← takeEntries version [] ([], false) entries
        appended.foldlM (fun _ extension => skipExtension extension) ()
        if taken.2 then .error .indexInvalid else .ok ⟨taken.1⟩) := by
  have hsplit : ∃ trailer, indexFile ordinaryDigest objectFormat version entries appended checked =
      indexContent version entries appended ++ trailer ∧ trailer.length = objectFormat.oidWidth ∧
      ¬ (trailer.any (· ≠ 0) = true ∧
        ordinaryDigest objectFormat (indexContent version entries appended) ≠ trailer) := by
    refine ⟨_, rfl, ?_, ?_⟩
    · cases checked with
      | true => exact hdigest _
      | false => exact length_replicate
    · cases checked with
      | true => exact fun h => h.2 rfl
      | false =>
        rintro ⟨hnonzero, -⟩
        rw [if_neg Bool.false_ne_true, any_eq_true] at hnonzero
        rcases hnonzero with ⟨byte, hbyte, hne⟩
        rw [(mem_replicate.mp hbyte).2] at hne
        exact absurd hne (by decide)
  rcases hsplit with ⟨trailer, hfile, hlength, hchecked⟩
  obtain ⟨content, hcontent⟩ : ∃ content, indexContent version entries appended = content :=
    ⟨_, rfl⟩
  rw [hcontent] at hfile hchecked
  have hcontentLength : (content ++ trailer).length - objectFormat.oidWidth = content.length := by
    rw [length_append, hlength, Nat.add_sub_cancel]
  have hsignature : slice content 0 4 = some (utf8 "DIRC") := by
    rw [← hcontent, indexContent, ← nil_append (utf8 "DIRC" ++ _)]
    exact slice_append [] _ rfl rfl
  have hreadVersion : be32 content 4 = .ok version :=
    hcontent ▸ be32_written _ _ rfl (by omega)
  have hreadCount : be32 content 8 = .ok entries.length := by
    rw [← hcontent, indexContent, ← append_assoc]
    refine be32_written _ _ ?_ hcount
    rw [length_append, length_beBytes]
    rfl
  have hdrop : content.drop 12 =
      writeEntries version [] entries ++ appended.flatMap IndexExtension.write := by
    have hhead : (utf8 "DIRC" ++ (beBytes 4 version ++ beBytes 4 entries.length)).length = 12 := by
      simp only [length_append, length_beBytes]
      rfl
    rw [← hcontent, indexContent, ← hhead]
    simp only [← append_assoc]
    rw [append_assoc _ (writeEntries version [] entries), drop_left]
  have hrun : (List.range entries.length).foldlM
      (fun read _ => readIndexEntry objectFormat version read) ⟨[], false,
        writeEntries version [] entries ++ appended.flatMap IndexExtension.write⟩ = _ :=
    foldlM_readIndexEntry_written _ ([], false) length_range (by norm_num) hentries
  unfold parseIndexFile
  rw [hfile, if_neg (by rw [length_append, hlength]; omega)]
  simp only [hcontentLength, take_left, drop_left]
  rw [if_neg hchecked, if_neg (not_not.mpr hsignature), hreadVersion, ok_bind,
    if_neg (by omega), hreadCount, ok_bind, hdrop]
  rw [hrun]
  cases takeEntries version [] ([], false) entries with
  | error defect => rfl
  | ok taken =>
    simp only [Except.map, ok_bind]
    rw [extensions_written]

/-! ### Rows and their encodings -/

theorem commonLength_spec (left right : Bytes) : commonLength left right ≤ left.length ∧
    left.take (commonLength left right) = right.take (commonLength left right) := by
  fun_induction commonLength left right with
  | case1 left lefts rights ih =>
    rw [take_succ_cons, take_succ_cons, ih.2]
    exact ⟨Nat.succ_le_succ ih.1, rfl⟩
  | case2 | case3 => exact ⟨Nat.zero_le _, rfl⟩

/-- Behind a path that is as long as the one it was compressed against, and
    begins alike, a path is rebuilt as it was. -/
theorem WrittenEntry.readPath_alike {entry : WrittenEntry} {previous last : Bytes} (version : Nat)
    (hlength : last.length = previous.length)
    (hsame : last.take (entry.shared previous) = previous.take (entry.shared previous)) :
    entry.readPath version previous last = some entry.path := by
  have hshared : entry.shared previous ≤ previous.length ∧
      previous.take (entry.shared previous) = entry.path.take (entry.shared previous) := by
    unfold WrittenEntry.shared
    split
    · exact ⟨Nat.zero_le _, rfl⟩
    · exact commonLength_spec previous entry.path
  have hkept : last.length - entry.strip previous = entry.shared previous := by
    unfold WrittenEntry.strip
    omega
  unfold WrittenEntry.readPath
  split
  · rw [if_neg (by unfold WrittenEntry.strip; omega), hkept, hsame, hshared.2, take_append_drop]
  · rfl

/-- A row as an entry. -/
def IndexEntry.written (row : IndexEntry) (stat : EntryStat) : WrittenEntry :=
  { stat with
    mode := row.mode, oid := row.oid, stage := 0, intentToAdd := false,
    skipWorktree := row.skipWorktree, path := row.path }

theorem lastPath_concat (rows : List IndexEntry) (row : IndexEntry) :
    lastPath (rows ++ [row]) = row.path := by
  rw [lastPath, getLast?_concat, Option.elim_some]

theorem takeEntries_rows (stat : IndexEntry → EntryStat) {rows : List IndexEntry} :
    ∀ done : List IndexEntry, RowsOrdered (done ++ rows) →
      (∀ row ∈ done ++ rows, row.Storable objectFormat) →
      takeEntries version (lastPath done) (done, false)
        (rows.map (fun row => row.written (stat row))) = .ok (done ++ rows, false) := by
  induction rows with
  | nil =>
    intro done _ _
    rw [append_nil]
    rfl
  | cons row rows ih =>
    intro done hordered hstorable
    have hassoc : done ++ row :: rows = (done ++ [row]) ++ rows := by
      rw [append_assoc, singleton_append]
    rw [hassoc] at hordered hstorable
    have hbeginning : ∀ {xs : List IndexEntry}, xs <+: (done ++ [row]) ++ rows →
        RowsOrdered xs := by
      intro xs hxs
      refine ⟨hordered.increasing.sublist (hxs.sublist.map _), ?_⟩
      intro above habove below hbelow
      exact hordered.separate above (hxs.mem habove) below (hxs.mem hbelow)
    have hdone : RowsOrdered done :=
      hbeginning ⟨[row] ++ rows, by rw [append_assoc]⟩
    have hnext : RowsOrdered (done ++ [row]) := hbeginning ⟨rows, rfl⟩
    have hrow : row.Storable objectFormat := hstorable row (by simp)
    have hnamed : ∀ other ∈ done, other.path ≠ [] := by
      intro other hother
      exact (hstorable other (mem_append_left _ (mem_append_left _ hother))).named
    have hpush : pushIndexEntry done row = .ok (done ++ [row]) :=
      (pushIndexEntry_eq_ok_iff hdone hnamed).mpr ⟨rfl, hnext⟩
    have htake : takeEntry version (lastPath done) done false (row.written (stat row)) =
        .ok (done ++ [row], false) := by
      have hrowKept : ¬ ((row.written (stat row)).mode = .tree ∨
          (row.written (stat row)).path = []) := not_or.mpr ⟨hrow.file, hrow.named⟩
      rw [takeEntry_of_plain rfl rfl, WrittenEntry.readPath_alike version rfl rfl, Option.elim_some,
        if_neg hrowKept]
      exact congrArg (Except.map _) hpush
    have hrest := ih (done ++ [row]) hordered hstorable
    rw [lastPath_concat] at hrest
    rw [map_cons, takeEntries, htake, ok_bind, hassoc]
    exact hrest

theorem foldlM_skipExtension_optional (hoptional : ∀ extension ∈ appended,
    extension.optional = true ∧ extension.unexpandable = false) :
    appended.foldlM (fun _ extension => skipExtension extension) () = .ok () := by
  induction appended with
  | nil => rfl
  | cons extension appended ih =>
    rcases forall_mem_cons.mp hoptional with ⟨hextension, hrest⟩
    rw [foldlM_cons, skipExtension_of_optional hextension.1 hextension.2, ok_bind]
    exact ih hrest

end File

/-- The rows of an accepted index are strictly increasing, unique and none is
    a directory above another, and the format can store them. Conversely such
    rows, written in any version that has room for their flags, with whatever
    else an entry records, any optional extensions and a checksum or none, are
    read back as they were: versions two, three and four give the same rows. -/
theorem parseIndexFile_rows_roundTrip (ordinaryDigest : ObjectFormat → Bytes → Bytes)
    (objectFormat : ObjectFormat)
    (hdigest : ∀ content, (ordinaryDigest objectFormat content).length = objectFormat.oidWidth) :
    (∀ bytes index, parseIndexFile ordinaryDigest objectFormat bytes = .ok index →
      (index.entries.map (fun row => spellingOf row.path)).Pairwise (· < ·) ∧
      (index.entries.map IndexEntry.path).Nodup ∧
      (∀ row ∈ index.entries, ∀ other ∈ index.entries, ¬ row.path ++ [47] <+: other.path) ∧
      (∀ row ∈ index.entries, row.Storable objectFormat ∧ row.path.length ≤ bytes.length) ∧
      index.entries.length < 2 ^ 32) ∧
    ∀ (rows : List IndexEntry) (stat : IndexEntry → EntryStat) (version : Nat)
      (appended : List IndexExtension) (checked : Bool),
      RowsOrdered rows → (∀ row ∈ rows, row.Storable objectFormat ∧ row.path.length < 2 ^ 64) →
      rows.length < 2 ^ 32 → 2 ≤ version ∧ version ≤ 4 →
      (version = 2 → ∀ row ∈ rows, row.skipWorktree = false) →
      (∀ extension ∈ appended, extension.optional = true ∧ extension.unexpandable = false) →
      parseIndexFile ordinaryDigest objectFormat (indexFile ordinaryDigest objectFormat version
        (rows.map (fun row => row.written (stat row))) appended checked) = .ok ⟨rows⟩ := by
  constructor
  · intro bytes index h
    rcases parseIndexFile_rows h with ⟨hordered, hstorable, hshort, hcount⟩
    refine ⟨hordered.increasing, hordered.unique, hordered.separate, ?_, hcount⟩
    intro row hrow
    exact ⟨hstorable row hrow, hshort row hrow⟩
  · intro rows stat version appended checked hordered hstorable hcount hversion hplain hoptional
    have hwritable : ∀ entry ∈ rows.map (fun row => row.written (stat row)),
        entry.Writable objectFormat version := by
      intro entry hentry
      rcases mem_map.mp hentry with ⟨row, hrow, rfl⟩
      rcases hstorable row hrow with ⟨hrowStorable, hrowShort⟩
      refine ⟨hrowStorable.nulFree, hrowShort, hrowStorable.format, ?_⟩
      intro hold
      exact hplain hold row hrow
    have htaken : takeEntries version [] ([], false)
        (rows.map (fun row => row.written (stat row))) = .ok (rows, false) :=
      takeEntries_rows stat [] hordered (fun row hrow => (hstorable row hrow).1)
    rw [parseIndexFile_written hversion (by rw [length_map]; exact hcount) hwritable hdigest,
      htaken, ok_bind, foldlM_skipExtension_optional hoptional, ok_bind]
    rfl

/-- An entry that records nothing but its row. -/
def blankStat : EntryStat := ⟨List.replicate 24 0, List.replicate 12 0, false, false, rfl, rfl⟩

def zeroOid : Oid := ⟨.sha1, String.ofList (List.replicate 40 '0'), oidHex_zeros⟩

def zeroDigest (objectFormat : ObjectFormat) (_ : Bytes) : Bytes :=
  List.replicate objectFormat.oidWidth 0

theorem length_zeroDigest (objectFormat : ObjectFormat) (content : Bytes) :
    (zeroDigest objectFormat content).length = objectFormat.oidWidth := List.length_replicate

/-- Two files of one directory, the second outside the worktree. -/
def docsRows : List IndexEntry :=
  [⟨utf8 "docs/a.md", .regularFile, zeroOid, false⟩, ⟨utf8 "docs/b.md", .symlink, zeroOid, true⟩]

theorem parseIndexFile_rows_roundTrip_docs :
    parseIndexFile zeroDigest .sha1 (indexFile zeroDigest .sha1 4
      (docsRows.map (fun row => row.written blankStat)) [] true) = .ok ⟨docsRows⟩ := by
  refine (parseIndexFile_rows_roundTrip zeroDigest .sha1 (length_zeroDigest .sha1)).2 docsRows
    (fun _ => blankStat) 4 [] true ⟨by decide, by decide⟩ ?_ (by decide) (by decide) ?_ ?_
  · intro row hrow
    simp only [docsRows, mem_cons, not_mem_nil, or_false] at hrow
    rcases hrow with rfl | rfl
    · exact ⟨⟨by decide, by decide, by decide, rfl⟩, by decide⟩
    · exact ⟨⟨by decide, by decide, by decide, rfl⟩, by decide⟩
  · intro hversion
    exact absurd hversion (by decide)
  · simp

/-! ### Extensions that are not expanded -/

/-- An entry of stage zero that a reader keeps as a row. -/
def WrittenEntry.isRow (entry : WrittenEntry) : Bool :=
  entry.mode ≠ .tree ∧ entry.path ≠ [] ∧ entry.stage = 0

/-- The path of the last of some entries, empty where there is none. -/
def pathBehind (entries : List WrittenEntry) : Bytes :=
  entries.getLast?.elim [] WrittenEntry.path

/-- The path of the last row among some entries. -/
def rowBehind (entries : List WrittenEntry) : Bytes :=
  pathBehind (entries.filter WrittenEntry.isRow)

/-- An entry of version four that spells the same behind the last row as behind
    the entry written just before it. It drops no more bytes than the path of
    the row has; and unless it is a directory, whose path nobody needs, that
    path is as long as the one just before and begins with the bytes the entry
    keeps. -/
structure WrittenEntry.Resumes (before : List WrittenEntry) (entry : WrittenEntry) : Prop where
  drops : entry.strip (pathBehind before) ≤ (rowBehind before).length
  keeps : entry.mode ≠ .tree → (rowBehind before).length = (pathBehind before).length ∧
    (rowBehind before).take (entry.shared (pathBehind before)) =
      (pathBehind before).take (entry.shared (pathBehind before))

/-- Every entry resumes behind the ones before it. -/
def Resume (entries : List WrittenEntry) : Prop :=
  ∀ before entry after, entries = before ++ entry :: after → entry.Resumes before

/-- An index that Git writes with the extension of a split index or of a
    sparse one. The files among its entries are in order, and no file lies
    below another. -/
structure UnexpandedIndex (objectFormat : ObjectFormat) (version : Nat)
    (entries : List WrittenEntry) (appended : List IndexExtension) : Prop where
  supported : 2 ≤ version ∧ version ≤ 4
  count : entries.length < 2 ^ 32
  writable : ∀ entry ∈ entries, entry.Writable objectFormat version
  ordered : (entries.filter WrittenEntry.isRow).Pairwise (fun entry other =>
    spellingOf entry.path < spellingOf other.path ∧ ¬ entry.path ++ [47] <+: other.path)
  known : ∀ extension ∈ appended, extension.optional = true ∨ extension.unexpandable = true
  unexpandable : ∃ extension ∈ appended, extension.unexpandable = true

section Unexpanded

variable {version : Nat} {objectFormat : ObjectFormat} {before entries : List WrittenEntry}
  {entry : WrittenEntry}

theorem pathBehind_concat (entries : List WrittenEntry) (entry : WrittenEntry) :
    pathBehind (entries ++ [entry]) = entry.path := by
  rw [pathBehind, getLast?_concat, Option.elim_some]

/-- What the reader rebuilds of an entry that resumes. -/
theorem WrittenEntry.Resumes.readPath (h : version = 4 → entry.Resumes before) :
    ∃ path, entry.readPath version (pathBehind before) (rowBehind before) = some path ∧
      (entry.mode ≠ .tree → path = entry.path) := by
  by_cases hversion : version = 4
  · rcases h hversion with ⟨hdrops, hkeeps⟩
    by_cases htree : entry.mode = .tree
    · rw [WrittenEntry.readPath, if_pos hversion, if_neg (not_lt.mpr hdrops)]
      exact ⟨_, rfl, fun hfile => absurd htree hfile⟩
    · rcases hkeeps htree with ⟨hlength, hsame⟩
      exact ⟨_, WrittenEntry.readPath_alike version hlength hsame, fun _ => rfl⟩
  · exact ⟨entry.path, if_neg hversion, fun _ => rfl⟩

/-- What the reader has read of some entries: their rows, in order. -/
structure Taken (before : List WrittenEntry) (rows : List IndexEntry) : Prop where
  paths : rows.map IndexEntry.path = (before.filter WrittenEntry.isRow).map WrittenEntry.path
  ordered : RowsOrdered rows

theorem taken_nil : Taken [] [] := ⟨rfl, RowsOrdered.nil⟩

theorem Taken.lastPath {rows : List IndexEntry} (h : Taken before rows) :
    lastPath rows = rowBehind before := by
  have hlast := congrArg getLast? h.paths
  rw [getLast?_map, getLast?_map] at hlast
  unfold Amiss.lastPath rowBehind pathBehind
  cases hrow : rows.getLast? with
  | none =>
    rw [hrow, Option.map_none, eq_comm, Option.map_eq_none_iff] at hlast
    rw [hlast]
    rfl
  | some row =>
    rw [hrow, Option.map_some, eq_comm, Option.map_eq_some_iff] at hlast
    rcases hlast with ⟨found, hfound, hpath⟩
    rw [hfound]
    exact hpath.symm

theorem Taken.named {rows : List IndexEntry} (h : Taken before rows) :
    ∀ row ∈ rows, row.path ≠ [] := by
  intro row hrow
  have hpath := mem_map_of_mem (f := IndexEntry.path) hrow
  rw [h.paths] at hpath
  rcases mem_map.mp hpath with ⟨entry, hentry, hsame⟩
  have hkept := (mem_filter.mp hentry).2
  simp only [WrittenEntry.isRow, decide_eq_true_eq] at hkept
  exact hsame ▸ hkept.2.1

/-- One entry that resumes is read. -/
theorem Taken.step {taken : List IndexEntry × Bool} (h : Taken before taken.1)
    (hplain : entry.stage = 0 ∧ entry.intentToAdd = false)
    (hresumes : version = 4 → entry.Resumes before)
    (hordered : ∀ row ∈ before.filter WrittenEntry.isRow, entry.isRow = true →
      spellingOf row.path < spellingOf entry.path ∧ ¬ row.path ++ [47] <+: entry.path) :
    ∃ next, takeEntry version (pathBehind before) taken.1 taken.2 entry = .ok next ∧
      Taken (before ++ [entry]) next.1 := by
  obtain ⟨path, hread, hpath⟩ := WrittenEntry.Resumes.readPath hresumes
  rw [takeEntry_of_plain hplain.1 hplain.2, h.lastPath, hread, Option.elim_some]
  by_cases hdropped : entry.mode = .tree ∨ path = []
  · have hno : entry.isRow = false := by
      simp only [WrittenEntry.isRow, decide_eq_false_iff_not]
      rintro ⟨hfile, hnamed, -⟩
      exact hnamed (hpath hfile ▸ hdropped.resolve_left hfile)
    rw [if_pos hdropped]
    exact ⟨_, rfl, by rw [filter_append, filter_singleton, hno, h.paths]; simp, h.ordered⟩
  · obtain ⟨hfile, hnamed⟩ := not_or.mp hdropped
    obtain rfl := hpath hfile
    have hyes : entry.isRow = true := by
      simp only [WrittenEntry.isRow, decide_eq_true_eq]
      exact ⟨hfile, hnamed, hplain.1⟩
    have hnext : RowsOrdered (taken.1 ++ [⟨entry.path, entry.mode, entry.oid,
        entry.skipWorktree⟩]) := by
      have hbehind : ∀ row ∈ taken.1,
          spellingOf row.path < spellingOf entry.path ∧ ¬ row.path ++ [47] <+: entry.path := by
        intro row hrow
        have hmem := mem_map_of_mem (f := IndexEntry.path) hrow
        rw [h.paths] at hmem
        rcases mem_map.mp hmem with ⟨earlier, hearlier, hsame⟩
        exact hsame ▸ hordered earlier hearlier hyes
      exact (h.ordered.append_iff _).mpr
        ⟨fun row hrow => (hbehind row hrow).1, fun row hrow => (hbehind row hrow).2⟩
    rw [if_neg hdropped, (pushIndexEntry_eq_ok_iff h.ordered h.named).mpr ⟨rfl, hnext⟩]
    exact ⟨_, rfl, by rw [map_append, h.paths, filter_append, filter_singleton, hyes]; simp, hnext⟩

/-- Entries that resume are read to the end. -/
theorem Taken.run (taken : List IndexEntry × Bool) (h : Taken before taken.1)
    (hplain : ∀ entry ∈ entries, entry.stage = 0 ∧ entry.intentToAdd = false)
    (hresumes : version = 4 → ∀ first entry after, entries = first ++ entry :: after →
      entry.Resumes (before ++ first))
    (hordered : ((before ++ entries).filter WrittenEntry.isRow).Pairwise (fun entry other =>
      spellingOf entry.path < spellingOf other.path ∧ ¬ entry.path ++ [47] <+: other.path)) :
    ∃ last, takeEntries version (pathBehind before) taken entries = .ok last ∧
      Taken (before ++ entries) last.1 := by
  induction entries generalizing before taken with
  | nil => exact ⟨taken, rfl, by rwa [append_nil]⟩
  | cons entry entries ih =>
    rcases forall_mem_cons.mp hplain with ⟨hentry, hentries⟩
    have hassoc : before ++ entry :: entries = (before ++ [entry]) ++ entries := by
      rw [append_assoc, singleton_append]
    have hpairs := hordered
    rw [hassoc, filter_append, filter_append, pairwise_append, pairwise_append] at hpairs
    rcases h.step hentry
      (fun hversion => append_nil before ▸ hresumes hversion [] entry entries rfl)
      (fun row hrow hyes => hpairs.1.2.2 row hrow entry
        (mem_filter.mpr ⟨mem_singleton.mpr rfl, hyes⟩)) with ⟨next, hnext, htaken⟩
    rw [hassoc] at hordered ⊢
    rw [takeEntries, hnext, ok_bind, ← pathBehind_concat before entry]
    refine ih next htaken hentries (fun hversion first other after hsplit => ?_) hordered
    rw [append_assoc, singleton_append]
    exact hresumes hversion (entry :: first) other after (congrArg (entry :: ·) hsplit)

theorem takeEntries_append (rest : List WrittenEntry) :
    ∀ (previous : Bytes) (taken : List IndexEntry × Bool),
      takeEntries version previous taken (entries ++ rest) =
        takeEntries version previous taken entries >>= fun next =>
          takeEntries version (entries.getLast?.elim previous WrittenEntry.path) next rest := by
  induction entries with
  | nil =>
    intro previous taken
    rfl
  | cons entry entries ih =>
    intro previous taken
    have hlast : (entry :: entries).getLast?.elim previous WrittenEntry.path =
        entries.getLast?.elim entry.path WrittenEntry.path := by
      rw [getLast?_cons]
      cases entries.getLast? <;> rfl
    rw [cons_append, takeEntries, takeEntries, hlast]
    cases takeEntry version previous taken.1 taken.2 entry with
    | error defect => rfl
    | ok next => exact ih entry.path next

/-- Behind entries that resume, one that drops more bytes than the last row has
    is refused. -/
theorem takeEntries_dropped (hplain : ∀ entry ∈ entries, entry.stage = 0 ∧
      entry.intentToAdd = false) {after : List WrittenEntry}
    (hsplit : entries = before ++ entry :: after) (hbefore : Resume before)
    (hordered : (entries.filter WrittenEntry.isRow).Pairwise (fun entry other =>
      spellingOf entry.path < spellingOf other.path ∧ ¬ entry.path ++ [47] <+: other.path))
    (hdrops : (rowBehind before).length < entry.strip (pathBehind before)) :
    takeEntries 4 [] ([], false) entries = .error .indexInvalid := by
  subst hsplit
  rcases forall_mem_append.mp hplain with ⟨hfirst, hrest⟩
  rcases forall_mem_cons.mp hrest with ⟨hentry, -⟩
  rw [filter_append, pairwise_append] at hordered
  obtain ⟨next, hnext, htaken⟩ : ∃ next, takeEntries 4 [] ([], false) before = .ok next ∧
      Taken before next.1 :=
    Taken.run ([], false) taken_nil hfirst (fun _ => hbefore) hordered.1
  have hnone : entry.readPath 4 (pathBehind before) (lastPath next.1) = none := by
    rw [WrittenEntry.readPath, if_pos rfl, htaken.lastPath, if_pos hdrops]
  rw [takeEntries_append, hnext, ok_bind, takeEntries]
  have htake : takeEntry 4 (pathBehind before) next.1 next.2 entry = .error .indexInvalid := by
    rw [takeEntry_of_plain hentry.1 hentry.2, hnone, Option.elim_none]
  exact congrArg (· >>= _) htake

/-- The first extension that cannot be expanded is reported. -/
theorem foldlM_skipExtension_unexpandable {appended : List IndexExtension}
    (hknown : ∀ extension ∈ appended, extension.optional = true ∨ extension.unexpandable = true)
    (hsome : ∃ extension ∈ appended, extension.unexpandable = true) :
    appended.foldlM (fun _ extension => skipExtension extension) () =
      .error .indexFormatUnsupported := by
  induction appended with
  | nil =>
    rcases hsome with ⟨extension, hmem, -⟩
    cases hmem
  | cons extension appended ih =>
    rcases forall_mem_cons.mp hknown with ⟨hextension, hrest⟩
    rw [foldlM_cons]
    by_cases hunexpandable : extension.unexpandable = true
    · rw [skipExtension_of_unexpandable hunexpandable, error_bind]
    have hoptional := hextension.resolve_right hunexpandable
    rw [skipExtension_of_optional hoptional (Bool.eq_false_of_not_eq_true hunexpandable), ok_bind]
    refine ih hrest ?_
    rcases hsome with ⟨other, hmem, hother⟩
    rcases mem_cons.mp hmem with rfl | hmem
    · exact absurd hother hunexpandable
    · exact ⟨other, hmem, hother⟩

/-- An index with the extension of a split or of a sparse index, no entry of
    which is unmerged or only intended, is reported as unsupported in versions
    two and three, and in version four where every entry resumes. The first
    entry that does not is refused where it drops more bytes than the last row
    has, and the index is then reported as invalid. -/
theorem parseIndexFile_unsupported {ordinaryDigest : ObjectFormat → Bytes → Bytes}
    {appended : List IndexExtension} {checked : Bool}
    (hindex : UnexpandedIndex objectFormat version entries appended)
    (hdigest : ∀ content, (ordinaryDigest objectFormat content).length = objectFormat.oidWidth)
    (hplain : ∀ entry ∈ entries, entry.stage = 0 ∧ entry.intentToAdd = false) :
    ((version = 4 → Resume entries) →
      parseIndexFile ordinaryDigest objectFormat
        (indexFile ordinaryDigest objectFormat version entries appended checked) =
          .error .indexFormatUnsupported) ∧
    ∀ before entry after, version = 4 → entries = before ++ entry :: after → Resume before →
      (rowBehind before).length < entry.strip (pathBehind before) →
      parseIndexFile ordinaryDigest objectFormat
        (indexFile ordinaryDigest objectFormat version entries appended checked) =
          .error .indexInvalid := by
  rw [parseIndexFile_written hindex.supported hindex.count hindex.writable hdigest]
  constructor
  · intro hresumes
    obtain ⟨last, hlast, -⟩ : ∃ last, takeEntries version [] ([], false) entries = .ok last ∧
        Taken entries last.1 :=
      Taken.run ([], false) taken_nil hplain hresumes hindex.ordered
    rw [hlast, ok_bind, foldlM_skipExtension_unexpandable hindex.known hindex.unexpandable]
    rfl
  · rintro before entry after rfl hsplit hbefore hdrops
    rw [takeEntries_dropped hplain hsplit hbefore hindex.ordered hdrops, error_bind]

end Unexpanded

/-- A directory that a sparse index keeps whole, and a file behind it. -/
def sparseEntries : List WrittenEntry :=
  [⟨blankStat, .tree, zeroOid, 0, false, true, utf8 "docs/"⟩,
    ⟨blankStat, .regularFile, zeroOid, 0, false, false, utf8 "z"⟩]

/-- The replacement of an entry of the shared index, and a file behind it. -/
def splitEntries : List WrittenEntry :=
  [⟨blankStat, .regularFile, zeroOid, 0, false, false, []⟩,
    ⟨blankStat, .regularFile, zeroOid, 0, false, false, utf8 "z"⟩]

def sparseExtension : IndexExtension := ⟨utf8 "sdir", [], rfl, by decide⟩

def splitExtension : IndexExtension := ⟨utf8 "link", [], rfl, by decide⟩

theorem sparseEntries_unexpanded : UnexpandedIndex .sha1 4 sparseEntries [sparseExtension] := by
  refine ⟨by decide, by decide, ?_, by decide, by decide, by decide⟩
  simp only [WrittenEntry.writable_iff]
  decide

theorem splitEntries_unexpanded : UnexpandedIndex .sha1 4 splitEntries [splitExtension] := by
  refine ⟨by decide, by decide, ?_, by decide, by decide, by decide⟩
  simp only [WrittenEntry.writable_iff]
  decide

/-- A replacement in front leaves nothing to drop. -/
theorem splitEntries_resume : Resume splitEntries := by
  intro before entry after hsplit
  rcases before with _ | ⟨first, _ | ⟨second, before⟩⟩
  · rw [nil_append, splitEntries, cons.injEq] at hsplit
    rw [← hsplit.1]
    exact ⟨by decide, fun _ => by decide⟩
  · rw [splitEntries, singleton_append, cons.injEq, cons.injEq] at hsplit
    rw [← hsplit.1, ← hsplit.2.1]
    exact ⟨by decide, fun _ => by decide⟩
  · simp [splitEntries] at hsplit

/-- The split index is reported as unsupported in version four; the sparse one
    is not, behind whose directory a file drops five bytes. -/
theorem parseIndexFile_unsupported_split :
    parseIndexFile zeroDigest .sha1
        (indexFile zeroDigest .sha1 4 splitEntries [splitExtension] true) =
          .error .indexFormatUnsupported ∧
      parseIndexFile zeroDigest .sha1
        (indexFile zeroDigest .sha1 4 sparseEntries [sparseExtension] true) =
          .error .indexInvalid := by
  constructor
  · exact (parseIndexFile_unsupported splitEntries_unexpanded (length_zeroDigest .sha1)
      (by decide)).1 (fun _ => splitEntries_resume)
  · refine (parseIndexFile_unsupported sparseEntries_unexpanded (length_zeroDigest .sha1)
      (by decide)).2 (sparseEntries.take 1) _ [] rfl rfl ?_ (by decide)
    intro before entry after hsplit
    rcases before with _ | ⟨first, before⟩
    · rw [nil_append, sparseEntries, take_succ_cons, cons.injEq] at hsplit
      rw [← hsplit.1]
      exact ⟨by decide, fun hfile => absurd rfl hfile⟩
    · simp [sparseEntries] at hsplit

/-- The sparse index in version four is reported as invalid: the file drops the
    five bytes of the directory before it, and the reader, which did not keep
    the directory, has no row to drop them from. -/
theorem parseIndexFile_sparse_invalid :
    UnexpandedIndex .sha1 4 sparseEntries [sparseExtension] ∧
      parseIndexFile zeroDigest .sha1
        (indexFile zeroDigest .sha1 4 sparseEntries [sparseExtension] true) =
          .error .indexInvalid := by
  have htaken : takeEntries 4 [] ([], false) sparseEntries = .error .indexInvalid := by decide
  refine ⟨sparseEntries_unexpanded, ?_⟩
  rw [parseIndexFile_written sparseEntries_unexpanded.supported sparseEntries_unexpanded.count
    sparseEntries_unexpanded.writable (length_zeroDigest .sha1), htaken, error_bind]

end Amiss
