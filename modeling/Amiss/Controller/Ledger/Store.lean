import Amiss.Base.Durable
import Amiss.Base.Entries
import Amiss.Controller.Ledger.Format

/-!
# The Ledger's Root Directory

The files of a ledger root and the programs that read and write them. A `Disk`
holds what the root holds: the root metadata with the clock's high-water mark,
the capacity file, one row file and at most one report file for each key, and
the directories that interrupted atomic writes left behind. A program may stop
after each single write or removal, so each one is a step of its own.

Lock files carry no data and are left out: an operation holds its locks from
its first read to its last write, so operations on a root follow one another.
A metadata or capacity file is a fixed number of bounded fields and always
fits its frame; a record may not, so saving one checks it.

## Main definitions

* `LedgerConfig`, `RootMetadata`, `Capacity`: The configuration and the two
  fixed files.
* `Disk`: The contents of a root.
* `atomicWrite`: Replacing a file through a temporary directory.
* `observeClock`: Raising the clock's high-water mark.
* `saveNew`: Admitting a new row.
* `saveReport`, `loadReport`, `removeReport`: Report files.
* `Store.openStore`, `Store.cleanup`: Opening and maintaining a root.
-/

namespace Amiss

/-- Lease timing and the limits of one root. -/
structure LedgerConfig where
  leaseMillis : Int
  maxRecords : Nat
  replayWindow : ReplayWindow
  lease_pos : 0 < leaseMillis
  records_pos : 0 < maxRecords

/-- The two schemas of root metadata. -/
inductive RootSchema where
  | current
  | legacy
  deriving DecidableEq

/-- The root metadata. -/
structure RootMetadata where
  schema : RootSchema
  leaseMillis : Int
  maxRecords : Nat
  maxSignedAgeMillis : Int
  maxQueueAgeMillis : Int
  clockHighWaterUnixMillis : Int
  deriving DecidableEq

namespace RootMetadata

/-- The metadata a new root starts with. -/
def legacy (config : LedgerConfig) (now : Int) : RootMetadata :=
  { schema := .legacy
    leaseMillis := config.leaseMillis
    maxRecords := config.maxRecords
    maxSignedAgeMillis := config.replayWindow.maxSignedAgeMillis
    maxQueueAgeMillis := config.replayWindow.maxQueueAgeMillis
    clockHighWaterUnixMillis := now }

variable (metadata : RootMetadata)

def matchesConfig (config : LedgerConfig) : Bool :=
  metadata.leaseMillis == config.leaseMillis && metadata.maxRecords == config.maxRecords &&
    metadata.maxSignedAgeMillis == config.replayWindow.maxSignedAgeMillis &&
    metadata.maxQueueAgeMillis == config.replayWindow.maxQueueAgeMillis

/-- Raises the high-water mark to `now`; it never falls. -/
def advanceClock (now : Int) : Except LedgerError RootMetadata :=
  if now < 0 then .error .clock
  else
    .ok
      { metadata with
        clockHighWaterUnixMillis := max metadata.clockHighWaterUnixMillis now }

def upgrade : RootMetadata := { metadata with schema := .current }

def validate (metadata : RootMetadata) : Bool :=
  decide (0 < metadata.leaseMillis ∧ metadata.maxRecords ≠ 0 ∧ 0 < metadata.maxSignedAgeMillis ∧
    0 < metadata.maxQueueAgeMillis ∧ 0 ≤ metadata.clockHighWaterUnixMillis)

end RootMetadata

/-- How many rows a root holds, and what was under way when that was
    written. -/
structure Capacity where
  maxRecords : Nat
  records : Nat
  pendingKey : Option Digest
  cleanupPending : Bool

namespace Capacity

variable (capacity : Capacity)

def validate : Bool :=
  decide (capacity.maxRecords ≠ 0 ∧ capacity.records ≤ capacity.maxRecords) &&
    !(capacity.pendingKey.isSome && capacity.records == 0) &&
    !(capacity.cleanupPending && (capacity.pendingKey.isSome || capacity.records == 0))

def checked : Except LedgerError Capacity :=
  if capacity.validate then .ok capacity else .error .corrupt

def ready (maxRecords records : Nat) : Except LedgerError Capacity :=
  checked ⟨maxRecords, records, none, false⟩

/-- Takes one slot for `key`, before its row is written. -/
def reserve (capacity : Capacity) (key : Digest) : Except LedgerError Capacity :=
  if capacity.pendingKey.isSome || capacity.cleanupPending then .error .corrupt
  else if capacity.maxRecords ≤ capacity.records then .error .full
  else
    match checkedSucc capacity.records with
    | none => .error .corrupt
    | some records => .ok { capacity with records, pendingKey := some key }

def beginCleanup : Except LedgerError Capacity :=
  if capacity.pendingKey.isSome || capacity.cleanupPending || capacity.records == 0 then
    .error .corrupt
  else .ok { capacity with cleanupPending := true }

/-- Settles a reservation by whether its row was written. -/
def settle (capacity : Capacity) (pendingFileIsPresent : Bool) : Except LedgerError Capacity :=
  if capacity.pendingKey.isNone || capacity.cleanupPending then .error .corrupt
  else if pendingFileIsPresent then checked { capacity with pendingKey := none }
  else if capacity.records = 0 then .error .corrupt
  else checked { capacity with records := capacity.records - 1, pendingKey := none }

def finishCleanup (records : Nat) : Except LedgerError Capacity :=
  if !capacity.cleanupPending || capacity.pendingKey.isSome || capacity.records < records then
    .error .corrupt
  else checked { capacity with records, cleanupPending := false }

def reconcileCleanup (records : Nat) : Except LedgerError Capacity :=
  if capacity.cleanupPending then capacity.finishCleanup records
  else if capacity.records = records then .ok capacity
  else .error .corrupt

end Capacity

/-- The contents of a ledger root. Each leftover directory of an interrupted
    atomic write may hold its temporary file. -/
structure Disk where
  metadata : Option RootMetadata
  capacity : Option Capacity
  rows : BTreeMap Digest Record
  reports : BTreeMap Digest Bytes
  temporary : List Bool

/-- A directory in which nothing has been prepared. -/
def Disk.empty : Disk := ⟨none, none, ∅, ∅, []⟩

/-- The disk with one more leftover directory, with or without its file. -/
def Disk.littered (file : Bool) (disk : Disk) : Disk :=
  { disk with temporary := file :: disk.temporary }

/-- A program over a ledger root. -/
abbrev Ledger (α : Type) := Durable Disk LedgerError α

open Durable (reading write fail ensure onlyIf ofExcept)

/-- Replaces a file: a directory is made, the file is written inside it and
    moved into place, and the directory is removed. -/
def atomicWrite (place : Disk → Disk) : Ledger Unit := fun disk =>
  { trail :=
      [disk.littered false, disk.littered true, (place disk).littered false, place disk]
    store := place disk
    answer := .ok () }

/-! ### Fixed files -/

def saveMetadata (metadata : RootMetadata) : Ledger Unit := do
  ensure (metadata.validate = true) .corrupt
  atomicWrite (fun disk => { disk with metadata := some metadata })

/-- The metadata of a prepared root, of either schema. -/
def loadStoredMetadata (disk : Disk) : Except LedgerError RootMetadata :=
  match disk.metadata with
  | none => .error .io
  | some metadata => if metadata.validate then .ok metadata else .error .corrupt

def loadMetadata (disk : Disk) : Except LedgerError RootMetadata :=
  match loadStoredMetadata disk with
  | .error e => .error e
  | .ok metadata =>
    match metadata.schema with
    | .current => .ok metadata
    | .legacy => .error .corrupt

def loadOptionalCapacity (disk : Disk) : Except LedgerError (Option Capacity) :=
  match disk.capacity with
  | none => .ok none
  | some capacity => if capacity.validate then .ok (some capacity) else .error .corrupt

def saveCapacity (capacity : Capacity) : Ledger Unit := do
  ensure (capacity.validate = true) .corrupt
  atomicWrite (fun disk => { disk with capacity := some capacity })

/-- Raises the clock's high-water mark to `now` and returns it. -/
def observeClock (config : LedgerConfig) (now : Int) : Ledger Int := do
  ensure (0 ≤ now) .clock
  let metadata ← reading loadMetadata
  ensure (metadata.matchesConfig config = true) .configuration
  let advanced ← ofExcept (metadata.advanceClock now)
  onlyIf (advanced.clockHighWaterUnixMillis ≠ metadata.clockHighWaterUnixMillis)
    (saveMetadata advanced)
  pure advanced.clockHighWaterUnixMillis

/-! ### Rows -/

section Rows

variable (codec : LedgerCodec) (config : LedgerConfig) (key : Digest)

/-- A row file read back: a record that passes its checks and belongs to the
    key it was found under. -/
def checkedRow (record : Record) : Except LedgerError Record :=
  if record.validate codec && codec.recordFits record && record.matchesKey codec key then
    .ok record
  else .error .corrupt

/-- The record of a key, if it has a row. -/
def load (disk : Disk) : Except LedgerError (Option Record) :=
  match disk.rows[key]? with
  | none => .ok none
  | some record => (checkedRow codec key record).map some

def save (record : Record) : Ledger Unit := do
  ensure ((record.validate codec && codec.recordFits record) = true) .corrupt
  atomicWrite (fun disk => { disk with rows := disk.rows.insert key record })

/-- Settles a reservation an earlier admission left pending. -/
def recoverCapacity (capacity : Capacity) : Ledger Capacity :=
  match capacity.pendingKey with
  | none => pure capacity
  | some pending => do
    let row ← reading (load codec pending)
    let capacity ← ofExcept (capacity.settle row.isSome)
    saveCapacity capacity
    pure capacity

/-- Admits a new row: a slot is reserved, the row is written, the slot is
    settled. -/
def saveNew (record : Record) : Ledger Unit := do
  let loaded ← reading loadOptionalCapacity
  match loaded with
  | none => fail .corrupt
  | some capacity =>
    ensure (capacity.maxRecords = config.maxRecords) .corrupt
    let capacity ← recoverCapacity codec capacity
    let row ← reading (load codec key)
    ensure (row.isNone = true) .corrupt
    let reserved ← ofExcept (capacity.reserve key)
    saveCapacity reserved
    save codec key record
    let settled ← ofExcept (reserved.settle true)
    saveCapacity settled

/-- Locking a row refuses a delivery whose replay window is not the root's. -/
def lockRow (replayKeep : ReplayKeep) : Except LedgerError Unit :=
  match replayKeep with
  | .permanent => .ok ()
  | .keepThrough _ window =>
    if window = config.replayWindow then .ok () else .error .configuration

/-! ### Reports -/

def removeReport : Ledger Unit := do
  let present ← reading (fun disk => .ok (disk.reports.contains key))
  onlyIf (present = true) (write (fun disk => { disk with reports := disk.reports.erase key }))

/-- The bytes of a report file, within the report ceiling. -/
def readReport (disk : Disk) : Except LedgerError (Option Bytes) :=
  match disk.reports[key]? with
  | none => .ok none
  | some bytes =>
    if bytes.length ≤ machineJsonBytes then .ok (some bytes) else .error .corrupt

def saveReport (report : Option Bytes) (reference : Option ReportRef) : Ledger Unit :=
  match report, reference with
  | none, none => pure ()
  | some report, some reference =>
    if reference.matchesBytes codec report then do
      let existing ← reading (readReport key)
      match existing with
      | some bytes => ensure (bytes = report) .corrupt
      | none => atomicWrite (fun disk => { disk with reports := disk.reports.insert key report })
    else fail .corrupt
  | none, some _ => fail .corrupt
  | some _, none => fail .corrupt

def loadReport (reference : Option ReportRef) (disk : Disk) :
    Except LedgerError (Option Bytes) :=
  match reference with
  | none => .ok none
  | some reference =>
    match readReport key disk with
    | .error e => .error e
    | .ok none => .error .corrupt
    | .ok (some bytes) =>
      if reference.matchesBytes codec bytes then .ok (some bytes) else .error .corrupt

end Rows

/-! ### Opening and maintenance -/

/-- Removes one leftover directory, its file first. -/
def removeTemporary (file : Bool) : Ledger Unit := do
  onlyIf (file = true) (write (fun disk => { disk with temporary := false :: disk.temporary.tail }))
  write (fun disk => { disk with temporary := disk.temporary.tail })

/-- A root without metadata may hold leftover directories and nothing else. -/
def prepareNewRoot : Ledger Unit := do
  let disk ← reading .ok
  ensure (disk.capacity.isNone ∧ disk.rows.isEmpty ∧ disk.reports.isEmpty) .corrupt
  disk.temporary.foldlM (fun _ file => removeTemporary file) ()

def loadOrCreateMetadata (config : LedgerConfig) (now : Int) : Ledger RootMetadata := do
  let disk ← reading .ok
  if disk.metadata.isSome then reading loadStoredMetadata
  else do
    prepareNewRoot
    saveMetadata (.legacy config now)
    pure (.legacy config now)

namespace Store

variable (codec : LedgerCodec) (config : LedgerConfig)

/-- Prepares a root or checks that it was prepared with this
    configuration. -/
def openStore (now : Int) : Ledger Unit := do
  ensure (0 ≤ now) .corrupt
  let metadata ← loadOrCreateMetadata config now
  ensure (metadata.matchesConfig config = true) .configuration

/-- What a maintenance pass removed. -/
structure Cleanup where
  removedRecords : Nat
  removedReports : Nat
  removedTemporary : Nat

/-- A staged record needs its report file, and the file must be the one it
    names. -/
def validateReport (reports : BTreeMap Digest Bytes) (key : Digest) (record : Record) : Bool :=
  match record.liveReport with
  | none => true
  | some reference =>
    match reports[key]? with
    | none => false
    | some bytes =>
      decide (bytes.length ≤ machineJsonBytes) && reference.matchesBytes codec bytes

/-- Reads every file of the root and checks the rows and their reports. -/
def readEntries (disk : Disk) : Except LedgerError Disk :=
  if disk.rows.toList.all (fun entry => (checkedRow codec entry.1 entry.2).toBool) &&
      decide (disk.rows.size ≤ config.maxRecords) &&
      disk.rows.toList.all (fun entry => validateReport codec disk.reports entry.1 entry.2) then
    .ok disk
  else .error .corrupt

/-- Brings the capacity file in line with the rows that were found. -/
def prepareCapacity (rows : BTreeMap Digest Record) (migrating : Bool) : Ledger Capacity := do
  let loaded ← reading loadOptionalCapacity
  if migrating then do
    ensure (loaded.all (fun capacity => capacity.maxRecords == config.maxRecords) = true) .corrupt
    let capacity ← ofExcept (Capacity.ready config.maxRecords rows.size)
    saveCapacity capacity
    pure capacity
  else
    match loaded with
    | none => fail .corrupt
    | some capacity => do
      ensure (capacity.maxRecords = config.maxRecords) .corrupt
      let settled ←
        ofExcept (match capacity.pendingKey with
          | some key => capacity.settle (rows.contains key)
          | none => .ok capacity)
      let reconciled ← ofExcept (settled.reconcileCleanup rows.size)
      onlyIf (capacity.pendingKey.isSome ∨ capacity.cleanupPending) (saveCapacity reconciled)
      pure reconciled

/-- Whether a key's report is still needed by its row. -/
def reportIsLive (rows : BTreeMap Digest Record) (key : Digest) : Bool :=
  rows[key]?.any (fun record => record.liveReport.isSome)

/-- Whether a row may be removed at `now`: it is done and its replay lifetime
    has ended. -/
def removable (now : Int) (record : Record) : Bool :=
  match record.state with
  | .done _ _ => record.replayKeep.expiredAt now
  | .running _ _ _ | .staged _ _ => false

/-- Removes the reports that no row needs. -/
def removeReports (entries : Disk) : Ledger Nat :=
  entries.reports.keys.foldlM
    (fun removed key =>
      if reportIsLive entries.rows key then pure removed
      else do
        write (fun disk => { disk with reports := disk.reports.erase key })
        pure (removed + 1)) 0

/-- Removes the rows whose lifetime has ended, between the two writes that mark
    the capacity file. The rows that remain are counted as they go. -/
def removeRows (entries : Disk) (capacity : Capacity) (now : Int) : Ledger Nat := do
  let keys := (entries.rows.toList.filter (fun entry => removable now entry.2)).map Prod.fst
  if keys.isEmpty then pure 0
  else do
    let marked ← ofExcept capacity.beginCleanup
    saveCapacity marked
    let (removed, states) ← keys.foldlM
      (fun (removed, states) key => do
        write (fun disk => { disk with rows := disk.rows.erase key })
        pure (removed + 1, states.erase key)) (0, entries.rows)
    let finished ← ofExcept (marked.finishCleanup states.size)
    saveCapacity finished
    pure removed

/-- Removes what the root no longer needs: reports, then rows, then leftover
    directories. -/
def remove (entries : Disk) (capacity : Capacity) (now : Int) : Ledger Cleanup := do
  let removedReports ← removeReports entries
  let removedRecords ← removeRows entries capacity now
  let removedTemporary ← entries.temporary.foldlM
    (fun removed file => do
      removeTemporary file
      pure (removed + 1)) 0
  pure { removedRecords, removedReports, removedTemporary }

/-- One full maintenance pass over a prepared root. -/
def cleanup (now : Int) : Ledger Cleanup := do
  let stored ← reading loadStoredMetadata
  ensure (stored.matchesConfig config = true) .configuration
  let entries ← reading (readEntries codec config)
  let migrating := decide (stored.schema = .legacy)
  let capacity ← prepareCapacity config entries.rows migrating
  let advanced ← ofExcept (stored.upgrade.advanceClock now)
  onlyIf (migrating ∨ advanced.clockHighWaterUnixMillis ≠ stored.clockHighWaterUnixMillis)
    (saveMetadata advanced)
  remove entries capacity advanced.clockHighWaterUnixMillis

end Store

end Amiss
