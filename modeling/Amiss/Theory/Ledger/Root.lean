import Amiss.Theory.Ledger.Steps

/-!
# Recovery of a Ledger Root

A root keeps its promises across several files that are written one after
another: the capacity file says how many rows there are, a staged row refers
to a report file, the metadata says whether the capacity file can be relied
on. `Disk.Sound` is what holds of them at every moment, between any two writes
and after a stop anywhere. It is stated for the disk alone, so it needs no
memory of the operation that was interrupted.

Maintenance restores the capacity file from whatever it finds: on a sound disk
none of its checks can fail. Since it leaves only sound disks behind, a stop
during recovery is no different from any other.

## Main definitions

* `RootStep`: One write of opening or maintaining a root.
* `Capacity.Counts`: What the capacity file says of the rows.
* `Disk.Sound`: What holds of a root at every moment.
* `Disk.OnlyRow`, `Disk.Shrinks`: What one operation touches.

## Theorems

* `RowStep.sound`, `RootStep.sound`: Every write keeps a root sound.
* `finishes_cleanup`, `finishes_openStore`: Maintenance and opening succeed on
  a sound root.
* `reachable_sound`: Every reachable root is sound.
* `reachable_recovers`: Recovery from every reachable disk.
* `operations_are_isolated`: Its bounds, wherever it stops.
-/

namespace Amiss

open Std.ExtTreeMap

open Option

open Relation (ReflTransGen)
open Durable (Follows Traces Finishes onlyIf)
open Fallible (guard_eq_ok passed_eq_ok)

/-- The capacity file of a root that holds `records` rows, with nothing under
    way. -/
def Capacity.settledAt (maxRecords records : Nat) : Capacity := ⟨maxRecords, records, none, false⟩

section RootSteps

variable (codec : LedgerCodec) (config : LedgerConfig)

/-- One write of opening or maintaining a root. -/
inductive RootStep : Disk → Disk → Prop where
  | litter {disk : Disk} (temporary : List Bool) : RootStep disk { disk with temporary }
  | prepare {disk : Disk} (now : Int) (trusted : 0 ≤ now) (unprepared : disk.metadata = none) :
      RootStep disk { disk with metadata := some (.legacy config now) }
  | recount {disk : Disk} (prepared : disk.metadata.isSome)
      (room : disk.rows.size ≤ config.maxRecords) :
      RootStep disk
        { disk with capacity := some (.settledAt config.maxRecords disk.rows.size) }
  | clock {disk : Disk} {metadata : RootMetadata} (now : Int)
      (stored : disk.metadata = some metadata) (counted : disk.capacity.isSome)
      (later : metadata.clockHighWaterUnixMillis ≤ now) :
      RootStep disk
        { disk with
          metadata := some { metadata with schema := .current, clockHighWaterUnixMillis := now } }
  | mark {disk : Disk} (prepared : disk.metadata.isSome) (some_row : 0 < disk.rows.size)
      (room : disk.rows.size ≤ config.maxRecords) :
      RootStep disk
        { disk with
          capacity := some ⟨config.maxRecords, disk.rows.size, none, true⟩ }
  | dropReport {disk : Disk} (key : Digest)
      (idle : ∀ record, disk.rows[key]? = some record → record.liveReport = none) :
      RootStep disk { disk with reports := disk.reports.erase key }
  | dropRow {disk : Disk} {record : Record} {capacity : Capacity} (key : Digest)
      (stored : disk.rows[key]? = some record) (marked : disk.capacity = some capacity)
      (pending : capacity.cleanupPending = true)
      (ended : Store.removable disk.highWater record = true) :
      RootStep disk { disk with rows := disk.rows.erase key }

end RootSteps

/-- The reserved slot whose row is not written yet. -/
def Capacity.unwritten (capacity : Capacity) (rows : BTreeMap Digest Record) : Nat :=
  match capacity.pendingKey with
  | none => 0
  | some key => if rows.contains key then 0 else 1

/-- The capacity file counts the rows: exactly, up to the one reserved slot, or
    from above while rows are being removed. -/
def Capacity.Counts (capacity : Capacity) (rows : BTreeMap Digest Record) : Prop :=
  if capacity.cleanupPending then rows.size ≤ capacity.records
  else rows.size + capacity.unwritten rows = capacity.records

/-- What holds of a root at every moment. -/
structure Disk.Sound (codec : LedgerCodec) (config : LedgerConfig) (disk : Disk) : Prop where
  metadata : ∀ metadata, disk.metadata = some metadata →
    metadata.validate = true ∧ metadata.matchesConfig config = true
  unprepared : disk.metadata = none → disk.capacity = none ∧ disk.rows = ∅ ∧ disk.reports = ∅
  capacity : ∀ capacity, disk.capacity = some capacity →
    capacity.validate = true ∧ capacity.maxRecords = config.maxRecords ∧ capacity.Counts disk.rows
  counted : disk.Opened → disk.capacity.isSome
  uncounted : disk.capacity = none → disk.rows = ∅
  populated : disk.rows ≠ ∅ → disk.Opened
  rows : ∀ (key : Digest) (record : Record), disk.rows[key]? = some record →
    RowFits codec key record ∧ Holds codec disk.reports[key]? record

section Soundness

variable {codec : LedgerCodec} {config : LedgerConfig} {disk : Disk}

theorem Disk.sound_empty : Disk.empty.Sound codec config where
  metadata := fun _ h => absurd h (by simp [Disk.empty])
  unprepared := fun _ => ⟨rfl, rfl, rfl⟩
  capacity := fun _ h => absurd h (by simp [Disk.empty])
  counted := fun ⟨_, h, _⟩ => absurd h (by simp [Disk.empty])
  uncounted := fun _ => rfl
  populated := fun h => absurd rfl h
  rows := fun _ _ h => absurd h (by simp [Disk.empty])

variable {capacity : Capacity}

theorem Capacity.validate_iff :
    capacity.validate = true ↔ capacity.maxRecords ≠ 0 ∧ capacity.records ≤ capacity.maxRecords ∧
      (capacity.pendingKey.isSome → capacity.records ≠ 0) ∧
      (capacity.cleanupPending → capacity.pendingKey = none ∧ capacity.records ≠ 0) := by
  unfold Capacity.validate
  rcases capacity with ⟨maxRecords, records, pending, cleanup⟩
  cases pending <;> cases cleanup <;>
    simp [and_assoc]

theorem Capacity.settledAt_valid {maxRecords records : Nat} (hpos : 0 < maxRecords)
    (hroom : records ≤ maxRecords) : (settledAt maxRecords records).validate = true := by
  refine Capacity.validate_iff.mpr ⟨Nat.pos_iff_ne_zero.mp hpos, hroom, ?_, ?_⟩
  · simp [settledAt]
  · simp [settledAt]

theorem Capacity.settledAt_counts (maxRecords : Nat) (rows : BTreeMap Digest Record) :
    (settledAt maxRecords rows.size).Counts rows := rfl

theorem settle_eq_ok {settled : Capacity} {present : Bool}
    (h : capacity.settle present = .ok settled) :
    capacity.cleanupPending = false ∧ settled.validate = true ∧
      settled = { capacity with
        records := capacity.records - (if present then 0 else 1), pendingKey := none } := by
  simp only [Capacity.settle, Capacity.checked, guard_eq_ok, Bool.or_eq_true, not_or,
    Bool.not_eq_true] at h
  rcases h with ⟨hidle, h⟩
  cases present with
  | true =>
    rcases passed_eq_ok.mp h with ⟨rfl, hvalid⟩
    exact ⟨hidle.2, hvalid, rfl⟩
  | false =>
    rcases passed_eq_ok.mp (guard_eq_ok.mp h).2 with ⟨rfl, hvalid⟩
    exact ⟨hidle.2, hvalid, rfl⟩

variable {key : Digest}

theorem Capacity.unwritten_insert (capacity : Capacity) (rows : BTreeMap Digest Record)
    {old : Record} (new : Record) (hpresent : rows[key]? = some old) :
    capacity.unwritten (rows.insert key new) = capacity.unwritten rows := by
  unfold Capacity.unwritten
  split
  next => rfl
  next pending _ =>
  rw [contains_eq_isSome, contains_eq_isSome, getElem?_inserted]
  by_cases h : key = pending
  · rw [if_pos h, ← h, hpresent]
    rfl
  · rw [if_neg h]

variable {rows : BTreeMap Digest Record}

/-- A capacity file that may hold a reservation counts the rows exactly. -/
theorem Capacity.Counts.exact (h : capacity.Counts rows) (hidle : capacity.cleanupPending = false) :
    rows.size + capacity.unwritten rows = capacity.records := by
  simpa only [Capacity.Counts, hidle, Bool.false_eq_true, if_false] using h

theorem Capacity.Counts.le (h : capacity.Counts rows) : rows.size ≤ capacity.records := by
  unfold Capacity.Counts at h
  split at h
  next => exact h
  next => omega

theorem Disk.Opened.prepared (h : disk.Opened) : disk.metadata ≠ none := by
  rcases h with ⟨metadata, hstored, _⟩
  rw [hstored]
  exact some_ne_none _

theorem RootSchema.current_of_ne {schema : RootSchema} (h : schema ≠ .legacy) :
    schema = .current := by
  cases schema with
  | current => rfl
  | legacy => exact absurd rfl h

namespace Disk.Sound

variable (h : disk.Sound codec config)

include h

theorem litter (temporary : List Bool) : Disk.Sound codec config { disk with temporary } :=
  { h with }

variable {key : Digest} {record : Record}

/-- A root with a row has been opened, and its capacity file written. -/
theorem opened_of_row (hrow : disk.rows[key]? = some record) :
    disk.Opened ∧ disk.capacity ≠ none := by
  have hnonempty : disk.rows ≠ ∅ := by
    intro hempty
    rw [hempty, getElem?_empty] at hrow
    cases hrow
  exact ⟨h.populated hnonempty, fun hnone => hnonempty (h.uncounted hnone)⟩

theorem prepared_of_capacity {capacity : Capacity} (hstored : disk.capacity = some capacity) :
    disk.metadata ≠ none := by
  intro hnone
  rw [(h.unprepared hnone).1] at hstored
  cases hstored

/-- Replacing the capacity file of a prepared root. -/
theorem recapacity {capacity : Capacity} (hprepared : disk.metadata ≠ none)
    (hvalid : capacity.validate = true) (hmax : capacity.maxRecords = config.maxRecords)
    (hcounts : capacity.Counts disk.rows) :
    Disk.Sound codec config { disk with capacity := some capacity } :=
  { h with
    unprepared := fun hnone => absurd hnone hprepared
    capacity := by
      rintro found hfound
      cases hfound
      exact ⟨hvalid, hmax, hcounts⟩
    counted := fun _ => rfl
    uncounted := fun hnone => absurd hnone (by simp) }

/-- Writing the metadata of a root whose capacity file is written. -/
theorem remetadata {metadata : RootMetadata} (hcounted : disk.capacity.isSome)
    (hcurrent : metadata.schema = .current) (hvalid : metadata.validate = true)
    (hmatches : metadata.matchesConfig config = true) :
    Disk.Sound codec config { disk with metadata := some metadata } :=
  { h with
    metadata := by
      rintro found hfound
      cases hfound
      exact ⟨hvalid, hmatches⟩
    unprepared := fun hnone => absurd hnone (by simp)
    counted := fun _ => hcounted
    populated := fun _ => ⟨metadata, rfl, hcurrent⟩ }

/-- Writing one row of a prepared root, with the capacity file that fits it. -/
theorem rerow (hopened : disk.Opened) (hcounted : disk.capacity ≠ none)
    (hcounts : ∀ capacity, disk.capacity = some capacity →
      capacity.Counts (disk.rows.insert key record))
    (hfits : RowFits codec key record) (hholds : Holds codec disk.reports[key]? record) :
    Disk.Sound codec config { disk with rows := disk.rows.insert key record } :=
  { h with
    unprepared := fun hnone => absurd hnone hopened.prepared
    capacity := by
      intro capacity hstored
      rcases h.capacity capacity hstored with ⟨hvalid, hmax, _⟩
      exact ⟨hvalid, hmax, hcounts capacity hstored⟩
    uncounted := fun hnone => absurd hnone hcounted
    populated := fun _ => hopened
    rows := by
      intro k found hfound
      rw [getElem?_inserted] at hfound
      split at hfound
      next hkey =>
        rw [some.injEq] at hfound
        exact hkey ▸ hfound ▸ ⟨hfits, hholds⟩
      next => exact h.rows k found hfound }

theorem dropReport (hidle : ∀ record, disk.rows[key]? = some record → record.liveReport = none) :
    Disk.Sound codec config { disk with reports := disk.reports.erase key } :=
  { h with
    unprepared := by
      intro hnone
      rcases h.unprepared hnone with ⟨hcapacity, hrows, hreports⟩
      refine ⟨hcapacity, hrows, ?_⟩
      dsimp only
      rw [hreports, erase_of_absent _ _ getElem?_empty]
    rows := by
      intro k found hfound
      rcases h.rows k found hfound with ⟨hfits, hholds⟩
      by_cases hkey : key = k
      · exact ⟨hfits, hholds.of_idle (hidle found (hkey ▸ hfound))⟩
      · dsimp only
        rw [getElem?_erased, if_neg hkey]
        exact ⟨hfits, hholds⟩ }

/-- Writing a report for a row that refers to none. -/
theorem putReport (bytes : Bytes) (hrow : disk.rows[key]? = some record)
    (hidle : record.liveReport = none) :
    Disk.Sound codec config { disk with reports := disk.reports.insert key bytes } :=
  { h with
    unprepared := fun hnone => absurd hnone (h.opened_of_row hrow).1.prepared
    rows := by
      intro k found hfound
      rcases h.rows k found hfound with ⟨hfits, hholds⟩
      by_cases hkey : key = k
      · rw [← hkey] at hfound
        have hsame := some.inj (hrow.symm.trans hfound)
        exact ⟨hfits, hholds.of_idle (hsame ▸ hidle)⟩
      · dsimp only
        rw [getElem?_inserted, if_neg hkey]
        exact ⟨hfits, hholds⟩ }

/-- Removing a row while the capacity file says that rows are being removed. -/
theorem dropRow {capacity : Capacity} (hrow : disk.rows[key]? = some record)
    (hstored : disk.capacity = some capacity) (hpending : capacity.cleanupPending = true) :
    Disk.Sound codec config { disk with rows := disk.rows.erase key } :=
  { h with
    unprepared := fun hnone => absurd hnone (h.opened_of_row hrow).1.prepared
    capacity := by
      intro found hfound
      rcases h.capacity found hfound with ⟨hvalid, hmax, hcounts⟩
      refine ⟨hvalid, hmax, ?_⟩
      dsimp only at hfound
      cases hstored.symm.trans hfound
      simp only [Capacity.Counts, hpending, if_true] at hcounts ⊢
      exact size_erase_le.trans hcounts
    uncounted := fun hnone => absurd hnone (h.opened_of_row hrow).2
    populated := fun _ => (h.opened_of_row hrow).1
    rows := by
      intro k found hfound
      rw [getElem?_erased] at hfound
      split at hfound
      next => cases hfound
      next => exact h.rows k found hfound }

end Disk.Sound

variable {now : Int}

/-- The metadata of a new root is valid for its configuration. -/
theorem RootMetadata.legacy_valid (htrusted : 0 ≤ now) :
    (legacy config now).validate = true ∧ (legacy config now).matchesConfig config = true := by
  refine ⟨?_, ?_⟩
  · exact decide_eq_true ⟨config.lease_pos, Nat.pos_iff_ne_zero.mp config.records_pos,
      config.replayWindow.signed_pos, config.replayWindow.queue_pos, htrusted⟩
  · simp [legacy, matchesConfig]

variable {later : Disk}

/-- Every write of a row operation keeps a root sound. -/
theorem RowStep.sound {since : Int} (hstep : RowStep codec key since disk later)
    (h : disk.Sound codec config) : later.Sound codec config := by
  cases hstep with
  | litter temporary => exact h.litter temporary
  | @clock metadata now stored current hle =>
    rcases h.metadata metadata stored with ⟨hvalid, hmatches⟩
    exact h.remetadata (h.counted ⟨metadata, stored, current⟩) current
      (RootMetadata.raise_valid metadata.schema hvalid hle) hmatches
  | @settle capacity settled pending stored reserved settles =>
    rcases h.capacity capacity stored with ⟨_, hmax, hcounts⟩
    rcases settle_eq_ok settles with ⟨hidle, hvalid, rfl⟩
    refine h.recapacity (h.prepared_of_capacity stored) hvalid hmax ?_
    have hexact := hcounts.exact hidle
    simp only [Capacity.unwritten, reserved] at hexact
    simp only [Capacity.Counts, hidle, Bool.false_eq_true, if_false, Capacity.unwritten]
    omega
  | @reserve capacity reserved stored absent reserves =>
    rcases h.capacity capacity stored with ⟨hvalid, hmax, hcounts⟩
    rcases reserve_eq_ok reserves with ⟨hnone, hidle, hroom, rfl⟩
    have hexact := hcounts.exact hidle
    simp only [Capacity.unwritten, hnone] at hexact
    refine h.recapacity (h.prepared_of_capacity stored)
      (Capacity.validate_iff.mpr ⟨?_, hroom, ?_, ?_⟩) hmax ?_
    · exact (Capacity.validate_iff.mp hvalid).1
    · exact fun _ => Nat.succ_ne_zero _
    · intro hcleanup
      simp only [hidle, Bool.false_eq_true] at hcleanup
    · simp only [Capacity.Counts, hidle, Bool.false_eq_true, if_false, Capacity.unwritten,
        contains_eq_isSome, absent, isSome_none]
      omega
  | @enter capacity record owner expires opened stored reserved absent fits running live =>
    rcases h.capacity capacity stored with ⟨hvalid, hmax, hcounts⟩
    have hidle : capacity.cleanupPending = false := by
      refine Bool.eq_false_iff.mpr (fun hcleanup => ?_)
      have hnone := ((Capacity.validate_iff.mp hvalid).2.2.2 hcleanup).1
      rw [reserved] at hnone
      cases hnone
    refine h.rerow opened
      (by rw [stored]; exact some_ne_none _) ?_ fits ?_
    · intro found hfound
      cases stored.symm.trans hfound
      have hexact := hcounts.exact hidle
      simp only [Capacity.unwritten, reserved, contains_eq_isSome, absent, isSome_none,
        Bool.false_eq_true, if_false] at hexact
      simp only [Capacity.Counts, hidle, Bool.false_eq_true, if_false, Capacity.unwritten,
        reserved, contains_eq_isSome, getElem?_insert_self, isSome_some,
        if_true, size_insert_of_absent _ _ _ absent]
      omega
    · intro fence frozen hstaged
      rw [running] at hstaged
      cases hstaged
  | @advance old new stored step fits reported =>
    rcases h.opened_of_row stored with ⟨hopened, hcounted⟩
    refine h.rerow hopened hcounted ?_ fits reported
    intro found hfound
    have hcounts := (h.capacity found hfound).2.2
    unfold Capacity.Counts at hcounts ⊢
    rw [size_insert_of_present _ _ _ stored, Capacity.unwritten_insert _ _ _ stored]
    exact hcounts
  | dropReport idle => exact h.dropReport idle
  | putReport bytes stored idle => exact h.putReport bytes stored idle

/-- Every write of opening or maintaining a root keeps it sound. -/
theorem RootStep.sound (hstep : RootStep config disk later) (h : disk.Sound codec config) :
    later.Sound codec config := by
  cases hstep with
  | litter temporary => exact h.litter temporary
  | prepare now trusted unprepared =>
    rcases h.unprepared unprepared with ⟨hcapacity, hrows, hreports⟩
    exact
      { h with
        metadata := by
          rintro found hfound
          cases hfound
          exact RootMetadata.legacy_valid trusted
        unprepared := fun hnone => absurd hnone (by simp)
        counted := by
          rintro ⟨found, hfound, hcurrent⟩
          cases hfound
          cases hcurrent
        populated := fun hsome => absurd hrows hsome }
  | recount prepared room =>
    exact h.recapacity (isSome_iff_ne_none.mp prepared)
      (Capacity.settledAt_valid config.records_pos room) rfl (Capacity.settledAt_counts _ _)
  | @clock metadata now stored counted hle =>
    rcases h.metadata metadata stored with ⟨hvalid, hmatches⟩
    exact h.remetadata counted rfl (RootMetadata.raise_valid .current hvalid hle) hmatches
  | mark prepared some_row room =>
    refine h.recapacity (isSome_iff_ne_none.mp prepared)
      (Capacity.validate_iff.mpr ⟨?_, room, ?_, ?_⟩) rfl ?_
    · exact Nat.pos_iff_ne_zero.mp config.records_pos
    · simp
    · exact fun _ => ⟨rfl, Nat.pos_iff_ne_zero.mp some_row⟩
    · exact le_refl _
  | dropReport key idle => exact h.dropReport idle
  | dropRow key stored marked pending ended => exact h.dropRow stored marked pending

/-! ### Maintenance -/

/-- A sound root holds no more rows than it may. -/
theorem Disk.Sound.room (h : disk.Sound codec config) : disk.rows.size ≤ config.maxRecords := by
  cases hcapacity : disk.capacity with
  | none =>
    rw [h.uncounted hcapacity, size_empty]
    exact Nat.zero_le _
  | some capacity =>
    rcases h.capacity capacity hcapacity with ⟨hvalid, hmax, hcounts⟩
    exact hcounts.le.trans (hmax ▸ (Capacity.validate_iff.mp hvalid).2.1)

variable {reference : ReportRef}

theorem matchesBytes_length {bytes : Bytes} (h : reference.matchesBytes codec bytes = true) :
    bytes.length ≤ machineJsonBytes ∧ ReportRef.new codec bytes = .ok reference := by
  unfold ReportRef.matchesBytes at h
  rw [Bool.and_eq_true] at h
  cases hnew : ReportRef.new codec bytes with
  | error e => simp only [hnew, Bool.false_eq_true, and_false] at h
  | ok actual =>
    simp only [hnew, beq_iff_eq] at h
    refine ⟨?_, by rw [h.2]⟩
    exact (passed_eq_ok.mp hnew).2

theorem ReportRef.new_matchesBytes {bytes : Bytes} (h : ReportRef.new codec bytes = .ok reference) :
    reference.matchesBytes codec bytes = true := by
  unfold ReportRef.matchesBytes
  rw [h]
  rw [← (passed_eq_ok.mp h).1]
  simp

/-- The report a staged row refers to is there. -/
theorem Disk.Sound.reports (h : disk.Sound codec config) {record : Record}
    (hrow : disk.rows[key]? = some record) (hlive : record.liveReport = some reference) :
    ∃ bytes, disk.reports[key]? = some bytes ∧ reference.matchesBytes codec bytes = true := by
  unfold Record.liveReport at hlive
  split at hlive
  next fence stored hstaged =>
    rcases (h.rows key record hrow).2 fence stored hstaged with ⟨publication, hnew, hfile⟩
    rcases new_reportRef hnew with ⟨hnone, hsome⟩
    cases hreport : publication.report with
    | none => exact absurd ((hnone hreport).symm.trans hlive).symm (some_ne_none _)
    | some bytes =>
      rcases hsome bytes hreport with ⟨found, hfound, hreference⟩
      have hsame := some.inj (hreference.symm.trans hlive)
      exact ⟨bytes, hfile bytes hreport, hsame ▸ ReportRef.new_matchesBytes hfound⟩
  next => cases hlive
  next => cases hlive

/-- Reading a sound root finds nothing wrong. -/
theorem Disk.Sound.readEntries (h : disk.Sound codec config) :
    Store.readEntries codec config disk = .ok disk := by
  unfold Store.readEntries
  rw [if_pos]
  simp only [Bool.and_eq_true, List.all_eq_true, decide_eq_true_eq]
  refine ⟨⟨?_, h.room⟩, ?_⟩
  · rintro ⟨key, record⟩ hmem
    have hfits := (h.rows key record ((mem_toList _ _ _).mp hmem)).1
    simp [checkedRow, hfits.valid, hfits.fits, Record.matchesKey, hfits.keyed, Except.toBool]
  · rintro ⟨key, record⟩ hmem
    unfold Store.validateReport
    split
    next => rfl
    next reference hlive =>
      rcases h.reports ((mem_toList _ _ _).mp hmem) hlive with
        ⟨bytes, hfile, hmatches⟩
      simp [hfile, (matchesBytes_length hmatches).1, hmatches]

theorem finishes_saveCapacity (hvalid : capacity.validate = true)
    (hstep : RootStep config disk { disk with capacity := some capacity }) :
    Finishes (RootStep config) (saveCapacity capacity) disk
      (fun _ t => t = { disk with capacity := some capacity }) := by
  unfold saveCapacity
  exact .ensure_true hvalid
    (follows_atomicWrite (fun _ temporary => .litter temporary) hstep rfl)

/-- A reservation is settled by whether its row was written. -/
theorem settle_of_counts {pending : Digest} (hpending : capacity.pendingKey = some pending)
    (hidle : capacity.cleanupPending = false) (hvalid : capacity.validate = true)
    (hcounts : capacity.Counts disk.rows) :
    capacity.settle (disk.rows.contains pending) =
      .ok (.settledAt capacity.maxRecords disk.rows.size) := by
  have hexact := hcounts.exact hidle
  simp only [Capacity.unwritten, hpending] at hexact
  rcases Capacity.validate_iff.mp hvalid with ⟨hmax, hle, hsome, _⟩
  have hpos := hsome (by rw [hpending]; rfl)
  have hsettled : (Capacity.settledAt capacity.maxRecords disk.rows.size).validate = true :=
    Capacity.settledAt_valid (Nat.pos_iff_ne_zero.mpr hmax) (by omega)
  unfold Capacity.settle Capacity.checked
  simp only [hpending, hidle, isNone_some, Bool.or_false, Bool.false_eq_true, if_false]
  cases hcontains : disk.rows.contains pending with
  | true =>
    simp only [hcontains, if_true, Nat.add_zero] at hexact
    simp only [if_true, ← hexact]
    exact if_pos hsettled
  | false =>
    simp only [hcontains, Bool.false_eq_true, if_false] at hexact
    simp only [Bool.false_eq_true, if_false, hpos]
    rw [show capacity.records - 1 = disk.rows.size by omega]
    exact if_pos hsettled

/-- The capacity file a maintenance pass works out from a sound one. -/
theorem reconcile_of_counts (hvalid : capacity.validate = true)
    (hcounts : capacity.Counts disk.rows) :
    ∃ settled, (match capacity.pendingKey with
        | some key => capacity.settle (disk.rows.contains key)
        | none => .ok capacity) = .ok settled ∧
      settled.reconcileCleanup disk.rows.size =
        .ok (.settledAt capacity.maxRecords disk.rows.size) ∧
      (capacity.pendingKey = none → capacity.cleanupPending = false →
        capacity = .settledAt capacity.maxRecords disk.rows.size) := by
  rcases Capacity.validate_iff.mp hvalid with ⟨hmax, hle, _, hcleanup⟩
  cases hpending : capacity.pendingKey with
  | some pending =>
    have hidle : capacity.cleanupPending = false := by
      refine Bool.eq_false_iff.mpr (fun h => ?_)
      rw [(hcleanup h).1] at hpending
      cases hpending
    refine ⟨_, settle_of_counts hpending hidle hvalid hcounts, ?_, ?_⟩
    · simp [Capacity.reconcileCleanup, Capacity.settledAt]
    · intro h
      cases h
  | none =>
    refine ⟨capacity, rfl, ?_, ?_⟩
    · by_cases h : capacity.cleanupPending = true
      · simp only [Capacity.Counts, h, if_true] at hcounts
        simp only [Capacity.reconcileCleanup, Capacity.finishCleanup, Capacity.checked, h,
          hpending, if_true, Bool.not_true, isSome_none, Bool.or_false,
          decide_eq_true_eq, Nat.not_lt.mpr hcounts, Bool.false_or, if_false]
        exact if_pos (Capacity.settledAt_valid (Nat.pos_iff_ne_zero.mpr hmax)
          (hcounts.trans hle))
      · have hidle := Bool.eq_false_iff.mpr h
        have hexact := hcounts.exact hidle
        simp only [Capacity.unwritten, hpending, Nat.add_zero] at hexact
        simp only [Capacity.reconcileCleanup, hidle, Bool.false_eq_true, if_false, hexact,
          if_true, Capacity.settledAt, ← hpending]
        rw [← hidle]
    · intro _ hidle
      have hexact := hcounts.exact hidle
      simp only [Capacity.unwritten, hpending, Nat.add_zero] at hexact
      rw [Capacity.settledAt, hexact, ← hpending, ← hidle]

variable {metadata : RootMetadata}

/-- Whatever the capacity file of a sound root says, it is brought in line with
    the rows. -/
theorem finishes_prepareCapacity (h : disk.Sound codec config)
    (hstored : disk.metadata = some metadata) :
    Finishes (RootStep config)
      (Store.prepareCapacity config disk.rows (decide (metadata.schema = .legacy))) disk
      (fun capacity t => capacity = .settledAt config.maxRecords disk.rows.size ∧
        t = { disk with capacity := some capacity }) := by
  have hprepared : disk.metadata.isSome := by rw [hstored]; rfl
  have hsettled := Capacity.settledAt_valid config.records_pos h.room
  have hrecount := finishes_saveCapacity hsettled (.recount hprepared h.room)
  have hload : loadOptionalCapacity disk = .ok disk.capacity := by
    unfold loadOptionalCapacity
    cases hcapacity : disk.capacity with
    | none => rfl
    | some capacity => exact if_pos (h.capacity capacity hcapacity).1
  unfold Store.prepareCapacity
  refine .reading_ok hload ?_
  by_cases hlegacy : metadata.schema = .legacy
  · simp only [hlegacy, decide_true, if_true]
    refine .ensure_true ?_ (Follows.ofExcept_ok (if_pos hsettled) ?_)
    · rw [all_eq_true]
      intro capacity hcapacity
      exact beq_iff_eq.mpr (h.capacity capacity hcapacity).2.1
    · refine .bind hrecount ?_
      rintro _ t rfl
      exact .pure ⟨rfl, rfl⟩
  · have hcurrent := RootSchema.current_of_ne hlegacy
    rcases isSome_iff_exists.mp (h.counted ⟨metadata, hstored, hcurrent⟩) with
      ⟨capacity, hcapacity⟩
    rcases h.capacity capacity hcapacity with ⟨hvalid, hmax, hcounts⟩
    rcases reconcile_of_counts hvalid hcounts with ⟨settled, hsettles, hreconciles, hidle⟩
    rw [hmax] at hreconciles hidle
    simp only [hlegacy, decide_false, Bool.false_eq_true, if_false, hcapacity]
    refine .ensure_true hmax (Follows.ofExcept_ok hsettles
      (Follows.ofExcept_ok hreconciles ?_))
    refine .bind (Follows.onlyIf (fun _ => hrecount) ?_) ?_
    · -- nothing was under way, so the file already says what it should
      intro hquiet
      rw [not_or, Bool.not_eq_true, isSome_eq_false_iff, isNone_iff_eq_none,
        Bool.not_eq_true] at hquiet
      rw [← hidle hquiet.1 hquiet.2, ← hcapacity]
    · rintro _ t rfl
      exact .pure ⟨rfl, rfl⟩

/-! ### Removal -/

/-- Removing a leftover directory touches nothing else. -/
theorem finishes_removeTemporary (file : Bool) :
    Finishes (RootStep config) (removeTemporary file) disk
      (fun _ t => ∃ temporary, t = { disk with temporary }) := by
  unfold removeTemporary
  have hfile : Finishes (RootStep config) (onlyIf (file = true)
      (Durable.write (fun disk => { disk with temporary := false :: disk.temporary.tail }) :
        Ledger Unit)) disk
      (fun _ t => ∃ temporary, t = { disk with temporary }) :=
    Follows.onlyIf (fun _ => Follows.write (.litter _) ⟨_, rfl⟩) (fun _ => ⟨_, rfl⟩)
  refine .bind hfile ?_
  rintro _ t ⟨temporary, rfl⟩
  exact .write (.litter _) ⟨_, rfl⟩

theorem finishes_removeReports (entries : Disk) (hrows : disk.rows = entries.rows) :
    Finishes (RootStep config) (Store.removeReports entries) disk
      (fun _ t => ∃ reports, t = { disk with reports }) := by
  unfold Store.removeReports
  refine .foldlM (fun _ _ t => ∃ reports, t = { disk with reports }) ?_
    entries.reports.keys ⟨disk.reports, rfl⟩
  rintro key keys removed t ⟨reports, rfl⟩
  split
  next => exact .pure ⟨reports, rfl⟩
  next hdead =>
  have hidle : ∀ record, disk.rows[key]? = some record → record.liveReport = none := by
    intro record hrecord
    rw [hrows] at hrecord
    simp only [Store.reportIsLive, hrecord, any_some, Bool.not_eq_true,
      isSome_eq_false_iff, isNone_iff_eq_none] at hdead
    exact hdead
  exact .write_bind (.dropReport key hidle) (Follows.pure ⟨_, rfl⟩)

theorem mem_removableKeys :
    key ∈ (rows.toList.filter (fun entry => Store.removable now entry.2)).map Prod.fst ↔
      ∃ record, rows[key]? = some record ∧ Store.removable now record = true := by
  simp

theorem removableKeys_nodup (rows : BTreeMap Digest Record) (now : Int) :
    ((rows.toList.filter (fun entry => Store.removable now entry.2)).map Prod.fst).Nodup := by
  refine List.Nodup.sublist (List.filter_sublist.map _) ?_
  rw [map_fst_toList_eq_keys]
  exact nodup_keys

/-- Rows go one by one between the two writes that mark the capacity file,
    which counts them from above meanwhile. -/
theorem finishes_removeRows (entries : Disk) (now : Int) (hrows : disk.rows = entries.rows)
    (hnow : disk.highWater = now) (hprepared : disk.metadata.isSome)
    (hroom : disk.rows.size ≤ config.maxRecords) :
    Finishes (RootStep config)
      (Store.removeRows entries (.settledAt config.maxRecords entries.rows.size) now) disk
      (fun _ t => t.metadata = disk.metadata) := by
  unfold Store.removeRows
  dsimp only
  subst hnow
  rw [← hrows]
  split
  next => exact .pure rfl
  next hsome =>
  rcases List.exists_mem_of_ne_nil _ (List.isEmpty_eq_false_iff.mp
    (Bool.eq_false_iff.mpr hsome)) with ⟨first, hfirst⟩
  rcases mem_removableKeys.mp hfirst with ⟨record, hrecord, _⟩
  have hpos := size_pos_of_present _ _ hrecord
  have hbegin : (Capacity.settledAt config.maxRecords disk.rows.size).beginCleanup =
      .ok ⟨config.maxRecords, disk.rows.size, none, true⟩ := by
    simp [Capacity.beginCleanup, Capacity.settledAt, Nat.pos_iff_ne_zero.mp hpos]
  have hmarked : Capacity.validate ⟨config.maxRecords, disk.rows.size, none, true⟩ = true :=
    Capacity.validate_iff.mpr ⟨Nat.pos_iff_ne_zero.mp config.records_pos, hroom,
      fun h => absurd h (by simp), fun _ => ⟨rfl, Nat.pos_iff_ne_zero.mp hpos⟩⟩
  refine .ofExcept_ok hbegin ?_
  refine .bind (finishes_saveCapacity hmarked (.mark hprepared hpos hroom)) ?_
  rintro _ t rfl
  refine .bind (Follows.foldlM (fun keys (state : Nat × BTreeMap Digest Record) t =>
    ∃ rows, t = { disk with
        capacity := some ⟨config.maxRecords, disk.rows.size, none, true⟩, rows } ∧
      state.2 = rows ∧ rows.size ≤ disk.rows.size ∧ keys.Nodup ∧
      ∀ key ∈ keys, ∃ record, rows[key]? = some record ∧
        Store.removable disk.highWater record = true) ?_ _ ?_) ?_
  · rintro key keys ⟨removed, states⟩ t ⟨rows, rfl, hstates, hsize, hnodup, hkeys⟩
    rcases hkeys key List.mem_cons_self with ⟨found, hfound, hended⟩
    rw [List.nodup_cons] at hnodup
    refine .write_bind (.dropRow key hfound rfl rfl hended) (Follows.pure ?_)
    refine ⟨rows.erase key, rfl, by rw [← hstates], size_erase_le.trans hsize,
      hnodup.2, ?_⟩
    intro other hother
    have hne : key ≠ other := fun h => hnodup.1 (h ▸ hother)
    rcases hkeys other (List.mem_cons_of_mem _ hother) with ⟨kept, hkept, hkeptEnded⟩
    exact ⟨kept, by rw [getElem?_erased, if_neg hne, hkept], hkeptEnded⟩
  · exact ⟨disk.rows, rfl, rfl, le_refl _, removableKeys_nodup _ _,
      fun key hkey => mem_removableKeys.mp hkey⟩
  rintro ⟨removed, states⟩ t ⟨rows, rfl, rfl, hsize, _, _⟩
  have hsettled : (Capacity.settledAt config.maxRecords states.size).validate = true :=
    Capacity.settledAt_valid config.records_pos (hsize.trans hroom)
  have hfinish : Capacity.finishCleanup ⟨config.maxRecords, disk.rows.size, none, true⟩
      states.size = .ok (.settledAt config.maxRecords states.size) := by
    simp only [Capacity.finishCleanup, Capacity.checked, Bool.not_true, isSome_none,
      Bool.or_false, Bool.false_or, decide_eq_true_eq, Nat.not_lt.mpr hsize, if_false]
    exact if_pos hsettled
  refine .ofExcept_ok hfinish ?_
  refine .bind (finishes_saveCapacity hsettled
    (.recount hprepared (hsize.trans hroom))) ?_
  rintro _ t rfl
  exact .pure rfl

theorem finishes_remove (entries : Disk) (now : Int) (hrows : disk.rows = entries.rows)
    (hnow : disk.highWater = now) (hprepared : disk.metadata.isSome)
    (hroom : disk.rows.size ≤ config.maxRecords) :
    Finishes (RootStep config)
      (Store.remove entries (.settledAt config.maxRecords entries.rows.size) now) disk
      (fun _ t => t.metadata = disk.metadata) := by
  unfold Store.remove
  refine .bind (finishes_removeReports entries hrows) ?_
  rintro _ t ⟨reports, rfl⟩
  refine .bind (finishes_removeRows entries now ?_ ?_ ?_ ?_) ?_
  · exact hrows
  · exact hnow
  · exact hprepared
  · exact hroom
  intro _ t ht
  refine .bind
    (Follows.foldlM (fun _ _ u => u.metadata = t.metadata) ?_ entries.temporary rfl) ?_
  · intro file files removed u hu
    refine .bind (finishes_removeTemporary file) ?_
    rintro _ v ⟨temporary, rfl⟩
    exact .pure hu
  · intro _ u hu
    exact .pure (hu.trans ht)

section

variable (h : disk.Sound codec config)

include h

/-- Maintenance succeeds on a sound prepared root, and leaves it opened. -/
theorem finishes_cleanup (hstored : disk.metadata = some metadata) (hnow : 0 ≤ now) :
    Finishes (RootStep config) (Store.cleanup codec config now) disk (fun _ t => t.Opened) := by
  rcases h.metadata metadata hstored with ⟨hvalid, hmatches⟩
  unfold Store.cleanup
  refine .reading_ok (loadStoredMetadata_eq_ok.mpr ⟨hstored, hvalid⟩) ?_
  refine .ensure_true hmatches (Follows.reading_ok h.readEntries ?_)
  dsimp only
  refine .bind (finishes_prepareCapacity h hstored) ?_
  rintro capacity t ⟨rfl, rfl⟩
  have hadvance : metadata.upgrade.advanceClock now = .ok { metadata with
      schema := .current
      clockHighWaterUnixMillis := max metadata.clockHighWaterUnixMillis now } := by
    simp [RootMetadata.advanceClock, not_lt.mpr hnow, RootMetadata.upgrade]
  refine .ofExcept_ok hadvance ?_
  have hclock : Finishes (RootStep config) (onlyIf
        (decide (metadata.schema = .legacy) = true ∨
          max metadata.clockHighWaterUnixMillis now ≠ metadata.clockHighWaterUnixMillis)
        (saveMetadata { metadata with
          schema := .current
          clockHighWaterUnixMillis := max metadata.clockHighWaterUnixMillis now }))
      { disk with capacity := some (.settledAt config.maxRecords disk.rows.size) }
      (fun _ t => t = { disk with
        capacity := some (.settledAt config.maxRecords disk.rows.size)
        metadata := some { metadata with
          schema := .current
          clockHighWaterUnixMillis := max metadata.clockHighWaterUnixMillis now } }) := by
    refine .onlyIf (fun _ => ?_) ?_
    · unfold saveMetadata
      exact .ensure_true
        (RootMetadata.raise_valid .current hvalid (le_max_left _ _))
        (follows_atomicWrite (fun _ temporary => .litter temporary)
          (.clock _ hstored rfl (le_max_left _ _)) rfl)
    · -- a current root whose mark stands keeps its metadata file
      intro hquiet
      rw [not_or, decide_eq_true_eq, not_not] at hquiet
      rw [hquiet.2, ← RootSchema.current_of_ne hquiet.1, ← hstored]
  refine .bind hclock ?_
  rintro _ t rfl
  refine .mono (finishes_remove disk _ ?_ ?_ ?_ ?_) ?_ (fun _ _ => id)
  · rfl
  · rfl
  · rfl
  · exact h.room
  · intro _ u hu
    exact ⟨_, hu, rfl⟩

/-- Maintenance of a sound prepared root fails only for want of a trusted
    clock reading. -/
theorem follows_cleanupRoot (hstored : disk.metadata = some metadata) (reading : Option Int) :
    Follows (RootStep config) (cleanupRoot codec config reading) disk (fun _ t => t.Opened)
      (fun _ _ => ¬ Trusted reading) := by
  unfold cleanupRoot
  refine .ofExcept_bind (fun now hnow => ?_) (fun _ => not_trusted_of_error)
  exact .of_finishes (finishes_cleanup h hstored (trustedNow_eq_ok.mp hnow).2)

/-- An unprepared root is swept of leftover directories and prepared. -/
theorem finishes_loadOrCreateMetadata (hnow : 0 ≤ now) :
    Finishes (RootStep config) (loadOrCreateMetadata config now) disk
      (fun metadata t => t.metadata = some metadata ∧ metadata.matchesConfig config = true) := by
  unfold loadOrCreateMetadata
  refine .reading_ok rfl ?_
  cases hstored : disk.metadata with
  | some metadata =>
    simp only [isSome_some, if_true]
    refine .reading (fun loaded hloaded => ?_) (fun e herror => ?_)
    · have hload := loadStoredMetadata_eq_ok.mp hloaded
      exact ⟨hload.1, (h.metadata loaded hload.1).2⟩
    · rw [loadStoredMetadata_eq_ok.mpr ⟨hstored, (h.metadata metadata hstored).1⟩] at herror
      cases herror
  | none =>
    simp only [isSome_none, Bool.false_eq_true, if_false]
    rcases h.unprepared hstored with ⟨hcapacity, hrows, hreports⟩
    have hswept : Finishes (RootStep config) prepareNewRoot disk
        (fun _ t => ∃ temporary, t = { disk with temporary }) := by
      unfold prepareNewRoot
      refine .reading_ok rfl (Follows.ensure_true ?_ ?_)
      · rw [hcapacity, hrows, hreports]
        exact ⟨rfl, rfl, rfl⟩
      refine .foldlM (fun _ _ t => ∃ temporary, t = { disk with temporary }) ?_ _
        ⟨disk.temporary, rfl⟩
      rintro file files _ t ⟨temporary, rfl⟩
      refine .mono (finishes_removeTemporary file) ?_ (fun _ _ => id)
      rintro _ u ⟨rest, rfl⟩
      exact ⟨rest, rfl⟩
    refine .bind hswept ?_
    rintro _ t ⟨temporary, rfl⟩
    have hlegacy : (RootMetadata.legacy config now).validate = true ∧ _ :=
      RootMetadata.legacy_valid hnow
    have hsaved : Finishes (RootStep config) (saveMetadata (.legacy config now))
        { disk with temporary }
        (fun _ t => t.metadata = some (.legacy config now)) := by
      unfold saveMetadata
      exact .ensure_true hlegacy.1
        (follows_atomicWrite (fun _ temporary => .litter temporary)
          (.prepare now hnow hstored) rfl)
    refine .bind hsaved ?_
    intro _ t ht
    exact .pure ⟨ht, hlegacy.2⟩

theorem finishes_openStore (hnow : 0 ≤ now) :
    Finishes (RootStep config) (Store.openStore config now) disk
      (fun _ t => t.metadata.isSome) := by
  unfold Store.openStore
  refine .ensure_true hnow (Follows.bind (finishes_loadOrCreateMetadata h hnow) ?_)
  rintro metadata t ⟨hstored, hmatches⟩
  refine .ensure (fun _ => ?_) (fun hdiffers => hdiffers hmatches)
  rw [hstored]
  rfl

/-- Opening a sound root, prepared or not, fails only for want of a trusted
    clock reading. -/
theorem follows_openRoot (caller : Caller) :
    Follows (RootStep config) (openRoot codec config caller) disk (fun _ t => t.Opened)
      (fun _ _ => ¬ (Trusted (caller.clock 0) ∧ Trusted (caller.clock 1))) := by
  unfold openRoot
  refine .ofExcept_bind (fun first hfirst => ?_)
    (fun _ herror htrusted => not_trusted_of_error herror htrusted.1)
  refine .bind (.of_finishes
    (finishes_openStore h (trustedNow_eq_ok.mp hfirst).2).withPath) ?_
  rintro _ t ⟨hprepared, hpath⟩
  have ht := preserved_of_reflTransGen (Disk.Sound codec config)
    (fun _ _ hstep => hstep.sound) hpath h
  rcases isSome_iff_exists.mp hprepared with ⟨metadata, hstored⟩
  refine .bind (Follows.mono (follows_cleanupRoot ht hstored _) (fun _ _ => id)
    (fun _ _ hbad htrusted => hbad htrusted.2)) ?_
  intro _ u hu
  exact .pure hu

end

/-! ### Reachable roots -/

theorem Disk.Opened.stored (h : disk.Opened) : ∃ metadata, disk.metadata = some metadata :=
  h.imp (fun _ => And.left)

/-- Whatever an operation leaves behind is reached by the writes of one row
    operation, or by those of maintenance. -/
theorem Leaves.steps (hleaves : Leaves codec config disk later) (h : disk.Sound codec config) :
    (∃ key, ReflTransGen (RowStep codec key disk.highWater) disk later) ∨
      ReflTransGen (RootStep config) disk later := by
  cases hleaves with
  | call call => exact .inl call.steps.2
  | cleanup reading opened left =>
    rcases opened.stored with ⟨metadata, hstored⟩
    exact .inr ((follows_cleanupRoot h hstored reading).reaches left)
  | reopen caller left => exact .inr ((follows_openRoot h caller).reaches left)

theorem Leaves.sound (hleaves : Leaves codec config disk later) (h : disk.Sound codec config) :
    later.Sound codec config := by
  rcases hleaves.steps h with ⟨key, hpath⟩ | hpath
  · exact preserved_of_reflTransGen (Disk.Sound codec config) (fun _ _ hstep => hstep.sound) hpath h
  · exact preserved_of_reflTransGen (Disk.Sound codec config) (fun _ _ hstep => hstep.sound) hpath h

theorem RowStep.opened {since : Int} (hstep : RowStep codec key since disk later)
    (h : disk.Opened) : later.Opened := by
  cases hstep with
  | clock now stored current hle => exact ⟨_, rfl, current⟩
  | litter | settle | reserve | enter | advance | dropReport | putReport => exact h

theorem RootStep.opened (hstep : RootStep config disk later) (h : disk.Opened) : later.Opened := by
  cases hstep with
  | prepare now trusted unprepared =>
    exact absurd unprepared h.prepared
  | clock now stored counted hle => exact ⟨_, rfl, rfl⟩
  | litter | recount | mark | dropReport | dropRow => exact h

theorem Leaves.opened (hleaves : Leaves codec config disk later)
    (hsound : disk.Sound codec config) (h : disk.Opened) : later.Opened := by
  rcases hleaves.steps hsound with ⟨key, hpath⟩ | hpath
  · exact preserved_of_reflTransGen Disk.Opened (fun _ _ hstep => hstep.opened) hpath h
  · exact preserved_of_reflTransGen Disk.Opened (fun _ _ hstep => hstep.opened) hpath h

theorem reachable_sound (h : Reachable codec config disk) : disk.Sound codec config :=
  preserved_of_reflTransGen (Disk.Sound codec config) (fun _ _ hleaves => hleaves.sound) h
    Disk.sound_empty

/-- Recovery from every disk a root can be in, whatever was interrupted:
    opening it succeeds, and so does maintaining it once it is prepared. The
    capacity file bounds the rows from above and counts them exactly when
    nothing is under way, no more rows exist than are allowed, and every staged
    row's report is there as it was recorded. -/
theorem reachable_recovers (codec : LedgerCodec) (config : LedgerConfig) (disk : Disk)
    (h : Reachable codec config disk) :
    (∀ caller, Trusted (caller.clock 0) → Trusted (caller.clock 1) →
      (openRoot codec config caller disk).answer = .ok ()) ∧
    (∀ reading, Trusted reading → disk.metadata.isSome →
      ∃ removed, (cleanupRoot codec config reading disk).answer = .ok removed) ∧
    (disk.Opened → disk.capacity.isSome) ∧
    (∀ capacity, disk.capacity = some capacity →
      disk.rows.size ≤ capacity.records ∧
        (capacity.pendingKey = none → capacity.cleanupPending = false →
          disk.rows.size = capacity.records)) ∧
    disk.rows.size ≤ config.maxRecords ∧
    ∀ (key : Digest) (record : Record) (fence : Nat) (stored : StoredPublication)
      (reference : ReportRef), disk.rows[key]? = some record →
      record.state = .staged fence stored → stored.reportRef = some reference →
      ∃ bytes, disk.reports[key]? = some bytes ∧
        domainDigest codec.sha256 "amiss/controller-report-blob-v1" bytes = reference.digest ∧
        bytes.length = reference.length := by
  have hsound := reachable_sound h
  refine ⟨?_, ?_, hsound.counted, ?_, hsound.room, ?_⟩
  · intro caller hfirst hsecond
    rcases (Follows.mono (follows_openRoot hsound caller) (fun _ _ => id)
      (fun _ _ hbad => hbad ⟨hfirst, hsecond⟩)).succeeds with ⟨_, hanswer, _⟩
    exact hanswer
  · intro reading htrusted hprepared
    rcases isSome_iff_exists.mp hprepared with ⟨metadata, hstored⟩
    rcases (Follows.mono (follows_cleanupRoot hsound hstored reading) (fun _ _ => id)
      (fun _ _ hbad => hbad htrusted)).succeeds with ⟨removed, hanswer, _⟩
    exact ⟨removed, hanswer⟩
  · intro capacity hstored
    have hcounts := (hsound.capacity capacity hstored).2.2
    refine ⟨hcounts.le, fun hnone hidle => ?_⟩
    have hexact := hcounts.exact hidle
    simpa only [Capacity.unwritten, hnone, Nat.add_zero] using hexact
  · intro key record fence stored reference hrow hstaged hreference
    have hlive : record.liveReport = some reference := by
      rw [Record.liveReport, hstaged]
      exact hreference
    rcases hsound.reports hrow hlive with ⟨bytes, hfile, hmatches⟩
    rw [← (passed_eq_ok.mp (matchesBytes_length hmatches).2).1]
    exact ⟨bytes, hfile, rfl, rfl⟩

end Soundness

/-! ### Isolation -/

section Isolation

variable {codec : LedgerCodec} {config : LedgerConfig} {key : Digest} {since : Int}
  {disk later : Disk}

/-- The files of every other row are as they were, and no row is gone. -/
structure Disk.OnlyRow (key : Digest) (disk later : Disk) : Prop where
  rows : ∀ other : Digest, other ≠ key → later.rows[other]? = disk.rows[other]?
  reports : ∀ other : Digest, other ≠ key → later.reports[other]? = disk.reports[other]?
  kept : ∀ other : Digest, disk.rows[other]?.isSome → later.rows[other]?.isSome

/-- Rows and reports are removed, and none is written. -/
structure Disk.Shrinks (disk later : Disk) : Prop where
  rows : ∀ (other : Digest) record, later.rows[other]? = some record →
    disk.rows[other]? = some record
  reports : ∀ (other : Digest) bytes, later.reports[other]? = some bytes →
    disk.reports[other]? = some bytes

theorem Disk.OnlyRow.step {now : Disk} (h : disk.OnlyRow key now)
    (hstep : RowStep codec key since now later) : disk.OnlyRow key later := by
  rcases h with ⟨hrows, hreports, hkept⟩
  cases hstep with
  | litter | clock | settle | reserve => exact ⟨hrows, hreports, hkept⟩
  | enter | advance =>
    refine ⟨fun other hne => ?_, hreports, fun other hsome => ?_⟩
    · rw [getElem?_inserted, if_neg hne.symm, hrows other hne]
    · rw [getElem?_inserted]
      split
      · rfl
      · exact hkept other hsome
  | dropReport =>
    refine ⟨hrows, fun other hne => ?_, hkept⟩
    rw [getElem?_erased, if_neg hne.symm, hreports other hne]
  | putReport =>
    refine ⟨hrows, fun other hne => ?_, hkept⟩
    rw [getElem?_inserted, if_neg hne.symm, hreports other hne]

theorem RowCall.onlyRow {caller : Caller} {call : RowCall}
    (hleft : later ∈ call.left codec config caller disk) :
    disk.OnlyRow (codec.deliveryKey call.delivery.delivery.identity) later :=
  preserved_of_reflTransGen _ (fun _ _ hstep hthere => hthere.step hstep) (RowCall.steps hleft)
    ⟨fun _ _ => rfl, fun _ _ => rfl, fun _ => id⟩

theorem Disk.Shrinks.step {now : Disk} (h : disk.Shrinks now)
    (hstep : RootStep config now later) : disk.Shrinks later := by
  rcases h with ⟨hrows, hreports⟩
  cases hstep with
  | litter | prepare | recount | clock | mark => exact ⟨hrows, hreports⟩
  | dropReport key =>
    refine ⟨hrows, fun other bytes hheld => ?_⟩
    rw [getElem?_erased] at hheld
    grind
  | dropRow key =>
    refine ⟨fun other record hheld => ?_, hreports⟩
    rw [getElem?_erased] at hheld
    grind

/-- A row operation touches the files of its own delivery only and removes no
    row; opening and maintaining a root only remove. Both hold wherever the
    operation stops. -/
theorem operations_are_isolated (codec : LedgerCodec) (config : LedgerConfig) {disk : Disk}
    (h : Reachable codec config disk) :
    (∀ caller (call : RowCall), ∀ later ∈ call.left codec config caller disk,
      disk.OnlyRow (codec.deliveryKey call.delivery.delivery.identity) later) ∧
    (∀ reading, disk.Opened → ∀ later ∈ (cleanupRoot codec config reading disk).left,
      disk.Shrinks later) ∧
    ∀ caller, ∀ later ∈ (openRoot codec config caller disk).left, disk.Shrinks later := by
  have hsound := reachable_sound h
  have hshrinks : ∀ later, ReflTransGen (RootStep config) disk later → disk.Shrinks later :=
    fun later hpath => preserved_of_reflTransGen _ (fun _ _ hstep hthere => hthere.step hstep) hpath
      ⟨fun _ _ => id, fun _ _ => id⟩
  refine ⟨fun _ _ _ => RowCall.onlyRow, fun reading hopened later hleft => ?_,
    fun caller later hleft => ?_⟩
  · rcases hopened.stored with ⟨metadata, hstored⟩
    exact hshrinks _ ((follows_cleanupRoot hsound hstored reading).reaches hleft)
  · exact hshrinks _ ((follows_openRoot hsound caller).reaches hleft)

end Isolation

/-! ### A root in use -/

namespace Sample

/-- A codec that tells inputs apart by their length alone. -/
def codec : LedgerCodec :=
  ⟨fun bytes => ⟨bytes.length⟩, fun _ => [], fun _ _ _ => [], fun _ => [], fun _ => none⟩

/-- Ten milliseconds of lease, two rows, a window of two hundred. -/
def config : LedgerConfig := ⟨10, 2, ⟨100, 100, by decide, by decide⟩, by decide, by decide⟩

/-- One session, at one moment. -/
def caller (now : Int) : Caller := ⟨7, fun _ => some now, some 9⟩

def commit : Oid := ⟨.sha1, "0123456789012345678901234567890123456789", by decide⟩

def provider : ProviderIdentity := ⟨"github", ⟨"main", by decide⟩⟩

def change : ChangeLocator :=
  ⟨provider, ⟨"github.com", "owner", "name", by decide⟩,
    .pullRequest ⟨1, by decide⟩ ⟨2, by decide⟩ ⟨3, by decide⟩⟩

def delivery : AuthenticatedDelivery :=
  { identity := ⟨provider, ⟨"hook", by decide⟩, .provided ⟨"d1", by decide⟩⟩
    change
    providerRun := ⟨.pullRequest ⟨5⟩, ⟨1, by decide⟩, .sha1, commit⟩ }

/-- The delivery, to be remembered through the given time. -/
def accepted (keep : Int) : AcceptedDelivery := ⟨delivery, .keepThrough keep config.replayWindow⟩

def check : CheckBinding := ⟨⟨1⟩, "amiss", ⟨2⟩⟩

/-- The root once it has been opened. -/
def opened : Disk := (openRoot codec config (caller 5) Disk.empty).store

/-- The root while the row of a first claim is being admitted: its slot is
    reserved and the row is not there. -/
def reserved : Disk :=
  ((claim codec config (caller 5) (accepted 50) check opened).trail[3]?).getD Disk.empty

theorem opened_opened : opened.Opened :=
  (follows_openRoot Disk.sound_empty (caller 5)).answered
    (show (openRoot codec config (caller 5) Disk.empty).answer = .ok () by rfl)

theorem reachable_opened : Reachable codec config opened :=
  .single (.reopen (caller 5) List.mem_cons_self)

theorem reachable_reserved : Reachable codec config reserved := by
  have hthere : ((claim codec config (caller 5) (accepted 50) check opened).trail[3]?).isSome := by
    decide +kernel
  rcases isSome_iff_exists.mp hthere with ⟨disk, hdisk⟩
  have hleft : disk ∈ RowCall.left codec config (caller 5) (.claim (accepted 50) check) opened :=
    List.mem_cons_of_mem _ (List.mem_of_getElem? hdisk)
  have hreserved : reserved = disk := by
    unfold reserved
    rw [hdisk, getD_some]
  rw [hreserved]
  exact reachable_opened.tail (.call (.call (caller 5) _ opened_opened hleft))

end Sample

open Sample

/-- A stop between reserving a slot and writing its row is recovered from. -/
theorem reachable_recovers_reserved :
    (reserved.capacity.any fun capacity =>
        capacity.pendingKey.isSome && capacity.records == 1) = true ∧
      reserved.rows.size = 0 ∧
      (openRoot codec config (caller 5) reserved).answer = .ok () := by
  refine ⟨by decide +kernel, by decide +kernel, ?_⟩
  exact (reachable_recovers _ _ _ reachable_reserved).1 (caller 5) ⟨5, rfl, by decide⟩
    ⟨5, rfl, by decide⟩

theorem operations_are_isolated_claim :
    opened.OnlyRow (codec.deliveryKey delivery.identity)
      (claim codec config (caller 5) (accepted 50) check opened).store :=
  (operations_are_isolated codec config reachable_opened).1 (caller 5)
    (.claim (accepted 50) check) _ List.mem_cons_self

end Amiss
