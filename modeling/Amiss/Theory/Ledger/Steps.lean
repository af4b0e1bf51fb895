import Amiss.Controller.Ledger.Transitions

/-!
# What Ledger Operations Write

Every write a row operation makes is one of a few steps, and so is every write
of opening and maintaining a root. `RowStep` and `RootStep` list them with
what is known of the disk just before each. An operation is taken apart here
once; everything that holds of all reachable disks then follows from the
steps, and a stop after any write needs no argument of its own.

`RowStep` carries the clock's high-water mark from before its operation
began. A row is admitted for a delivery that had not expired at that time: the
clock is read once more before the row is written, so by then it may have.

## Main definitions

* `Record.Step`: How the record of an existing row changes.
* `RowStep`: One write of an operation on the row of `key`.

## Theorems

* `claim_traces`, `renew_traces`, `stage_traces`, `complete_traces`: The
  operations on a row write only row steps.
* `Calls.steps`: So does every call, stopped or not.
-/

namespace Amiss

open Std.ExtTreeMap

open Except

open Option

open Relation (ReflTransGen)
open Durable (Follows Traces onlyIf)
open Fallible (guard_eq_ok passed_eq_ok)

/-! ### Records -/

/-- The next generation of a record, seen at `now` in a new state. -/
def Record.next (record : Record) (now : Int) (state : Record.State) : Record :=
  { record with generation := record.generation + 1, lastSeenUnixMillis := now, state }

variable {record : Record}

theorem Record.advance_eq_ok {advanced : Record} {now : Int}
    (h : record.advance now = .ok advanced) (state : Record.State) :
    { advanced with state } = record.next now state := by
  unfold Record.advance at h
  split at h
  next => cases h
  next generation hgeneration =>
    cases h
    rw [checkedSucc_eq_some hgeneration]
    rfl

/-- How the record of a row changes. A lease is taken over once it has
    expired, or when its publication has no gate commit; the one who holds it
    renews it or stages its publication; what was staged is completed. -/
inductive Record.Step (old : Record) : Record → Prop where
  | takeOver {owner : BitVec 128} {fence : Nat} {expires : Int} (now : Int)
      (taker : BitVec 128) (ends : Int) (running : old.state = .running owner fence expires)
      (expired : expires ≤ now) : Step old (old.next now (.running taker (fence + 1) ends))
  | reevaluate {fence : Nat} {stored : StoredPublication} (now : Int) (taker : BitVec 128)
      (ends : Int) (frozen : old.state = .staged fence stored)
      (ungated : stored.hasGateCommit = false) :
      Step old (old.next now (.running taker (fence + 1) ends))
  | renew {owner : BitVec 128} {fence : Nat} {expires : Int} (now ends : Int)
      (running : old.state = .running owner fence expires) (later : expires ≤ ends) :
      Step old (old.next now (.running owner fence ends))
  | stage {owner : BitVec 128} {fence : Nat} {expires : Int} (now : Int)
      (stored : StoredPublication) (running : old.state = .running owner fence expires) :
      Step old (old.next now (.staged fence stored))
  | complete {fence : Nat} {stored : StoredPublication} (digest : Digest)
      (frozen : old.state = .staged fence stored) :
      Step old (old.next old.lastSeenUnixMillis (.done fence digest))

variable {codec : LedgerCodec}

/-! ### Stored publications -/

theorem new_eq_ok {publication : Publication} {stored : StoredPublication}
    (h : StoredPublication.new codec publication = .ok stored) :
    stored.hasGateCommit = true ∧
      StoredReport.new codec publication.report = .ok stored.report := by
  rw [StoredPublication.new, guard_eq_ok] at h
  rcases h with ⟨_, h⟩
  split at h
  next => cases h
  next report hreport =>
    cases h
    exact ⟨rfl, hreport⟩

theorem new_reportRef {publication : Publication} {stored : StoredPublication}
    (h : StoredPublication.new codec publication = .ok stored) :
    (publication.report = none → stored.reportRef = none) ∧
      ∀ bytes, publication.report = some bytes →
        ∃ reference, ReportRef.new codec bytes = .ok reference ∧
          stored.reportRef = some reference := by
  have hreport := (new_eq_ok h).2
  unfold StoredPublication.reportRef
  cases hbytes : publication.report with
  | none =>
    rw [hbytes, StoredReport.new, ok.injEq] at hreport
    rw [← hreport]
    exact ⟨fun _ => rfl, nofun⟩
  | some bytes =>
    rw [hbytes, StoredReport.new] at hreport
    split at hreport
    next => cases hreport
    next reference hreference =>
    rw [← ok.inj hreport]
    refine ⟨nofun, ?_⟩
    rintro _ ⟨⟩
    exact ⟨reference, hreference, rfl⟩

/-- A staged record is as storing some publication made it, and the report file
    beside it holds that publication's report. -/
def Holds (codec : LedgerCodec) (file : Option Bytes) (record : Record) : Prop :=
  ∀ fence stored, record.state = .staged fence stored →
    ∃ publication, StoredPublication.new codec publication = .ok stored ∧
      ∀ bytes, publication.report = some bytes → file = some bytes

theorem Holds.of_idle {file other : Option Bytes} (h : Holds codec file record)
    (hidle : record.liveReport = none) : Holds codec other record := by
  intro fence stored hstaged
  rcases h fence stored hstaged with ⟨publication, hnew, _⟩
  refine ⟨publication, hnew, fun bytes hbytes => ?_⟩
  rcases (new_reportRef hnew).2 bytes hbytes with ⟨reference, _, hreference⟩
  rw [Record.liveReport, hstaged] at hidle
  exact absurd (hreference.symm.trans hidle) (some_ne_none _)

/-! ### Row steps -/

section RowSteps

variable (codec : LedgerCodec) (config : LedgerConfig) (key : Digest) (since : Int)

/-- A record that may stand in the row of `key`. -/
structure RowFits (record : Record) : Prop where
  valid : record.validate codec = true
  fits : codec.recordFits record = true
  keyed : codec.deliveryKey record.binding.identity = key

/-- One write of an operation on the row of `key` that began when the clock's
    high-water mark stood at `since`. -/
inductive RowStep : Disk → Disk → Prop where
  | litter {disk : Disk} (temporary : List Bool) : RowStep disk { disk with temporary }
  | clock {disk : Disk} {metadata : RootMetadata} (now : Int)
      (stored : disk.metadata = some metadata) (current : metadata.schema = .current)
      (later : metadata.clockHighWaterUnixMillis ≤ now) :
      RowStep disk
        { disk with metadata := some { metadata with clockHighWaterUnixMillis := now } }
  | settle {disk : Disk} {capacity settled : Capacity} (pending : Digest)
      (stored : disk.capacity = some capacity) (reserved : capacity.pendingKey = some pending)
      (settles : capacity.settle (disk.rows.contains pending) = .ok settled) :
      RowStep disk { disk with capacity := some settled }
  | reserve {disk : Disk} {capacity reserved : Capacity}
      (stored : disk.capacity = some capacity) (absent : disk.rows[key]? = none)
      (reserves : capacity.reserve key = .ok reserved) :
      RowStep disk { disk with capacity := some reserved }
  | enter {disk : Disk} {capacity : Capacity} (record : Record) {owner : BitVec 128}
      {expires : Int} (opened : disk.Opened) (stored : disk.capacity = some capacity)
      (reserved : capacity.pendingKey = some key) (absent : disk.rows[key]? = none)
      (fits : RowFits codec key record) (running : record.state = .running owner 1 expires)
      (live : record.replayKeep.expiredAt since = false) :
      RowStep disk { disk with rows := disk.rows.insert key record }
  | advance {disk : Disk} {old new : Record} (stored : disk.rows[key]? = some old)
      (step : old.Step new) (fits : RowFits codec key new)
      (reported : Holds codec disk.reports[key]? new) :
      RowStep disk { disk with rows := disk.rows.insert key new }
  | dropReport {disk : Disk}
      (idle : ∀ record, disk.rows[key]? = some record → record.liveReport = none) :
      RowStep disk { disk with reports := disk.reports.erase key }
  | putReport {disk : Disk} {record : Record} (bytes : Bytes)
      (stored : disk.rows[key]? = some record) (idle : record.liveReport = none) :
      RowStep disk { disk with reports := disk.reports.insert key bytes }

end RowSteps

/-- Replacing a file takes one step, besides the ones that come and go with
    its temporary directory. -/
theorem follows_atomicWrite {R : Disk → Disk → Prop}
    (hlitter : ∀ (disk : Disk) (temporary : List Bool), R disk { disk with temporary })
    {place : Disk → Disk} {disk : Disk} {post : Unit → Disk → Prop}
    {err : LedgerError → Disk → Prop} (hplace : R disk (place disk))
    (h : post () (place disk)) : Follows R (atomicWrite place) disk post err := by
  refine ⟨?_, h⟩
  have hmoved : ReflTransGen R disk (place disk) := .single hplace
  intro t ht
  simp only [Durable.Outcome.left, atomicWrite, List.mem_cons, List.not_mem_nil, or_false] at ht
  rcases ht with rfl | rfl | rfl | rfl | rfl
  · exact hmoved
  · exact .single (hlitter disk _)
  · exact .single (hlitter disk _)
  · exact hmoved.tail (hlitter (place disk) _)
  · exact hmoved

section RowTraces

variable {codec : LedgerCodec} {config : LedgerConfig} {key : Digest} {since : Int}
variable {disk : Disk}

theorem traces_place {place : Disk → Disk} {post : Unit → Disk → Prop}
    (hplace : RowStep codec key since disk (place disk)) (h : post () (place disk)) :
    Traces (RowStep codec key since) (atomicWrite place) disk post :=
  follows_atomicWrite (fun _ temporary => .litter temporary) hplace h

/-! ### Fixed files -/

variable {metadata : RootMetadata}

theorem loadStoredMetadata_eq_ok :
    loadStoredMetadata disk = .ok metadata ↔
      disk.metadata = some metadata ∧ metadata.validate = true := by
  unfold loadStoredMetadata
  cases disk.metadata with
  | none => simp
  | some stored =>
    rw [passed_eq_ok, some.injEq]
    exact and_congr_right (fun h => by rw [h])

theorem loadMetadata_eq_ok :
    loadMetadata disk = .ok metadata ↔
      disk.metadata = some metadata ∧ metadata.validate = true ∧ metadata.schema = .current := by
  unfold loadMetadata
  rw [← and_assoc, ← loadStoredMetadata_eq_ok]
  cases loadStoredMetadata disk with
  | error e => simp
  | ok stored =>
    simp only [ok.injEq]
    constructor
    · intro h
      split at h
      next hcurrent =>
        rw [ok.injEq] at h
        exact ⟨h, h ▸ hcurrent⟩
      next => cases h
    · rintro ⟨rfl, hcurrent⟩
      rw [hcurrent]

variable {now : Int}

theorem RootMetadata.raise_valid (schema : RootSchema) (hvalid : metadata.validate = true)
    (hle : metadata.clockHighWaterUnixMillis ≤ now) :
    RootMetadata.validate { metadata with schema, clockHighWaterUnixMillis := now } = true := by
  simp only [RootMetadata.validate, decide_eq_true_eq] at hvalid ⊢
  exact ⟨hvalid.1, hvalid.2.1, hvalid.2.2.1, hvalid.2.2.2.1, hvalid.2.2.2.2.trans hle⟩

/-- A root whose metadata can be used: opened, valid and of this
    configuration. -/
def Disk.Ready (config : LedgerConfig) (disk : Disk) : Prop :=
  ∃ metadata, disk.metadata = some metadata ∧ metadata.validate = true ∧
    metadata.schema = .current ∧ metadata.matchesConfig config = true

/-- The clock's high-water mark. -/
def Disk.highWater (disk : Disk) : Int :=
  match disk.metadata with
  | none => 0
  | some metadata => metadata.clockHighWaterUnixMillis

theorem Disk.highWater_eq (h : disk.metadata = some metadata) :
    disk.highWater = metadata.clockHighWaterUnixMillis := by
  rw [Disk.highWater, h]

/-- The disk once the clock has been observed at `effective`. -/
def Disk.seen (disk : Disk) (effective : Int) : Disk :=
  { disk with
    metadata := disk.metadata.map fun metadata =>
      { metadata with clockHighWaterUnixMillis := effective } }

theorem Disk.seen_eq (h : disk.metadata = some metadata) (effective : Int) :
    disk.seen effective =
      { disk with metadata := some { metadata with clockHighWaterUnixMillis := effective } } := by
  rw [Disk.seen, h]
  rfl

theorem Disk.seen_opened (h : disk.Opened) (effective : Int) : (disk.seen effective).Opened := by
  rcases h with ⟨metadata, hstored, hcurrent⟩
  rw [Disk.seen_eq hstored]
  exact ⟨_, rfl, hcurrent⟩

/-- Observing the clock raises the high-water mark and does nothing else. -/
theorem follows_observeClock (now : Int) :
    Follows (RowStep codec key since) (observeClock config now) disk
      (fun effective t => disk.Opened ∧ effective = max disk.highWater now ∧
        t = disk.seen effective)
      (fun _ _ => ¬ (0 ≤ now ∧ disk.Ready config)) := by
  unfold observeClock
  refine .ensure_bind (fun hnow => ?_) (fun hnow hready => hnow hready.1)
  refine .reading_bind (fun metadata hload => ?_) ?_
  · rcases loadMetadata_eq_ok.mp hload with ⟨hstored, hvalid, hcurrent⟩
    refine .ensure_bind (fun _ => ?_) ?_
    · have hadvance : metadata.advanceClock now = .ok { metadata with
          clockHighWaterUnixMillis := max metadata.clockHighWaterUnixMillis now } :=
        if_neg (not_lt.mpr hnow)
      refine .ofExcept_ok hadvance ?_
      have hseen := Disk.seen_eq hstored (max metadata.clockHighWaterUnixMillis now)
      have hwritten : ∀ err, Follows (RowStep codec key since) (onlyIf
            (max metadata.clockHighWaterUnixMillis now ≠ metadata.clockHighWaterUnixMillis)
            (saveMetadata { metadata with
              clockHighWaterUnixMillis := max metadata.clockHighWaterUnixMillis now })) disk
          (fun _ t => t = disk.seen (max metadata.clockHighWaterUnixMillis now)) err := by
        intro err
        refine .onlyIf (fun _ => ?_) ?_
        · unfold saveMetadata
          exact .ensure_true
            (RootMetadata.raise_valid metadata.schema hvalid (le_max_left _ _))
            (follows_atomicWrite (fun _ temporary => .litter temporary)
              (.clock _ hstored hcurrent (le_max_left _ _)) hseen.symm)
        · -- the mark stays where it was, so the file is the one already there
          intro hsame
          rw [hseen, not_not.mp hsame, ← hstored]
      refine .bind (hwritten _) ?_
      rintro _ t rfl
      rw [← Disk.highWater_eq hstored]
      exact .pure ⟨⟨metadata, hstored, hcurrent⟩, rfl, rfl⟩
    · rintro hdiffers ⟨_, found, hfound, _, _, hmatches⟩
      rw [hstored, some.injEq] at hfound
      exact hdiffers (hfound ▸ hmatches)
  · rintro e herror ⟨_, found, hfound, hvalid, hcurrent, _⟩
    rw [loadMetadata_eq_ok.mpr ⟨hfound, hvalid, hcurrent⟩] at herror
    cases herror

/-- A clock reading that can be trusted. -/
def Trusted (reading : Option Int) : Prop := ∃ now, reading = some now ∧ 0 ≤ now

theorem trustedNow_eq_ok {reading : Option Int} :
    trustedNow reading = .ok now ↔ reading = some now ∧ 0 ≤ now := by
  unfold trustedNow
  cases reading with
  | none => simp
  | some found =>
    rw [passed_eq_ok, some.injEq]
    exact and_congr_right (fun h => by rw [h])

theorem not_trusted_of_error {reading : Option Int} {e : LedgerError}
    (h : trustedNow reading = .error e) : ¬ Trusted reading := by
  rintro ⟨now, hnow⟩
  rw [trustedNow_eq_ok.mpr hnow] at h
  cases h

/-- The time a call works at, from the mark the clock reading raises. -/
def seenAt (effective : Int) : Option Record → Int
  | none => effective
  | some record => max effective record.lastSeenUnixMillis

/-- A call's time is at least the high-water mark, which it raises. -/
theorem follows_nowFor (reading : Option Int) (record : Option Record) :
    Follows (RowStep codec key since) (nowFor config reading record) disk
      (fun now t => ∃ read, reading = some read ∧ disk.Opened ∧
        now = seenAt (max disk.highWater read) record ∧ t = disk.seen (max disk.highWater read))
      (fun _ _ => ¬ (Trusted reading ∧ disk.Ready config)) := by
  unfold nowFor
  refine .ofExcept_bind (fun now hnow => ?_)
    (fun e herror hready => not_trusted_of_error herror hready.1)
  rcases trustedNow_eq_ok.mp hnow with ⟨hreading, hnonneg⟩
  refine .bind (Follows.mono (follows_observeClock now) (fun _ _ => id)
    (fun _ _ hbad hready => hbad ⟨hnonneg, hready.2⟩)) ?_
  rintro effective t ⟨hopened, rfl, rfl⟩
  refine .pure ⟨now, hreading, hopened, ?_, rfl⟩
  cases record <;> rfl

theorem traces_nowFor (reading : Option Int) (record : Option Record) :
    Traces (RowStep codec key since) (nowFor config reading record) disk
      (fun now t => ∃ read, reading = some read ∧ disk.Opened ∧
        now = seenAt (max disk.highWater read) record ∧
        t = disk.seen (max disk.highWater read)) :=
  Follows.mono (follows_nowFor reading record) (fun _ _ => id) (by simp)

/-! ### Rows -/

theorem checkedRow_eq_ok {record loaded : Record}
    (h : checkedRow codec key record = .ok loaded) :
    record = loaded ∧ RowFits codec key loaded := by
  rw [checkedRow, passed_eq_ok] at h
  rcases h with ⟨rfl, hall⟩
  simp only [Bool.and_eq_true, Record.matchesKey, beq_iff_eq] at hall
  exact ⟨rfl, hall.1.1, hall.1.2, hall.2⟩

theorem load_eq_ok {row : Option Record} (h : load codec key disk = .ok row) :
    disk.rows[key]? = row ∧ ∀ record, row = some record → RowFits codec key record := by
  unfold load at h
  cases hrow : disk.rows[key]? with
  | none =>
    rw [hrow, ok.injEq] at h
    subst h
    exact ⟨rfl, fun _ h => absurd h (some_ne_none _).symm⟩
  | some record =>
    rw [hrow] at h
    cases hchecked : checkedRow codec key record with
    | error e =>
      simp only [hchecked, Except.map, reduceCtorEq] at h
    | ok loaded =>
      simp only [hchecked, Except.map, ok.injEq] at h
      rcases checkedRow_eq_ok hchecked with ⟨rfl, hfits⟩
      subst h
      refine ⟨rfl, ?_⟩
      rintro _ ⟨⟩
      exact hfits

variable {record : Record}

theorem traces_save (hkeyed : codec.deliveryKey record.binding.identity = key)
    (hstep : RowFits codec key record →
      RowStep codec key since disk { disk with rows := disk.rows.insert key record }) :
    Traces (RowStep codec key since) (save codec key record) disk
      (fun _ t => t = { disk with rows := disk.rows.insert key record } ∧
        RowFits codec key record) := by
  unfold save
  refine .ensure_bind (fun hchecked => ?_) (by simp)
  rw [Bool.and_eq_true] at hchecked
  have hfits : RowFits codec key record := ⟨hchecked.1, hchecked.2, hkeyed⟩
  exact traces_place (hstep hfits) ⟨rfl, hfits⟩

variable {capacity : Capacity}

theorem traces_saveCapacity
    (hstep : RowStep codec key since disk { disk with capacity := some capacity }) :
    Traces (RowStep codec key since) (saveCapacity capacity) disk
      (fun _ t => t = { disk with capacity := some capacity }) := by
  unfold saveCapacity
  exact .ensure_bind (fun _ => traces_place hstep rfl) (by simp)

theorem loadOptionalCapacity_eq_ok {capacity : Option Capacity}
    (h : loadOptionalCapacity disk = .ok capacity) : disk.capacity = capacity := by
  unfold loadOptionalCapacity at h
  split at h
  next hnone => rw [hnone, ok.inj h]
  next stored hsome => rw [hsome, (passed_eq_ok.mp h).1]

/-- Recovery settles the reservation found, by whether its row is there. -/
theorem traces_recoverCapacity (hstored : disk.capacity = some capacity) :
    Traces (RowStep codec key since) (recoverCapacity codec capacity) disk
      (fun recovered t => t = { disk with capacity := some recovered }) := by
  unfold recoverCapacity
  split
  next => exact .pure (by rw [← hstored])
  next pending hpending =>
  refine .reading_bind (fun row hrow => ?_) (by simp)
  refine .ofExcept_bind (fun settled hsettled => ?_) (by simp)
  have hpresent : row.isSome = disk.rows.contains pending := by
    rw [contains_eq_isSome, (load_eq_ok hrow).1]
  rw [hpresent] at hsettled
  refine .bind (traces_saveCapacity (.settle pending hstored hpending hsettled)) ?_
  rintro _ t rfl
  exact .pure rfl

theorem reserve_eq_ok {reserved : Capacity} (h : capacity.reserve key = .ok reserved) :
    capacity.pendingKey = none ∧ capacity.cleanupPending = false ∧
      capacity.records < capacity.maxRecords ∧
      reserved = { capacity with records := capacity.records + 1, pendingKey := some key } := by
  rw [Capacity.reserve, guard_eq_ok, guard_eq_ok] at h
  rcases h with ⟨hidle, hroom, h⟩
  split at h
  next => cases h
  next records hrecords =>
  rw [ok.injEq] at h
  simp only [Bool.or_eq_true, not_or, Bool.not_eq_true, isSome_eq_false_iff,
    isNone_iff_eq_none] at hidle
  refine ⟨hidle.1, hidle.2, by omega, ?_⟩
  rw [← h, checkedSucc_eq_some hrecords]

variable {owner : BitVec 128} {expires : Int}

/-- Admitting a row reserves its slot, writes it and settles the slot. -/
theorem traces_saveNew (record : Record) (hopened : disk.Opened)
    (hkeyed : codec.deliveryKey record.binding.identity = key)
    (hrunning : record.state = .running owner 1 expires)
    (hlive : record.replayKeep.expiredAt since = false) :
    Traces (RowStep codec key since) (saveNew codec config key record) disk
      (fun _ _ => True) := by
  unfold saveNew
  refine .reading_bind (fun loaded hloaded => ?_) (by simp)
  cases loaded with
  | none => exact .fail trivial
  | some capacity =>
    refine .ensure_bind (fun _ => ?_) (by simp)
    refine .bind (traces_recoverCapacity (loadOptionalCapacity_eq_ok hloaded)) ?_
    rintro recovered t rfl
    refine .reading_bind (fun row hrow => ?_) (by simp)
    refine .ensure_bind (fun hnone => ?_) (by simp)
    have habsent : disk.rows[key]? = none :=
      (load_eq_ok hrow).1.trans (isNone_iff_eq_none.mp hnone)
    refine .ofExcept_bind (fun reserved hreserved => ?_) (by simp)
    have hpending : reserved.pendingKey = some key := by
      rw [(reserve_eq_ok hreserved).2.2.2]
    refine .bind (traces_saveCapacity (.reserve rfl habsent hreserved)) ?_
    rintro _ t rfl
    refine .bind (traces_save hkeyed
      (fun hfits => .enter record hopened rfl hpending habsent hfits hrunning hlive)) ?_
    rintro _ t ⟨rfl, _⟩
    refine .ofExcept_bind (fun settled hsettled => ?_) (by simp)
    have hpresent : (disk.rows.insert key record).contains key = true := by
      rw [contains_eq_isSome, getElem?_insert_self]
      rfl
    exact .mono (traces_saveCapacity
      (.settle key rfl hpending (by rw [hpresent]; exact hsettled))) (by simp) (by simp)

/-! ### Reports -/

theorem traces_removeReport (hrow : disk.rows[key]? = some record)
    (hidle : record.liveReport = none) :
    Traces (RowStep codec key since) (removeReport key) disk
      (fun _ t => t = { disk with reports := disk.reports.erase key }) := by
  unfold removeReport
  refine .reading_bind (fun present hpresent => ?_) (by simp)
  rw [ok.injEq] at hpresent
  have hnone : ∀ found, disk.rows[key]? = some found → found.liveReport = none :=
    fun found hfound => some.inj (hrow.symm.trans hfound) ▸ hidle
  refine .onlyIf (fun _ => Follows.write (.dropReport hnone) rfl) ?_
  intro habsent
  rw [← hpresent, Bool.not_eq_true, contains_eq_isSome, isSome_eq_false_iff,
    isNone_iff_eq_none] at habsent
  rw [erase_of_absent _ _ habsent]

theorem readReport_eq_ok {report : Option Bytes} (h : readReport key disk = .ok report) :
    disk.reports[key]? = report := by
  unfold readReport at h
  split at h
  next hnone => rw [hnone, ok.inj h]
  next bytes hsome => rw [hsome, (passed_eq_ok.mp h).1]

/-- After saving a report, the file holds what the reference names. -/
theorem traces_saveReport (hrow : disk.rows[key]? = some record)
    (hidle : record.liveReport = none) (report : Option Bytes) (reference : Option ReportRef) :
    Traces (RowStep codec key since) (saveReport codec key report reference) disk
      (fun _ t => ∃ reports, t = { disk with reports } ∧
        ∀ named, reference = some named → ∃ bytes, report = some bytes ∧
          reports[key]? = some bytes ∧ named.matchesBytes codec bytes = true) := by
  unfold saveReport
  split
  next =>
    exact .pure ⟨disk.reports, rfl, nofun⟩
  next bytes named =>
    split
    next hmatches =>
      refine .reading_bind (fun existing hexisting => ?_) (by simp)
      cases existing with
      | none =>
        refine traces_place (.putReport bytes hrow hidle) ⟨_, rfl, ?_⟩
        rintro _ ⟨⟩
        exact ⟨bytes, rfl, getElem?_insert_self, hmatches⟩
      | some found =>
        refine .ensure ?_ (by simp)
        intro hsame
        refine ⟨disk.reports, rfl, ?_⟩
        rintro _ ⟨⟩
        exact ⟨bytes, rfl, hsame ▸ readReport_eq_ok hexisting, hmatches⟩
    next => exact .fail trivial
  next => exact .fail trivial
  next => exact .fail trivial

/-! ### Operations -/

variable {check : CheckBinding} {fence : Nat}

theorem makeLease_traces {evaluationId : OpaqueId} {β : Type} {wrap : DeliveryLease → β} :
    Traces (RowStep codec key since)
      (do
        let lease ← Durable.ofExcept (makeLease evaluationId check fence expires)
        pure (wrap lease)) disk (fun _ t => t = disk) :=
  Follows.ofExcept_bind (fun _ _ => Follows.pure rfl) (by simp)

variable {caller : Caller}

theorem claimNew_traces {delivery : AcceptedDelivery}
    (hkey : codec.deliveryKey delivery.delivery.identity = key)
    (hlive : (StoredReplayKeep.new delivery.replayKeep).expiredAt since = false) :
    Traces (RowStep codec key since) (claimNew codec config caller key delivery check) disk
      (fun _ _ => True) := by
  unfold claimNew
  refine .bind (traces_nowFor _ _) ?_
  rintro now t ⟨read, _, hopened, _, rfl⟩
  refine .ofExcept_bind (fun nonce _ => ?_) (by simp)
  refine .ofExcept_bind (fun evaluationId _ => ?_) (by simp)
  refine .ofExcept_bind (fun expires _ => ?_) (by simp)
  refine .bind (traces_saveNew (.running delivery check evaluationId caller.owner now
    expires) (Disk.seen_opened hopened _) hkey rfl hlive) ?_
  rintro _ t _
  exact .mono makeLease_traces (fun _ _ _ => trivial) (by simp)

/-- Taking a lease over writes the row once, and leaves it running. -/
theorem startRunning_traces (hrow : disk.rows[key]? = some record)
    (hkeyed : codec.deliveryKey record.binding.identity = key)
    (hstep : ∀ ends, record.Step (record.next now (.running caller.owner (fence + 1) ends))) :
    Traces (RowStep codec key since) (startRunning codec config caller key record check fence now)
      disk (fun _ t => ∃ new, t.rows[key]? = some new ∧ new.liveReport = none) := by
  unfold startRunning
  refine .ofExcept_bind (fun nextFence hfence => ?_) (by simp)
  have hnext : nextFence = fence + 1 := by
    split at hfence
    next => cases hfence
    next next hsucc => exact (ok.inj hfence) ▸ checkedSucc_eq_some hsucc
  subst hnext
  refine .ofExcept_bind (fun expires _ => ?_) (by simp)
  refine .ofExcept_bind (fun advanced hadvanced => ?_) (by simp)
  rw [Record.advance_eq_ok hadvanced]
  refine .bind (traces_save hkeyed (fun hfits =>
    .advance hrow (hstep expires) hfits (fun _ _ h => Record.State.noConfusion h))) ?_
  rintro _ t ⟨rfl, _⟩
  refine .mono makeLease_traces ?_ (by simp)
  rintro _ t rfl
  exact ⟨_, getElem?_insert_self, rfl⟩

theorem claimRunning_traces (hrow : disk.rows[key]? = some record)
    (hkeyed : codec.deliveryKey record.binding.identity = key)
    (hrunning : record.state = .running owner fence expires) :
    Traces (RowStep codec key since)
      (claimRunning codec config caller key record check owner fence expires) disk
      (fun _ _ => True) := by
  unfold claimRunning
  refine .bind (traces_nowFor _ _) ?_
  rintro now t ⟨read, _, _, _, rfl⟩
  split
  next =>
    split
    next => exact .mono makeLease_traces (fun _ _ _ => trivial) (by simp)
    next => exact .pure trivial
  next hexpired =>
    exact .mono (startRunning_traces hrow hkeyed
      (fun ends => .takeOver now caller.owner ends hrunning (not_lt.mp hexpired)))
      (by simp) (by simp)

theorem claimRecord_traces (hrow : disk.rows[key]? = some record)
    (hkeyed : codec.deliveryKey record.binding.identity = key) :
    Traces (RowStep codec key since) (claimRecord codec config caller key record check) disk
      (fun _ _ => True) := by
  unfold claimRecord
  split
  next owner fence expires hrunning => exact claimRunning_traces hrow hkeyed hrunning
  next fence stored hstaged =>
    split
    next => exact .reading_bind (fun _ _ => Follows.pure trivial) (by simp)
    next hungated =>
    refine .bind (traces_nowFor _ _) ?_
    rintro now t ⟨read, _, _, _, rfl⟩
    refine .bind (startRunning_traces hrow hkeyed (fun ends =>
      .reevaluate now caller.owner ends hstaged (Bool.eq_false_iff.mpr hungated))) ?_
    rintro claimed t ⟨new, hnew, hidle⟩
    exact .bind (traces_removeReport hnew hidle) (fun _ _ _ => Follows.pure trivial)
  next fence digest hdone =>
    refine .bind (traces_removeReport hrow ?_) (fun _ _ _ => Follows.pure trivial)
    rw [Record.liveReport, hdone]

/-- A delivery that has not expired yet had not expired before. -/
theorem live_of_later {delivery : AcceptedDelivery} {earlier later : Int} (hle : earlier ≤ later)
    (hlive : delivery.replayKeepThroughUnixMillis.any (fun keep => decide (keep < later)) = false) :
    (StoredReplayKeep.new delivery.replayKeep).expiredAt earlier = false := by
  unfold AcceptedDelivery.replayKeepThroughUnixMillis at hlive
  cases hkeep : delivery.replayKeep with
  | permanent => rfl
  | keepThrough keep window =>
    rw [hkeep] at hlive
    simp only [any_some, decide_eq_false_iff_not, not_lt] at hlive
    simp only [StoredReplayKeep.new, StoredReplayKeep.expiredAt, decide_eq_false_iff_not, not_lt]
    exact hle.trans hlive

variable (delivery : AcceptedDelivery)

/-- A delivery found live was live when the call began. -/
theorem follows_acceptedExpired :
    Follows (RowStep codec key since) (acceptedExpired config caller delivery) disk
      (fun expired _ => expired = false →
        (StoredReplayKeep.new delivery.replayKeep).expiredAt disk.highWater = false)
      (fun _ _ => ¬ (Trusted (caller.clock 0) ∧ disk.Ready config)) := by
  unfold acceptedExpired
  refine .bind (follows_nowFor _ _) ?_
  rintro now t ⟨read, _, _, rfl, _⟩
  exact .pure (live_of_later (le_max_left _ _))

theorem claim_traces (check : CheckBinding) :
    Traces (RowStep codec (codec.deliveryKey delivery.delivery.identity) disk.highWater)
      (claim codec config caller delivery check) disk (fun _ _ => True) := by
  unfold claim
  refine .ofExcept_bind (fun _ _ => ?_) (by simp)
  refine .reading_bind (fun row hrow => ?_) (by simp)
  rcases load_eq_ok hrow with ⟨hstored, hfits⟩
  cases row with
  | none =>
    refine .bind (Follows.mono (follows_acceptedExpired delivery) (fun _ _ => id) (by simp)) ?_
    intro expired t hlive
    refine .ensure_bind (fun hfalse => ?_) (by simp)
    exact claimNew_traces rfl (hlive hfalse)
  | some record =>
    dsimp only
    split
    next => exact claimRecord_traces hstored (hfits record rfl).keyed
    next => exact .pure trivial

/-- The session holds the running record's lease, which is live at the time
    the call works at. -/
structure LeaseLive (caller : Caller) (lease : DeliveryLease) (record : Record) (disk : Disk) :
    Prop where
  state : record.state = .running caller.owner lease.fence.raw lease.expiresAtUnixMillis
  evaluation : record.evaluationId = lease.evaluationId
  live : ∃ read, caller.clock 0 = some read ∧
    seenAt (max disk.highWater read) (some record) < lease.expiresAtUnixMillis

variable {lease : DeliveryLease}

theorem holdsLease_iff :
    holdsLease caller record lease owner fence expires = true ↔
      owner = caller.owner ∧ fence = lease.fence.raw ∧ expires = lease.expiresAtUnixMillis ∧
        record.evaluationId = lease.evaluationId := by
  simp only [holdsLease, Bool.and_eq_true, beq_iff_eq]
  constructor
  · rintro ⟨⟨⟨howner, hevaluation⟩, hfence⟩, hexpires⟩
    exact ⟨howner, hfence.symm, hexpires.symm, hevaluation.symm⟩
  · rintro ⟨howner, hfence, hexpires, hevaluation⟩
    exact ⟨⟨⟨howner, hevaluation.symm⟩, hfence.symm⟩, hexpires.symm⟩

/-- A lease that was found held, and live at the time of the call. -/
theorem leaseLive_of_time {read : Int} (hrunning : record.state = .running owner fence expires)
    (hholds : holdsLease caller record lease owner fence expires = true)
    (hread : caller.clock 0 = some read)
    (hnow : now = seenAt (max disk.highWater read) (some record)) (hlive : ¬ expires ≤ now) :
    LeaseLive caller lease record disk := by
  rcases holdsLease_iff.mp hholds with ⟨rfl, rfl, rfl, hevaluation⟩
  exact ⟨hrunning, hevaluation, read, hread, hnow ▸ not_le.mp hlive⟩

theorem renewRecord_traces (hrow : disk.rows[key]? = some record)
    (hkeyed : codec.deliveryKey record.binding.identity = key) :
    Traces (RowStep codec key since) (renewRecord codec config caller key record lease) disk
      (fun outcome _ => ∀ renewed, outcome = .renewed renewed →
        LeaseLive caller lease record disk) := by
  unfold renewRecord
  split
  next => exact .pure (fun _ => LeaseRenewal.noConfusion)
  next => exact .pure (fun _ => LeaseRenewal.noConfusion)
  next owner fence expires hrunning =>
  split
  next hholds =>
    refine .bind (traces_nowFor _ _) ?_
    rintro now t ⟨read, hread, _, hnow, rfl⟩
    split
    next => exact .pure (fun _ => LeaseRenewal.noConfusion)
    next hlive =>
    refine .ofExcept_bind (fun ends _ => ?_) (by simp)
    refine .ofExcept_bind (fun advanced hadvanced => ?_) (by simp)
    rw [Record.advance_eq_ok hadvanced]
    refine .bind (traces_save hkeyed (fun hfits => .advance hrow
      (.renew now _ hrunning (le_max_left _ _)) hfits (fun _ _ h => Record.State.noConfusion h))) ?_
    rintro _ t ⟨rfl, _⟩
    exact .mono makeLease_traces
      (fun _ _ _ _ _ => leaseLive_of_time hrunning hholds hread hnow hlive) (by simp)
  next => exact .pure (fun _ => LeaseRenewal.noConfusion)

/-- A lease is renewed only for the session that holds it, while it is
    live. -/
theorem renew_traces (lease : DeliveryLease) :
    Traces (RowStep codec (codec.deliveryKey delivery.delivery.identity) since)
      (renew codec config caller delivery lease) disk
      (fun outcome _ => ∀ renewed, outcome = .renewed renewed →
        ∃ record, disk.rows[codec.deliveryKey delivery.delivery.identity]? = some record ∧
          record.matchesDelivery delivery lease.check = true ∧
          LeaseLive caller lease record disk) := by
  unfold renew
  refine .ofExcept_bind (fun _ _ => ?_) (by simp)
  refine .reading_bind (fun row hrow => ?_) (by simp)
  rcases load_eq_ok hrow with ⟨hstored, hfits⟩
  cases row with
  | none => exact .pure (fun _ => LeaseRenewal.noConfusion)
  | some record =>
    dsimp only
    split
    next hmatches =>
      refine .mono (renewRecord_traces hstored (hfits record rfl).keyed) ?_ (by simp)
      intro outcome _ hok renewed hrenewed
      exact ⟨record, hstored, hmatches, hok renewed hrenewed⟩
    next => exact .pure (fun _ => LeaseRenewal.noConfusion)

/-- What a row holds once a publication is staged in it. -/
structure Frozen (codec : LedgerCodec) (key : Digest) (record : Record) (fence : Nat)
    (publication : Publication) (disk : Disk) : Prop where
  row : disk.rows[key]? = some record
  state : ∃ stored, record.state = .staged fence stored ∧
    StoredPublication.new codec publication = .ok stored
  report : ∀ bytes, publication.report = some bytes → disk.reports[key]? = some bytes

/-- Staging saves the report before the row that refers to it. -/
theorem stageRunning_traces {publication : Publication} (hrow : disk.rows[key]? = some record)
    (hkeyed : codec.deliveryKey record.binding.identity = key)
    (hrunning : record.state = .running owner fence expires) :
    Traces (RowStep codec key since)
      (stageRunning codec config caller key lease publication record owner fence expires) disk
      (fun outcome t => ∀ frozen, outcome = .staged frozen →
        frozen = ⟨lease.evaluationId, lease.fence, publication⟩ ∧
        LeaseLive caller lease record disk ∧
        ∃ now stored, Frozen codec key (record.next now (.staged lease.fence.raw stored))
          lease.fence.raw publication t) := by
  unfold stageRunning
  split
  next hholds =>
    refine .bind (traces_nowFor _ _) ?_
    rintro now t ⟨read, hread, _, hnow, rfl⟩
    split
    next => exact .pure (fun _ => StageOutcome.noConfusion)
    next hlive =>
    have hidle : record.liveReport = none := by rw [Record.liveReport, hrunning]
    refine .ofExcept_bind (fun stored hstored => ?_) (by simp)
    refine .bind (traces_removeReport hrow hidle) ?_
    rintro _ t rfl
    refine .bind (traces_saveReport ?_ hidle _ _) ?_
    · exact hrow
    rintro _ t ⟨reports, rfl, hreports⟩
    refine .ofExcept_bind (fun advanced hadvanced => ?_) (by simp)
    rw [Record.advance_eq_ok hadvanced]
    have hfile : ∀ bytes, publication.report = some bytes → reports[key]? = some bytes := by
      intro bytes hbytes
      rcases (new_reportRef hstored).2 bytes hbytes with ⟨reference, _, hreference⟩
      rcases hreports reference hreference with ⟨saved, hsaved, hfile, _⟩
      rw [hbytes, some.injEq] at hsaved
      exact hsaved ▸ hfile
    refine .bind (traces_save hkeyed (fun hfits => .advance hrow
      (.stage now stored hrunning) hfits ?_)) ?_
    · rintro _ _ ⟨⟩
      exact ⟨publication, hstored, hfile⟩
    rintro _ t ⟨rfl, _⟩
    refine .pure ?_
    rintro _ ⟨⟩
    have hlease := leaseLive_of_time hrunning hholds hread hnow hlive
    rcases holdsLease_iff.mp hholds with ⟨_, rfl, _, hevaluation⟩
    exact ⟨by rw [hevaluation], hlease, now, stored,
      getElem?_insert_self, ⟨stored, rfl, hstored⟩, hfile⟩
  next => exact .pure (fun _ => StageOutcome.noConfusion)

theorem restage_traces {publication : Publication} {evaluationId : OpaqueId}
    {stored : StoredPublication} :
    Traces (RowStep codec key since)
      (restage codec key lease publication evaluationId fence stored) disk
      (fun outcome t => t = disk ∧ ∀ frozen, outcome = .staged frozen →
        frozen = ⟨lease.evaluationId, lease.fence, publication⟩ ∧
          staged codec key evaluationId fence stored disk = .ok frozen) := by
  unfold restage
  refine .reading_bind (fun existing hexisting => ?_) (by simp)
  split
  next hsame =>
    refine .pure ⟨rfl, ?_⟩
    rintro _ ⟨⟩
    rcases hsame with ⟨hevaluation, hfence, hpublication⟩
    refine ⟨?_, hexisting⟩
    rw [← hevaluation, ← hfence, ← hpublication]
  next =>
    exact .pure ⟨rfl, fun _ => StageOutcome.noConfusion⟩

/-- A stage that succeeds either freezes the publication of a running row, or
    finds it frozen already and writes nothing. -/
theorem stage_traces (lease : DeliveryLease) (publication : Publication) :
    Traces (RowStep codec (codec.deliveryKey delivery.delivery.identity) since)
      (stage codec config caller delivery lease publication) disk
      (fun outcome t => ∀ frozen, outcome = .staged frozen →
        frozen = ⟨lease.evaluationId, lease.fence, publication⟩ ∧
        ∃ record, disk.rows[codec.deliveryKey delivery.delivery.identity]? = some record ∧
          record.matchesDelivery delivery publication.check = true ∧
          publication.check = lease.check ∧
          ((LeaseLive caller lease record disk ∧
              ∃ now stored, Frozen codec (codec.deliveryKey delivery.delivery.identity)
                (record.next now (.staged lease.fence.raw stored)) lease.fence.raw publication
                t) ∨
            t = disk ∧ ∃ fence stored, record.state = .staged fence stored ∧
              staged codec (codec.deliveryKey delivery.delivery.identity) record.evaluationId
                fence stored disk = .ok frozen)) := by
  unfold stage
  refine .ofExcept_bind (fun _ _ => ?_) (by simp)
  refine .reading_bind (fun row hrow => ?_) (by simp)
  rcases load_eq_ok hrow with ⟨hstored, hfits⟩
  cases row with
  | none => exact .pure (fun _ => StageOutcome.noConfusion)
  | some record =>
    dsimp only
    split
    next => exact .pure (fun _ => StageOutcome.noConfusion)
    next hmatches =>
    simp only [Bool.or_eq_true, not_or, Bool.not_eq_true, Bool.not_eq_false',
      bne_eq_false_iff_eq] at hmatches
    rcases hmatches with ⟨⟨hbound, hcheck⟩, _⟩
    rw [← hcheck] at hbound
    split
    next fence stored hstaged =>
      refine .mono restage_traces ?_ (by simp)
      rintro outcome t ⟨ht, hsame⟩ frozen hfrozen
      rcases hsame frozen hfrozen with ⟨hasked, hread⟩
      exact ⟨hasked, record, hstored, hbound, hcheck, .inr ⟨ht, fence, stored, hstaged, hread⟩⟩
    next => exact .pure (fun _ => StageOutcome.noConfusion)
    next owner fence expires hrunning =>
    refine .mono (stageRunning_traces hstored (hfits record rfl).keyed hrunning) ?_ (by simp)
    intro outcome t hok frozen hfrozen
    rcases hok frozen hfrozen with ⟨hasked, hlive, hnew⟩
    exact ⟨hasked, record, hstored, hbound, hcheck, .inl ⟨hlive, hnew⟩⟩

theorem completeStaged_traces {frozen : StagedPublication} {requested stored : StoredPublication}
    (hrow : disk.rows[key]? = some record)
    (hkeyed : codec.deliveryKey record.binding.identity = key)
    (hstaged : record.state = .staged fence stored) :
    Traces (RowStep codec key since)
      (completeStaged codec key frozen record requested fence stored) disk
      (fun outcome t => outcome = .completed → ∃ done digest, t.rows[key]? = some done ∧
        done = record.next record.lastSeenUnixMillis (.done fence digest)) := by
  unfold completeStaged
  dsimp only
  split
  next => exact .pure LeaseCompletion.noConfusion
  next =>
  refine .reading_bind (fun report _ => ?_) (by simp)
  split
  next =>
    refine .ofExcept_bind (fun advanced hadvanced => ?_) (by simp)
    rw [Record.advance_eq_ok hadvanced]
    refine .bind (traces_save hkeyed (fun hfits => .advance hrow
      (.complete _ hstaged) hfits (fun _ _ h => Record.State.noConfusion h))) ?_
    rintro _ t ⟨rfl, _⟩
    refine .bind (traces_removeReport getElem?_insert_self rfl) ?_
    rintro _ t rfl
    exact .pure (fun _ => ⟨_, _, getElem?_insert_self, rfl⟩)
  next => exact .pure LeaseCompletion.noConfusion

/-- A row whose delivery is completed. -/
def Disk.Completed (codec : LedgerCodec) (disk : Disk) (delivery : AcceptedDelivery)
    (check : CheckBinding) : Prop :=
  ∃ record fence digest,
    disk.rows[codec.deliveryKey delivery.delivery.identity]? = some record ∧
      record.matchesDelivery delivery check = true ∧ record.state = .done fence digest

/-- The row of the delivery says that this evaluation of it is completed. -/
def CompletedAs (codec : LedgerCodec) (delivery : AcceptedDelivery) (check : CheckBinding)
    (evaluationId : OpaqueId) (disk : Disk) : Prop :=
  ∃ record fence digest,
    disk.rows[codec.deliveryKey delivery.delivery.identity]? = some record ∧
      record.matchesDelivery delivery check = true ∧ record.evaluationId = evaluationId ∧
      record.state = .done fence digest

theorem CompletedAs.completed {evaluationId : OpaqueId}
    (h : CompletedAs codec delivery check evaluationId disk) :
    disk.Completed codec delivery check := by
  rcases h with ⟨record, fence, digest, hrow, hmatches, _, hdone⟩
  exact ⟨record, fence, digest, hrow, hmatches, hdone⟩

/-- A completed delivery has a row that says so. -/
theorem complete_traces (frozen : StagedPublication) :
    Traces (RowStep codec (codec.deliveryKey delivery.delivery.identity) since)
      (complete codec config caller delivery frozen) disk
      (fun outcome t => outcome = .completed →
        CompletedAs codec delivery frozen.publication.check frozen.evaluationId t ∧
          lockRow config delivery.replayKeep = .ok ()) := by
  unfold complete
  refine .ofExcept_bind (fun _ hlock => ?_) (by simp)
  refine .reading_bind (fun row hrow => ?_) (by simp)
  rcases load_eq_ok hrow with ⟨hstored, hfits⟩
  cases row with
  | none =>
    dsimp only
    refine .bind (traces_nowFor _ _) ?_
    intro _ _ _
    exact .pure LeaseCompletion.noConfusion
  | some record =>
    dsimp only [completeRecord]
    split
    next => exact .pure LeaseCompletion.noConfusion
    next hmatches =>
    simp only [Bool.or_eq_true, not_or, Bool.not_eq_true, Bool.not_eq_false',
      bne_eq_false_iff_eq] at hmatches
    split
    next => exact .pure LeaseCompletion.noConfusion
    next => exact .fail trivial
    next requested _ =>
    split
    next fence digest hdone =>
      split
      next =>
        refine .bind (traces_removeReport hstored (by rw [Record.liveReport, hdone])) ?_
        rintro _ t rfl
        exact .pure (fun _ =>
          ⟨⟨record, fence, digest, hstored, hmatches.1, hmatches.2.symm, hdone⟩, hlock⟩)
      next => exact .pure LeaseCompletion.noConfusion
    next => exact .pure LeaseCompletion.noConfusion
    next fence stored hstaged =>
    refine .mono (completeStaged_traces hstored (hfits record rfl).keyed hstaged) ?_ (by simp)
    intro outcome t hdone hcompleted
    rcases hdone hcompleted with ⟨done, digest, hrow, rfl⟩
    exact ⟨⟨_, fence, digest, hrow, hmatches.1, hmatches.2.symm, rfl⟩, hlock⟩

/-- Every store a row call leaves behind is reached by steps on its row. -/
theorem RowCall.steps {call : RowCall} {later : Disk}
    (h : later ∈ call.left codec config caller disk) :
    ReflTransGen (RowStep codec (codec.deliveryKey call.delivery.delivery.identity)
      disk.highWater) disk later := by
  cases call with
  | claim delivery check => exact (claim_traces delivery check).reaches h
  | renew delivery lease => exact (renew_traces delivery lease).reaches h
  | stage delivery lease publication => exact (stage_traces delivery lease publication).reaches h
  | complete delivery frozen => exact (complete_traces delivery frozen).reaches h

theorem Calls.steps {later : Disk} (h : Calls codec config disk later) :
    disk.Opened ∧ ∃ key, ReflTransGen (RowStep codec key disk.highWater) disk later := by
  cases h with
  | call caller call opened left => exact ⟨opened, _, RowCall.steps left⟩

end RowTraces

end Amiss
