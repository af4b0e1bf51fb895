import Amiss.Theory.Ledger.Replay

/-!
# Leases and Frozen Publications

What the sessions of one root can do to the row of a delivery between them.
The row keeps its evaluation and its fence only grows. A lease is renewed, and
a publication staged, only for the session that holds the row's owner and
fence and before its lease has expired; anyone else has lost it. Once a
publication is staged, a claim returns exactly that publication until it is
completed, and a duplicate from then on.

A publication survives being stored: `StoredPublication.materialize` undoes
`StoredPublication.new`, so what a claim returns is the publication that was
staged and not only one with the same digest.

## Main definitions

* `Record.Continues`: A later record of the same evaluation.
* `StagedAs`: What the row of a staged delivery holds.

## Theorems

* `materialize_new`: Storing a publication loses nothing.
* `continues_of_calls`: Calls keep the evaluation of every row.
* `renew_lost`, `stage_lost`: Everyone but the holder has lost the lease.
* `RowStep.frozen`: What was staged stays until it is completed.
* `RowCall.left_frozen`: Only completing it does that.
* `lease_fencing`: The contract of the ledger's sessions.
* `Record.Step.valid`: Steps make valid records.
-/

namespace Amiss

open Relation (ReflTransGen)
open Durable (Follows)
open Fallible (guard_eq_ok)

section Leases

variable {codec : LedgerCodec} {config : LedgerConfig} {disk later : Disk} {key other : Digest}
  {since : Int} {caller : Caller}

/-! ### Storing a publication -/

theorem StoredChange.materialize_new (change : ChangeLocator) :
    (StoredChange.new change).materialize = .ok change := by
  unfold StoredChange.materialize StoredChange.new RepositoryIdentity.new
  dsimp only
  rw [dif_pos change.repository.valid]

/-- A stored report goes with exactly the report it was made of. -/
theorem StoredReport.verify_iff {report : Option Bytes} {stored : StoredReport} :
    stored.verify codec report = true ↔ StoredReport.new codec report = .ok stored := by
  cases report with
  | none => cases stored <;> simp [StoredReport.verify, StoredReport.new]
  | some bytes =>
    dsimp only [StoredReport.new]
    constructor
    · intro h
      cases stored with
      | absent => cases h
      | blob reference => rw [(matchesBytes_length h).2]
    · intro h
      split at h
      next => cases h
      next reference hreference =>
        cases h
        exact ReportRef.new_matchesBytes hreference

variable {publication : Publication} {stored : StoredPublication}

/-- Reading a stored publication back returns the publication. -/
theorem materialize_new (hnew : StoredPublication.new codec publication = .ok stored)
    (hvalid : stored.validateMetadata codec = true) :
    stored.materialize codec publication.report = .ok publication := by
  rw [StoredPublication.new, guard_eq_ok] at hnew
  rcases hnew with ⟨hartifact, hnew⟩
  split at hnew
  next => cases hnew
  next report hreport =>
  cases hnew
  have hrun := hvalid
  simp only [StoredPublication.validateMetadata, StoredRun.validate, Bool.and_eq_true] at hrun
  rcases hrun with ⟨_, ⟨_, hcommits⟩, htrees⟩
  simp only [Bool.not_eq_true', Bool.not_eq_false] at hartifact
  unfold StoredPublication.materialize
  simp [hvalid, StoredReport.verify_iff.mpr hreport, hartifact, StoredRun.materialize,
    StoredChange.materialize_new, RunIdentity.new, hcommits, htrees]

theorem StoredRun.materialize_eq_ok {run : StoredRun} {identity : RunIdentity}
    (h : run.materialize = .ok identity) :
    run = ⟨.new identity.change, identity.refs, identity.objectFormat, identity.commits,
      identity.trees⟩ := by
  unfold StoredRun.materialize at h
  split at h
  next => cases h
  next change hchange =>
  split at h
  next => cases h
  next found hfound =>
  cases h
  unfold RunIdentity.new at hfound
  split at hfound
  next => cases hfound
  next =>
  cases hfound
  unfold StoredChange.materialize at hchange
  split at hchange
  next => cases hchange
  next repository hrepository =>
  cases hchange
  unfold RepositoryIdentity.new at hrepository
  split at hrepository
  next =>
    cases hrepository
    rfl
  next => cases hrepository

/-- What is read back was stored from what it reads as. -/
theorem new_of_materialize {report : Option Bytes}
    (h : stored.materialize codec report = .ok publication) :
    publication.report = report ∧ StoredPublication.new codec publication = .ok stored := by
  rw [StoredPublication.materialize, guard_eq_ok] at h
  rcases h with ⟨hchecks, h⟩
  simp only [Bool.or_eq_true, not_or, Bool.not_eq_true, Bool.not_eq_false'] at hchecks
  rcases hchecks with ⟨⟨_, hreport⟩, hartifact⟩
  split at h
  next => cases h
  next => cases h
  next gate run hgate hrun =>
  cases h
  refine ⟨rfl, ?_⟩
  unfold StoredPublication.new
  simp only [hartifact, StoredReport.verify_iff.mp hreport, Bool.not_true, Bool.false_eq_true,
    if_false, ← StoredRun.materialize_eq_ok hrun, ← hgate]

variable {record : Record} {fence : Nat}

/-- A valid record with a gated publication passes the checks on reading the
    publication back. -/
theorem Record.validate_staged (h : record.validate codec = true)
    (hstaged : record.state = .staged fence stored) (hgated : stored.hasGateCommit = true) :
    fence ≠ 0 ∧ stored.validateMetadata codec = true := by
  simp only [Record.validate, hstaged, Bool.and_eq_true, decide_eq_true_eq,
    StoredPublication.validateBinding, hgated, if_true] at h
  exact ⟨h.2.1.1, h.2.2.1.1.1.1.1.1.2⟩

/-- The report beside a row with a frozen publication is that publication's. -/
theorem Frozen.loadReport (h : Frozen codec key record fence publication disk)
    (hnew : StoredPublication.new codec publication = .ok stored) :
    Amiss.loadReport codec key stored.reportRef disk = .ok publication.report := by
  cases hreport : publication.report with
  | none =>
    rw [(new_reportRef hnew).1 hreport]
    rfl
  | some bytes =>
    rcases (new_reportRef hnew).2 bytes hreport with ⟨reference, hreference, hnamed⟩
    have hmatches := ReportRef.new_matchesBytes hreference
    have hlength := (matchesBytes_length hmatches).1
    simp [hnamed, Amiss.loadReport, readReport, h.report bytes hreport, hlength, hmatches]

/-- A row with a frozen publication reads back as that publication. -/
theorem Frozen.staged {frozen : StagedPublication}
    (h : Frozen codec key record frozen.fence.raw frozen.publication disk)
    (hevaluation : record.evaluationId = frozen.evaluationId) (hfits : RowFits codec key record)
    (hstaged : record.state = .staged frozen.fence.raw stored) :
    Amiss.staged codec key record.evaluationId frozen.fence.raw stored disk = .ok frozen := by
  rcases h.state with ⟨found, hfound, hnew⟩
  cases hstaged.symm.trans hfound
  have hvalid := (Record.validate_staged hfits.valid hstaged (new_eq_ok hnew).1).2
  have hfence : LeaseFence.new frozen.fence.raw = some frozen.fence :=
    dif_pos frozen.fence.nonzero
  unfold Amiss.staged
  rw [h.loadReport hnew, hfence, hevaluation]
  simp only [bind, Except.bind, materialize_new hnew hvalid]
  rfl

/-- Every staged row of a sound root holds a frozen publication. -/
theorem Disk.Sound.frozen (h : disk.Sound codec config) (hrow : disk.rows[key]? = some record)
    (hstaged : record.state = .staged fence stored) :
    ∃ frozen : StagedPublication, frozen.evaluationId = record.evaluationId ∧
      frozen.fence.raw = fence ∧ Frozen codec key record fence frozen.publication disk := by
  rcases h.rows key record hrow with ⟨hfits, hholds⟩
  rcases hholds fence stored hstaged with ⟨publication, hnew, hfile⟩
  have hnonzero := (Record.validate_staged hfits.valid hstaged (new_eq_ok hnew).1).1
  exact ⟨⟨record.evaluationId, ⟨fence, hnonzero⟩, publication⟩, rfl, rfl, hrow,
    ⟨stored, hstaged, hnew⟩, hfile⟩

/-! ### The history of a row -/

/-- A later record of the same delivery, check and evaluation. -/
structure Record.Continues (old new : Record) : Prop where
  binding : new.binding = old.binding
  replayKeep : new.replayKeep = old.replayKeep
  check : new.check = old.check
  evaluation : new.evaluationId = old.evaluationId
  fence : old.state.fence ≤ new.state.fence

theorem Record.Continues.refl (record : Record) : record.Continues record :=
  ⟨rfl, rfl, rfl, rfl, le_refl _⟩

theorem Record.Continues.trans {old mid new : Record} (h : old.Continues mid)
    (h' : mid.Continues new) : old.Continues new :=
  ⟨h'.binding.trans h.binding, h'.replayKeep.trans h.replayKeep, h'.check.trans h.check,
    h'.evaluation.trans h.evaluation, h.fence.trans h'.fence⟩

theorem Record.Step.continues {old new : Record} (h : old.Step new) : old.Continues new := by
  cases h with
  | takeOver now taker ends running | renew now ends running | stage now stored running =>
    refine ⟨rfl, rfl, rfl, rfl, ?_⟩
    rw [running]
    simp only [Record.next, Record.State.fence, Nat.le_succ, le_refl]
  | reevaluate now taker ends frozen | complete digest frozen =>
    refine ⟨rfl, rfl, rfl, rfl, ?_⟩
    rw [frozen]
    simp only [Record.next, Record.State.fence, Nat.le_succ, le_refl]

/-- A write of a row operation leaves every row that exists, with the same
    evaluation. -/
theorem RowStep.continues (hstep : RowStep codec other since disk later)
    (hrow : disk.rows[key]? = some record) :
    ∃ found, later.rows[key]? = some found ∧ record.Continues found := by
  rcases hstep.row with hsame | ⟨new, hnew, _, ⟨habsent, _⟩ | ⟨old, hold, hnext⟩⟩
  · exact ⟨record, hsame.trans hrow, .refl record⟩
  · cases hrow.symm.trans habsent
  · cases hrow.symm.trans hold
    exact ⟨new, hnew, hnext.continues⟩

/-- What every write of a row operation keeps, a call keeps. -/
theorem Calls.preserves (Inv : Disk → Prop)
    (hstep : ∀ {key since disk later}, RowStep codec key since disk later → Inv disk → Inv later)
    (hcall : Calls codec config disk later) (h : Inv disk) : Inv later := by
  rcases hcall.steps.2 with ⟨key, hpath⟩
  exact preserved_of_reflTransGen Inv (fun _ _ => hstep) hpath h

/-- So do any calls of any sessions, one after the other. -/
theorem calls_preserve (Inv : Disk → Prop)
    (hstep : ∀ {key since disk later}, RowStep codec key since disk later → Inv disk → Inv later)
    (hrun : ReflTransGen (Calls codec config) disk later) (h : Inv disk) : Inv later :=
  preserved_of_reflTransGen Inv (fun _ _ hcall => hcall.preserves Inv hstep) hrun h

theorem continues_of_calls (hrun : ReflTransGen (Calls codec config) disk later)
    (hrow : disk.rows[key]? = some record) :
    ∃ found, later.rows[key]? = some found ∧ record.Continues found := by
  refine calls_preserve
    (fun disk => ∃ found, disk.rows[key]? = some found ∧ record.Continues found) ?_ hrun
    ⟨record, hrow, .refl record⟩
  rintro _ _ _ _ hstep ⟨found, hfound, hcontinues⟩
  rcases hstep.continues hfound with ⟨next, hnext, hnextContinues⟩
  exact ⟨next, hnext, hcontinues.trans hnextContinues⟩

/-! ### Holding a lease -/

/-- The session holds the row's lease before it has expired. -/
def LeaseHeld (codec : LedgerCodec) (caller : Caller) (delivery : AcceptedDelivery)
    (lease : DeliveryLease) (disk : Disk) : Prop :=
  ∃ record, disk.rows[codec.deliveryKey delivery.delivery.identity]? = some record ∧
    record.matchesDelivery delivery lease.check = true ∧ LeaseLive caller lease record disk

/-- The time a call on a sound, opened root works at. -/
theorem Disk.Sound.nowFor_answer (h : disk.Sound codec config) (hopened : disk.Opened)
    {reading : Option Int} (htrusted : Trusted reading) (record : Option Record) :
    ∃ read, reading = some read ∧
      (nowFor config reading record disk).answer =
        .ok (seenAt (max disk.highWater read) record) := by
  have hfollows : Durable.Finishes (RowStep codec ⟨0⟩ 0) (nowFor config reading record) disk _ :=
    Follows.mono (follows_nowFor reading record) (fun _ _ => id)
      (fun _ _ hbad => hbad ⟨htrusted, h.ready hopened⟩)
  rcases hfollows.succeeds with ⟨now, hanswer, read, hread, _, hnow, _⟩
  exact ⟨read, hread, hnow ▸ hanswer⟩

variable {lease : DeliveryLease}

/-- A lease that is held but not live was found expired. -/
theorem expired_of_not_live {owner : BitVec 128} {expires read : Int}
    (hrunning : record.state = .running owner fence expires)
    (hholds : holdsLease caller record lease owner fence expires = true)
    (hread : caller.clock 0 = some read) (h : ¬ LeaseLive caller lease record disk) :
    expires ≤ seenAt (max disk.highWater read) (some record) :=
  not_not.mp (fun hlive => h (leaseLive_of_time hrunning hholds hread rfl hlive))

variable {delivery : AcceptedDelivery}

/-- A session that does not hold the lease, or holds it too late, cannot renew
    it. -/
theorem renew_lost (hsound : disk.Sound codec config)
    (hlock : lockRow config delivery.replayKeep = .ok ()) (htrusted : Trusted (caller.clock 0))
    (h : ¬ LeaseHeld codec caller delivery lease disk) :
    (renew codec config caller delivery lease disk).answer = .ok .lost := by
  rw [renew, hsound.locked_run hlock]
  cases hrow : disk.rows[codec.deliveryKey delivery.delivery.identity]? with
  | none => rfl
  | some record =>
    dsimp only
    split
    next hmatches =>
      unfold renewRecord
      cases hstate : record.state with
      | staged fence stored => rfl
      | done fence digest => rfl
      | running owner fence expires =>
        dsimp only
        split
        next hholds =>
          rcases hsound.nowFor_answer (hsound.opened_of_row hrow).1 htrusted
            (some record) with ⟨read, hread, hanswer⟩
          rw [Durable.answer_bind, hanswer]
          dsimp only
          rw [if_pos (expired_of_not_live hstate hholds hread
            (fun hlive => h ⟨record, hrow, hmatches, hlive⟩))]
          rfl
        next => rfl
    next => rfl

/-! ### Frozen publications -/

/-- The row of the delivery holds this publication, frozen. -/
def StagedAs (codec : LedgerCodec) (delivery : AcceptedDelivery) (frozen : StagedPublication)
    (disk : Disk) : Prop :=
  ∃ record,
    Frozen codec (codec.deliveryKey delivery.delivery.identity) record frozen.fence.raw
        frozen.publication disk ∧
      record.evaluationId = frozen.evaluationId ∧
      record.matchesDelivery delivery frozen.publication.check = true

/-- A write of a row operation leaves a frozen publication alone, or completes
    it. -/
theorem RowStep.frozen (hstep : RowStep codec other since disk later)
    (h : Frozen codec key record fence publication disk) :
    Frozen codec key record fence publication later ∨
      ∃ digest, later.rows[key]? =
        some (record.next record.lastSeenUnixMillis (.done fence digest)) := by
  rcases h.state with ⟨stored, hstaged, hnew⟩
  -- the report of a row without one may come and go
  have hidle : record.liveReport = none → ∀ bytes, publication.report ≠ some bytes := by
    intro hnone bytes hbytes
    rcases (new_reportRef hnew).2 bytes hbytes with ⟨reference, _, hreference⟩
    rw [Record.liveReport, hstaged] at hnone
    exact absurd (hreference.symm.trans hnone) (Option.some_ne_none _)
  cases hstep with
  | @enter capacity new owner expires opened stored reserved absent fits running live =>
    have hne : other ≠ key := by
      rintro rfl
      rw [h.row] at absent
      cases absent
    exact .inl ⟨(getElem?_inserted _ _ _ _).trans ((if_neg hne).trans h.row), h.state, h.report⟩
  | @advance old new found step fits reported =>
    by_cases hkey : other = key
    · subst hkey
      have hsame := Option.some.inj (h.row.symm.trans found)
      subst hsame
      refine .inr ?_
      cases step with
      | takeOver now taker ends running | renew now ends running | stage now stored running =>
        rw [hstaged] at running
        cases running
      | reevaluate now taker ends frozen ungated =>
        rw [hstaged, Record.State.staged.injEq] at frozen
        rw [← frozen.2, (new_eq_ok hnew).1] at ungated
        cases ungated
      | complete digest frozen =>
        rw [hstaged, Record.State.staged.injEq] at frozen
        rw [← frozen.1]
        exact ⟨digest, Std.ExtTreeMap.getElem?_insert_self⟩
    · exact .inl ⟨(getElem?_inserted _ _ _ _).trans ((if_neg hkey).trans h.row), h.state, h.report⟩
  | dropReport idle =>
    refine .inl ⟨h.row, h.state, fun bytes hbytes => ?_⟩
    by_cases hkey : other = key
    · exact absurd hbytes (hidle (idle record (hkey ▸ h.row)) bytes)
    · exact (getElem?_erased _ _ _).trans ((if_neg hkey).trans (h.report bytes hbytes))
  | putReport written found idle =>
    refine .inl ⟨h.row, h.state, fun bytes hbytes => ?_⟩
    by_cases hkey : other = key
    · subst hkey
      have hsame := Option.some.inj (h.row.symm.trans found)
      exact absurd hbytes (hidle (hsame ▸ idle) bytes)
    · exact (getElem?_inserted _ _ _ _).trans ((if_neg hkey).trans (h.report bytes hbytes))
  | litter | clock | settle | reserve => exact .inl ⟨h.row, h.state, h.report⟩

theorem RowStep.completedAs {check : CheckBinding} {evaluationId : OpaqueId}
    (hstep : RowStep codec other since disk later)
    (h : CompletedAs codec delivery check evaluationId disk) :
    CompletedAs codec delivery check evaluationId later := by
  rcases h with ⟨record, fence, digest, hrow, hmatches, hevaluation, hdone⟩
  exact ⟨record, fence, digest, hstep.keeps_done hdone hrow, hmatches, hevaluation, hdone⟩

/-- From staging on, the row holds the publication or is completed. -/
theorem RowStep.staged_or_completed {frozen : StagedPublication}
    (hstep : RowStep codec other since disk later)
    (h : StagedAs codec delivery frozen disk ∨
      CompletedAs codec delivery frozen.publication.check frozen.evaluationId disk) :
    StagedAs codec delivery frozen later ∨
      CompletedAs codec delivery frozen.publication.check frozen.evaluationId later := by
  rcases h with ⟨record, hfrozen, hevaluation, hmatches⟩ | hcompleted
  · rcases hstep.frozen hfrozen with hkept | ⟨digest, hdone⟩
    · exact .inl ⟨record, hkept, hevaluation, hmatches⟩
    · exact .inr ⟨_, frozen.fence.raw, digest, hdone, hmatches, hevaluation, rfl⟩
  · exact .inr (hstep.completedAs hcompleted)

/-- A claim of a frozen publication returns it. -/
theorem claim_staged {frozen : StagedPublication} (hsound : disk.Sound codec config)
    (hlock : lockRow config delivery.replayKeep = .ok ())
    (h : StagedAs codec delivery frozen disk) :
    (claim codec config caller delivery frozen.publication.check disk).answer =
      .ok (.publish frozen) := by
  rcases h with ⟨record, hfrozen, hevaluation, hmatches⟩
  rcases hfrozen.state with ⟨stored, hstaged, hnew⟩
  have hfits := (hsound.rows _ record hfrozen.row).1
  rw [claim, hsound.locked_run hlock, hfrozen.row]
  dsimp only
  rw [if_pos hmatches, claimRecord, hstaged]
  dsimp only
  rw [if_pos (new_eq_ok hnew).1, Durable.reading_bind_run,
    hfrozen.staged hevaluation hfits hstaged]
  rfl

theorem claim_completed {check : CheckBinding} {evaluationId : OpaqueId}
    (hsound : disk.Sound codec config) (hlock : lockRow config delivery.replayKeep = .ok ())
    (h : CompletedAs codec delivery check evaluationId disk) :
    (claim codec config caller delivery check disk).answer = .ok (.duplicate evaluationId) := by
  rcases h with ⟨record, fence, digest, hrow, hmatches, rfl, hdone⟩
  exact claim_done hsound hlock hrow hmatches hdone

/-! ### Staging -/

/-- A staged row that reads back as a publication holds it. -/
theorem Disk.Sound.stagedAs (h : disk.Sound codec config) {frozen : StagedPublication}
    (hrow : disk.rows[codec.deliveryKey delivery.delivery.identity]? = some record)
    (hstaged : record.state = .staged fence stored)
    (hread : staged codec (codec.deliveryKey delivery.delivery.identity) record.evaluationId fence
      stored disk = .ok frozen)
    (hmatches : record.matchesDelivery delivery frozen.publication.check = true) :
    StagedAs codec delivery frozen disk := by
  rcases h.frozen hrow hstaged with ⟨held, hevaluation, rfl, hheld⟩
  cases (hheld.staged hevaluation.symm (h.rows _ record hrow).1 hstaged).symm.trans hread
  exact ⟨record, hheld, hevaluation.symm, hmatches⟩

/-- A call that has nothing to write for the row it finds writes nothing. -/
theorem locked_stays {α : Type} {keep : ReplayKeep} {next : Option Record → Ledger α}
    (hrow : disk.rows[key]? = some record)
    (h : Durable.Traces (fun _ _ => False) (next (some record)) disk fun _ _ => True)
    (hleft : later ∈ ((do
      Durable.ofExcept (lockRow config keep)
      let row ← Durable.reading (load codec key)
      next row) disk).left) : later = disk := by
  have htraces : Durable.Traces (fun _ _ => False) (do
      Durable.ofExcept (lockRow config keep)
      let row ← Durable.reading (load codec key)
      next row) disk fun _ _ => True := by
    refine .ofExcept_bind (fun _ _ => .reading_bind (fun row hload => ?_) (by simp)) (by simp)
    rw [← (load_eq_ok hload).1, hrow]
    exact h
  exact htraces.stays hleft

/-- Staging on a row that is staged already writes nothing. -/
theorem stage_still (hrow : disk.rows[codec.deliveryKey delivery.delivery.identity]? = some record)
    (hstaged : record.state = .staged fence stored) :
    ∀ t ∈ (stage codec config caller delivery lease publication disk).left, t = disk := by
  intro t hleft
  refine locked_stays hrow ?_ hleft
  dsimp only
  split
  next => exact .pure trivial
  next =>
  rw [hstaged]
  dsimp only [restage]
  refine .reading_bind (fun existing _ => ?_) (by simp)
  split
  next => exact .pure trivial
  next => exact .pure trivial

/-- Only completing it writes to a row that holds a frozen publication. -/
theorem RowCall.left_frozen {frozen : StagedPublication} {call : RowCall}
    (hsound : disk.Sound codec config)
    (h : Frozen codec (codec.deliveryKey call.delivery.delivery.identity) record
      frozen.fence.raw frozen.publication disk)
    (hevaluation : record.evaluationId = frozen.evaluationId)
    (hother : ∀ completing, call ≠ .complete completing frozen)
    (hleft : later ∈ call.left codec config caller disk) : later = disk := by
  rcases h.state with ⟨stored, hstaged, hnew⟩
  cases call with
  | claim claiming check =>
    refine locked_stays h.row ?_ hleft
    dsimp only
    split
    next =>
      rw [claimRecord, hstaged]
      dsimp only
      rw [if_pos (new_eq_ok hnew).1]
      exact .reading_bind (fun _ _ => Follows.pure trivial) (by simp)
    next => exact .pure trivial
  | renew renewing lease =>
    refine locked_stays h.row ?_ hleft
    dsimp only [renewRecord]
    rw [hstaged]
    split
    next => exact .pure trivial
    next => exact .pure trivial
  | stage staging lease publication => exact stage_still h.row hstaged later hleft
  | complete completing asked =>
    refine locked_stays h.row ?_ hleft
    dsimp only [completeRecord]
    split
    next => exact .pure trivial
    next hmatches =>
    simp only [Bool.or_eq_true, not_or, Bool.not_eq_true, bne_eq_false_iff_eq] at hmatches
    split
    next => exact .pure trivial
    next => exact .fail trivial
    next requested hrequested =>
    rw [hstaged]
    dsimp only [completeStaged]
    split
    next => exact .pure trivial
    next hsame =>
    simp only [not_or, not_not] at hsame
    rcases hsame with ⟨hfence, _, rfl⟩
    refine .reading_bind (fun report hreport => ?_) (by simp)
    split
    next hheld =>
      -- what is stored and its report settle the publication
      have hvalid := (Record.validate_staged (hsound.rows _ _ h.row).1.valid hstaged
        (new_eq_ok hnew).1).2
      cases (h.loadReport hnew).symm.trans hreport
      have hread := materialize_new hrequested hvalid
      rw [← hheld, materialize_new hnew hvalid] at hread
      rcases asked with ⟨evaluation, asked, publication⟩
      rcases frozen with ⟨_, held, _⟩
      cases hread
      cases hmatches.2.trans hevaluation
      cases LeaseFence.ext hfence
      exact absurd rfl (hother completing)
    next => exact .pure trivial

/-- A call keeps a staged publication, or is one that completes it. -/
theorem StagedAs.left {frozen : StagedPublication} {call : RowCall}
    (hsound : disk.Sound codec config) (h : StagedAs codec delivery frozen disk)
    (hleft : later ∈ call.left codec config caller disk) :
    StagedAs codec delivery frozen later ∨ ∃ completing, call = .complete completing frozen := by
  refine or_iff_not_imp_right.mpr fun hother => ?_
  rcases h with ⟨record, hfrozen, hevaluation, hmatches⟩
  by_cases hkey : codec.deliveryKey delivery.delivery.identity =
      codec.deliveryKey call.delivery.delivery.identity
  · cases RowCall.left_frozen hsound (hkey ▸ hfrozen) hevaluation
      (fun completing heq => hother ⟨completing, heq⟩) hleft
    exact ⟨record, hfrozen, hevaluation, hmatches⟩
  · have honly := RowCall.onlyRow hleft
    exact ⟨record, ⟨(honly.rows _ hkey).trans hfrozen.row, hfrozen.state, fun bytes hbytes =>
      (honly.reports _ hkey).trans (hfrozen.report bytes hbytes)⟩, hevaluation, hmatches⟩

/-- Nothing is staged for a delivery of another replay window. -/
theorem lockRow_of_staged {frozen : StagedPublication}
    (h : (stage codec config caller delivery lease publication disk).answer =
      .ok (.staged frozen)) : lockRow config delivery.replayKeep = .ok () := by
  unfold stage at h
  rw [Durable.ofExcept_bind_run] at h
  cases hlock : lockRow config delivery.replayKeep with
  | error e =>
    rw [hlock] at h
    cases h
  | ok _ => rfl

/-- A session that does not hold the lease of a running row, and does not repeat
    what a staged row holds, cannot stage anything. -/
theorem stage_lost (hsound : disk.Sound codec config)
    (hlock : lockRow config delivery.replayKeep = .ok ()) (htrusted : Trusted (caller.clock 0))
    (hheld : ¬ LeaseHeld codec caller delivery lease disk)
    (hrepeat : ¬ (publication.check = lease.check ∧
      StagedAs codec delivery ⟨lease.evaluationId, lease.fence, publication⟩ disk)) :
    (stage codec config caller delivery lease publication disk).answer = .ok .lost := by
  rw [stage, hsound.locked_run hlock]
  cases hrow : disk.rows[codec.deliveryKey delivery.delivery.identity]? with
  | none => rfl
  | some record =>
    dsimp only
    split
    next => rfl
    next hmatches =>
    simp only [Bool.or_eq_true, not_or, Bool.not_eq_true, Bool.not_eq_false',
      bne_eq_false_iff_eq] at hmatches
    rcases hmatches with ⟨⟨hbound, hcheck⟩, _⟩
    cases hstaged : record.state with
    | staged fence stored =>
      rcases hsound.frozen hrow hstaged with ⟨held, hevaluation, rfl, hfrozen⟩
      have hread := hfrozen.staged hevaluation.symm (hsound.rows _ record hrow).1 hstaged
      dsimp only [restage]
      rw [Durable.reading_bind_run, hread]
      dsimp only
      rw [if_neg]
      · rfl
      rintro ⟨hsameEvaluation, hsameFence, hsame⟩
      refine hrepeat ⟨hcheck, ?_⟩
      rw [← hsameEvaluation, ← hsameFence, ← hsame]
      rw [← hcheck, ← hsame] at hbound
      exact ⟨record, hfrozen, hevaluation.symm, hbound⟩
    | done fence digest => rfl
    | running owner fence expires =>
      dsimp only [stageRunning]
      split
      next hholds =>
        rcases hsound.nowFor_answer (hsound.opened_of_row hrow).1 htrusted
          (some record) with ⟨read, hread, hanswer⟩
        rw [Durable.answer_bind, hanswer]
        dsimp only
        rw [if_pos (expired_of_not_live hstaged hholds hread
          (fun hlive => hheld ⟨record, hrow, hbound, hlive⟩))]
        rfl
      next => rfl

/-- The contract of the ledger's sessions, on every root they can reach and
    however their calls interleave or stop. -/
theorem lease_fencing (codec : LedgerCodec) (config : LedgerConfig) (disk : Disk)
    (hreach : Reachable codec config disk) (delivery : AcceptedDelivery) :
    -- a row keeps its evaluation, and its fence never falls
    (∀ (later : Disk) (record : Record), ReflTransGen (Calls codec config) disk later →
      disk.rows[codec.deliveryKey delivery.delivery.identity]? = some record →
      ∃ found, later.rows[codec.deliveryKey delivery.delivery.identity]? = some found ∧
        found.evaluationId = record.evaluationId ∧ record.state.fence ≤ found.state.fence) ∧
    -- only the holder of a live lease renews it
    (∀ (caller : Caller) (lease renewed : DeliveryLease),
      (renew codec config caller delivery lease disk).answer = .ok (.renewed renewed) →
      LeaseHeld codec caller delivery lease disk) ∧
    (∀ (caller : Caller) (lease : DeliveryLease), lockRow config delivery.replayKeep = .ok () →
      Trusted (caller.clock 0) → ¬ LeaseHeld codec caller delivery lease disk →
      (renew codec config caller delivery lease disk).answer = .ok .lost) ∧
    -- only the holder stages, or whoever repeats what is staged, changing nothing
    (∀ (caller : Caller) (lease : DeliveryLease) (publication : Publication)
      (frozen : StagedPublication),
      (stage codec config caller delivery lease publication disk).answer = .ok (.staged frozen) →
      frozen = ⟨lease.evaluationId, lease.fence, publication⟩ ∧
        lockRow config delivery.replayKeep = .ok () ∧
        StagedAs codec delivery frozen
          (stage codec config caller delivery lease publication disk).store ∧
        (LeaseHeld codec caller delivery lease disk ∨
          publication.check = lease.check ∧ StagedAs codec delivery frozen disk ∧
            ∀ t ∈ (stage codec config caller delivery lease publication disk).left, t = disk)) ∧
    (∀ (caller : Caller) (lease : DeliveryLease) (publication : Publication),
      lockRow config delivery.replayKeep = .ok () → Trusted (caller.clock 0) →
      ¬ LeaseHeld codec caller delivery lease disk →
      ¬ (publication.check = lease.check ∧
        StagedAs codec delivery ⟨lease.evaluationId, lease.fence, publication⟩ disk) →
      (stage codec config caller delivery lease publication disk).answer = .ok .lost) ∧
    -- what is staged is what claims return until it is completed
    (∀ (frozen : StagedPublication) (later : Disk),
      lockRow config delivery.replayKeep = .ok () → StagedAs codec delivery frozen disk →
      ReflTransGen (Calls codec config) disk later →
      (StagedAs codec delivery frozen later ∧ ∀ claimer,
        (claim codec config claimer delivery frozen.publication.check later).answer =
          .ok (.publish frozen)) ∨
      (CompletedAs codec delivery frozen.publication.check frozen.evaluationId later ∧
        ∀ claimer,
          (claim codec config claimer delivery frozen.publication.check later).answer =
            .ok (.duplicate frozen.evaluationId))) ∧
    -- nothing but completing exactly that publication ends this
    (∀ (frozen : StagedPublication) (caller : Caller) (call : RowCall) (later : Disk),
      StagedAs codec delivery frozen disk → later ∈ call.left codec config caller disk →
      StagedAs codec delivery frozen later ∨ ∃ completing, call = .complete completing frozen) ∧
    -- a complete that succeeds has completed the evaluation
    (∀ (caller : Caller) (frozen : StagedPublication),
      (complete codec config caller delivery frozen disk).answer = .ok .completed →
      lockRow config delivery.replayKeep = .ok () ∧
        CompletedAs codec delivery frozen.publication.check frozen.evaluationId
          (complete codec config caller delivery frozen disk).store) ∧
    -- and from then on claims are duplicates
    (∀ (check : CheckBinding) (evaluationId : OpaqueId) (later : Disk),
      lockRow config delivery.replayKeep = .ok () →
      CompletedAs codec delivery check evaluationId disk →
      ReflTransGen (Calls codec config) disk later → ∀ claimer,
        (claim codec config claimer delivery check later).answer =
          .ok (.duplicate evaluationId)) := by
  have hsound := reachable_sound hreach
  have hkeeps : ∀ {later}, ReflTransGen (Calls codec config) disk later →
      later.Sound codec config := fun hrun =>
    calls_preserve (Disk.Sound codec config) (fun hstep => hstep.sound) hrun hsound
  refine ⟨?_, ?_, ?_, ?_, ?_, ?_, ?_, ?_, ?_⟩
  · intro later record hrun hrow
    rcases continues_of_calls hrun hrow with ⟨found, hfound, hcontinues⟩
    exact ⟨found, hfound, hcontinues.evaluation, hcontinues.fence⟩
  · intro caller lease renewed hanswer
    have htraces : Durable.Traces (RowStep codec
        (codec.deliveryKey delivery.delivery.identity) 0)
        (renew codec config caller delivery lease) disk _ := renew_traces delivery lease
    exact htraces.answered hanswer renewed rfl
  · intro caller lease hlock htrusted hlost
    exact renew_lost hsound hlock htrusted hlost
  · intro caller lease publication frozen hanswer
    have htraces : Durable.Traces (RowStep codec
        (codec.deliveryKey delivery.delivery.identity) 0)
        (stage codec config caller delivery lease publication) disk _ :=
      stage_traces delivery lease publication
    rcases htraces.answered hanswer frozen rfl with
      ⟨rfl, record, hrow, hmatches, hcheck, ⟨hlive, now, stored, hfrozen⟩ |
        ⟨hstore, fence, stored, hstaged, hread⟩⟩
    · refine ⟨rfl, lockRow_of_staged hanswer, ⟨_, hfrozen, hlive.evaluation, hmatches⟩,
        .inl ⟨record, hrow, ?_, hlive⟩⟩
      exact hcheck ▸ hmatches
    · have hheld := hsound.stagedAs hrow hstaged hread hmatches
      exact ⟨rfl, lockRow_of_staged hanswer, hstore.symm ▸ hheld,
        .inr ⟨hcheck, hheld, stage_still hrow hstaged⟩⟩
  · intro caller lease publication hlock htrusted hheld hrepeat
    exact stage_lost hsound hlock htrusted hheld hrepeat
  · intro frozen later hlock hstaged hrun
    rcases calls_preserve
      (fun disk => StagedAs codec delivery frozen disk ∨
        CompletedAs codec delivery frozen.publication.check frozen.evaluationId disk)
      (fun hstep => hstep.staged_or_completed) hrun (.inl hstaged) with hstays | hcompleted
    · exact .inl ⟨hstays, fun _ => claim_staged (hkeeps hrun) hlock hstays⟩
    · exact .inr ⟨hcompleted, fun _ => claim_completed (hkeeps hrun) hlock hcompleted⟩
  · intro frozen caller call later hstaged hleft
    exact hstaged.left hsound hleft
  · intro caller frozen hanswer
    have htraces : Durable.Traces (RowStep codec
        (codec.deliveryKey delivery.delivery.identity) 0)
        (complete codec config caller delivery frozen) disk _ := complete_traces delivery frozen
    exact (htraces.answered hanswer rfl).symm
  · intro check evaluationId later hlock hcompleted hrun claimer
    exact claim_completed (hkeeps hrun) hlock (calls_preserve
      (CompletedAs codec delivery check evaluationId) (fun hstep => hstep.completedAs) hrun
      hcompleted)

/-! ### Valid records -/

/-- A step makes a valid record of a valid one, where the time has not gone back,
    a lease ends after it was granted and a publication is bound to the record. -/
theorem Record.Step.valid {old new : Record} (h : old.Step new)
    (hold : old.validate codec = true) (hseen : old.lastSeenUnixMillis ≤ new.lastSeenUnixMillis)
    (hlive : ∀ owner fence expires, new.state = .running owner fence expires →
      new.lastSeenUnixMillis < expires)
    (hbound : ∀ fence stored, new.state = .staged fence stored →
      stored.validateBinding codec old.evaluationId old.binding old.check = true) :
    new.validate codec = true := by
  simp only [Record.validate, Bool.and_eq_true, decide_eq_true_eq] at hold ⊢
  rcases hold with ⟨⟨⟨hkept, hbinding⟩, hkeep⟩, hstate⟩
  -- The generation grows by one, and the fence by no more than that.
  cases h with
  | takeOver now taker ends running | renew now ends running | stage now stored running =>
    rw [running] at hstate
    simp_all [Record.next]
    omega
  | reevaluate now taker ends frozen | complete digest frozen =>
    rw [frozen] at hstate
    simp_all [Record.next]
    omega

/-- A write of a row operation puts no record in a row that may not stand there. -/
theorem RowStep.rowFits (hstep : RowStep codec other since disk later)
    (h : ∀ record, disk.rows[key]? = some record → RowFits codec key record)
    (record : Record) (hrow : later.rows[key]? = some record) : RowFits codec key record := by
  rcases hstep.row with hsame | ⟨new, hnew, hfits, _⟩
  · exact h record (hsame.symm.trans hrow)
  · cases hnew.symm.trans hrow
    exact hfits

theorem load_of_rowFits (h : RowFits codec key record) (hrow : disk.rows[key]? = some record) :
    load codec key disk = .ok (some record) := by
  simp [load, hrow, checkedRow, h.valid, h.fits, Record.matchesKey, h.keyed, Except.map]

/-- From a row that can be read, calls leave rows that pass the check and can be
    read, and a publication that is staged is stored so that it reads back. -/
theorem written_records_read_back (codec : LedgerCodec) (config : LedgerConfig)
    (delivery : AcceptedDelivery) {disk later : Disk} {row : Option Record}
    (hread : load codec (codec.deliveryKey delivery.delivery.identity) disk = .ok row)
    (hrun : ReflTransGen (Calls codec config) disk later) :
    (∀ record, later.rows[codec.deliveryKey delivery.delivery.identity]? = some record →
      record.validate codec = true ∧
      load codec (codec.deliveryKey delivery.delivery.identity) later = .ok (some record)) ∧
    ∀ (caller : Caller) (lease : DeliveryLease) (publication : Publication)
      (frozen : StagedPublication),
      (stage codec config caller delivery lease publication later).answer = .ok (.staged frozen) →
      frozen.publication = publication ∧ ∃ record fence stored,
        (stage codec config caller delivery lease publication later).store.rows[
          codec.deliveryKey delivery.delivery.identity]? = some record ∧
        record.state = .staged fence stored ∧ StoredPublication.new codec publication = .ok stored ∧
        stored.materialize codec publication.report = .ok publication := by
  rcases load_eq_ok hread with ⟨rfl, hfits⟩
  have hlater := calls_preserve (fun disk => ∀ record, disk.rows[
    codec.deliveryKey delivery.delivery.identity]? = some record → RowFits codec _ record)
    (fun hstep => hstep.rowFits) hrun hfits
  refine ⟨fun record hrow =>
    ⟨(hlater record hrow).valid, load_of_rowFits (hlater record hrow) hrow⟩,
    fun caller lease publication frozen hanswer => ?_⟩
  have htraces : Durable.Traces (RowStep codec (codec.deliveryKey delivery.delivery.identity) 0)
    (stage codec config caller delivery lease publication) later _ :=
    stage_traces delivery lease publication
  rcases htraces.answered hanswer frozen rfl with ⟨rfl, record, hrow, _, _,
    ⟨_, now, _, hfrozen⟩ | ⟨hstore, fence, stored, hstaged, hsame⟩⟩
  · -- A new row: it was checked when it was written.
    rcases hfrozen.state with ⟨stored, hstaged, hnew⟩
    have hkept := preserved_of_reflTransGen _ (fun _ _ hstep => hstep.rowFits)
      (htraces.reaches List.mem_cons_self) hlater _ hfrozen.row
    exact ⟨rfl, _, _, stored, hfrozen.row, hstaged, hnew, materialize_new hnew
      (Record.validate_staged hkept.valid hstaged (new_eq_ok hnew).1).2⟩
  · rw [hstore]
    unfold Amiss.staged at hsame
    rw [Fallible.bind_eq_ok] at hsame
    rcases hsame with ⟨report, _, hsame⟩
    split at hsame
    next => cases hsame
    next =>
    rw [Fallible.bind_eq_ok] at hsame
    rcases hsame with ⟨found, hmaterialized, hsame⟩
    have hfound : found = publication := congrArg (·.publication) (Except.ok.inj hsame)
    subst hfound
    rcases new_of_materialize hmaterialized with ⟨rfl, hnew⟩
    exact ⟨rfl, record, fence, stored, hrow, hstaged, hnew, hmaterialized⟩

end Leases

namespace Sample

/-- Another session, at the same root. -/
def rival (now : Int) : Caller := ⟨8, fun _ => some now, some 10⟩

theorem rival_not_held : ¬ LeaseHeld codec (rival 7) (accepted 50) lease claimed := by
  rintro ⟨record, hrow, _, hlive⟩
  have hother : (claimed.rows[codec.deliveryKey delivery.identity]?).all
      (fun record => decide (record.state ≠ .running 8 1 16)) = true := by decide +kernel
  have hrow' : claimed.rows[codec.deliveryKey delivery.identity]? = some record := hrow
  rw [hrow', Option.all_some, decide_eq_true_eq] at hother
  exact hother hlive.state

theorem staged_not_completed (check : CheckBinding) (evaluationId : OpaqueId) :
    ¬ CompletedAs codec (accepted 50) check evaluationId staged := by
  rintro ⟨record, fence, digest, hrow, _, _, hdone⟩
  have hother : (staged.rows[codec.deliveryKey delivery.identity]?).all
      (fun record => match record.state with | .done _ _ => false | _ => true) = true := by
    decide +kernel
  have hrow' : staged.rows[codec.deliveryKey delivery.identity]? = some record := hrow
  rw [hrow', Option.all_some, hdone] at hother
  cases hother

end Sample

open Sample

/-- A rival session cannot renew the lease of a claimed row, and what its owner
    stages is what every claim returns, until it is completed. -/
theorem lease_fencing_sample : (renew codec config (rival 7) (accepted 50) lease
        claimed).answer = .ok .lost ∧
      (∀ claimer, (claim codec config claimer (accepted 50) check
        Sample.staged).answer = .ok (.publish Sample.frozen)) ∧
      ∀ claimer, (claim codec config claimer (accepted 50) check
        completed).answer = .ok (.duplicate Sample.frozen.evaluationId) := by
  have hclaimed := lease_fencing codec config claimed
    inUse_claimed.1 (accepted 50)
  have hstaged := lease_fencing Sample.codec Sample.config Sample.staged
    Sample.inUse_staged.1 (Sample.accepted 50)
  have hdone := lease_fencing Sample.codec Sample.config completed inUse_completed.1 (accepted 50)
  rcases hstaged.2.2.2.2.2.2.2.1 (caller 8) Sample.frozen (by decide +kernel) with
    ⟨hlocked, hcompleted⟩
  refine ⟨hclaimed.2.2.1 (rival 7) lease (by decide) ⟨7, rfl, by decide⟩ rival_not_held, ?_,
    hdone.2.2.2.2.2.2.2.2 check _ completed hlocked hcompleted .refl⟩
  rcases hclaimed.2.2.2.1 (caller 7) lease Sample.publication frozen
    (by decide +kernel) with ⟨_, hlock, hfrozen, _⟩
  rcases hstaged.2.2.2.2.2.1 Sample.frozen Sample.staged hlock hfrozen .refl with
    ⟨_, hpublish⟩ | ⟨hcompleted, _⟩
  · exact hpublish
  · exact absurd hcompleted (staged_not_completed _ _)

/-- Staging on a claimed row. -/
theorem written_records_read_back_sample :
    ∃ record fence stored,
      (stage codec config (caller 7) (accepted 50) lease
        Sample.publication claimed).store.rows[
          codec.deliveryKey delivery.identity]? = some record ∧
      record.state = .staged fence stored ∧
      StoredPublication.new codec Sample.publication = .ok stored ∧
      stored.materialize codec Sample.publication.report = .ok Sample.publication := by
  have hread : load codec (codec.deliveryKey delivery.identity)
      claimed = .ok claimed.rows[
        codec.deliveryKey delivery.identity]? := by decide +kernel
  exact ((written_records_read_back codec config (accepted 50) hread .refl).2
    (caller 7) lease Sample.publication frozen (by decide +kernel)).2

end Amiss
