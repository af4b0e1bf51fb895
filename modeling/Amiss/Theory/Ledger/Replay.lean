import Amiss.Theory.Ledger.Root

/-!
# A Completed Delivery Stays Completed

Once a row says that its delivery is done, the delivery is not executed
again. Nothing rewrites a done row; maintenance may remove it, but only after
the root's clock has passed the end of its replay lifetime, and that clock
never goes back, whatever the clock readings do. From then on a claim of the
same delivery finds it expired before it could be admitted.

The key of a row is the identity of its delivery, not the delivery: after the
row is removed, another delivery of the same identity may take its place. A
claim of the first delivery is then refused as a conflict and not as expired.

## Main definitions

* `Retired`: A done row stands, or its lifetime ended and it is gone.

## Theorems

* `Leaves.highWater_le`: The clock's high-water mark never falls.
* `Leaves.retired`: A retired delivery stays retired.
* `claim_after_completion`: What claims of a completed delivery return.
-/

namespace Amiss

open Relation (ReflTransGen)
open Durable (Follows)

section Marks

variable {codec : LedgerCodec} {config : LedgerConfig} {disk later : Disk} {key : Digest}
  {since : Int}

theorem RowStep.highWater_le (h : RowStep codec key since disk later) :
    disk.highWater ≤ later.highWater := by
  cases h with
  | clock now stored current hle =>
    rw [Disk.highWater_eq stored]
    exact hle
  | litter | settle | reserve | enter | advance | dropReport | putReport => exact le_refl _

theorem RootStep.highWater_le (h : RootStep config disk later) :
    disk.highWater ≤ later.highWater := by
  cases h with
  | prepare now trusted unprepared =>
    rw [Disk.highWater, unprepared]
    exact trusted
  | clock now stored counted hle =>
    rw [Disk.highWater_eq stored]
    exact hle
  | litter | recount | mark | dropReport | dropRow => exact le_refl _

theorem Leaves.highWater_le (hleaves : Leaves codec config disk later)
    (h : disk.Sound codec config) : disk.highWater ≤ later.highWater := by
  have hpath : ∀ {R : Disk → Disk → Prop}, (∀ s t, R s t → s.highWater ≤ t.highWater) →
      ReflTransGen R disk later → disk.highWater ≤ later.highWater :=
    fun hstep hpath => preserved_of_reflTransGen (disk.highWater ≤ ·.highWater)
      (fun s t hR hle => hle.trans (hstep s t hR)) hpath (le_refl _)
  rcases hleaves.steps h with ⟨key, hrows⟩ | hroot
  · exact hpath (fun _ _ hstep => hstep.highWater_le) hrows
  · exact hpath (fun _ _ hstep => hstep.highWater_le) hroot

theorem StoredReplayKeep.expiredAt_mono {keep : StoredReplayKeep} {earlier later : Int}
    (hle : earlier ≤ later) (h : keep.expiredAt earlier = true) : keep.expiredAt later = true := by
  cases keep with
  | permanent => exact h
  | keepThrough end_ =>
    simp only [expiredAt, decide_eq_true_eq] at h ⊢
    exact lt_of_lt_of_le h hle

end Marks

/-! ### Retired rows -/

section Retired

variable (key : Digest) (done : Record)

/-- The row of `key` still holds the done record, or the record's lifetime
    ended and whatever stands there now has another one. -/
def Retired (disk : Disk) : Prop :=
  disk.rows[key]? = some done ∨
    done.replayKeep.expiredAt disk.highWater = true ∧
      ∀ record, disk.rows[key]? = some record → record.replayKeep ≠ done.replayKeep

variable {codec : LedgerCodec} {config : LedgerConfig} {key done} {disk later : Disk}
  {other : Digest} {since : Int}

theorem Record.Step.replayKeep {old new : Record} (h : old.Step new) :
    new.replayKeep = old.replayKeep := by
  cases h <;> rfl

theorem Record.Step.not_done {old new : Record} (h : old.Step new) (fence : Nat)
    (digest : Digest) : old.state ≠ .done fence digest := by
  cases h with
  | takeOver now taker ends running | renew now ends running | stage now stored running =>
    rw [running]
    exact Record.State.noConfusion
  | reevaluate now taker ends frozen | complete digest frozen =>
    rw [frozen]
    exact Record.State.noConfusion

variable {fence : Nat} {digest : Digest}

/-- What one write of a row operation can do to a row: admit it, or take the
    record there one step further. -/
theorem RowStep.row (hstep : RowStep codec other since disk later) :
    later.rows[key]? = disk.rows[key]? ∨
      ∃ new, later.rows[key]? = some new ∧ RowFits codec key new ∧
        (disk.rows[key]? = none ∧ new.replayKeep.expiredAt since = false ∨
          ∃ old, disk.rows[key]? = some old ∧ old.Step new) := by
  have hinserted : ∀ new, (disk.rows.insert other new)[key]? = disk.rows[key]? ∨
      (disk.rows.insert other new)[key]? = some new ∧ other = key := by
    intro new
    rw [getElem?_inserted]
    split
    next hkey => exact .inr ⟨rfl, hkey⟩
    next => exact .inl rfl
  cases hstep with
  | @enter _ new _ _ _ _ _ absent fits _ live =>
    refine (hinserted new).imp_right ?_
    rintro ⟨hnew, rfl⟩
    exact ⟨new, hnew, fits, .inl ⟨absent, live⟩⟩
  | @advance old new stored step fits =>
    refine (hinserted new).imp_right ?_
    rintro ⟨hnew, rfl⟩
    exact ⟨new, hnew, fits, .inr ⟨old, stored, step⟩⟩
  | litter | clock | settle | reserve | dropReport | putReport => exact .inl rfl

/-- A row operation never touches a done row. -/
theorem RowStep.keeps_done (hstep : RowStep codec other since disk later)
    (hdone : done.state = .done fence digest) (h : disk.rows[key]? = some done) :
    later.rows[key]? = some done := by
  rcases hstep.row with hsame | ⟨new, _, _, ⟨habsent, _⟩ | ⟨old, hold, hnext⟩⟩
  · exact hsame.trans h
  · cases h.symm.trans habsent
  · cases h.symm.trans hold
    exact absurd hdone (hnext.not_done fence digest)

/-- A row is admitted only for a lifetime that had not ended, so not for the
    one that had. -/
theorem RowStep.keeps_apart (hstep : RowStep codec other since disk later)
    (hended : done.replayKeep.expiredAt since = true)
    (h : ∀ record, disk.rows[key]? = some record → record.replayKeep ≠ done.replayKeep) :
    ∀ record, later.rows[key]? = some record → record.replayKeep ≠ done.replayKeep := by
  intro found hfound
  rcases hstep.row with hsame | ⟨new, hnew, _, hcases⟩
  · exact h found (hsame.symm.trans hfound)
  cases hnew.symm.trans hfound
  rcases hcases with ⟨_, hlive⟩ | ⟨old, hold, hnext⟩
  · intro hsame
    rw [hsame, hended] at hlive
    cases hlive
  · rw [hnext.replayKeep]
    exact h old hold

/-- Maintenance removes a done row only once its lifetime has ended. -/
theorem RootStep.retired (hstep : RootStep config disk later) (h : Retired key done disk) :
    Retired key done later := by
  have hmark := hstep.highWater_le
  cases hstep with
  | @dropRow record capacity dropped stored marked pending ended =>
    rcases h with hrow | ⟨hended, hapart⟩
    · by_cases hkey : dropped = key
      · subst hkey
        cases hrow.symm.trans stored
        refine .inr ⟨?_, ?_⟩
        · unfold Store.removable at ended
          split at ended
          next => exact ended
          next => cases ended
          next => cases ended
        · intro found hfound
          dsimp only at hfound
          rw [getElem?_erased, if_pos rfl] at hfound
          cases hfound
      · exact .inl ((getElem?_erased _ _ _).trans ((if_neg hkey).trans hrow))
    · refine .inr ⟨hended, fun found hfound => ?_⟩
      dsimp only at hfound
      rw [getElem?_erased] at hfound
      split at hfound
      next => cases hfound
      next => exact hapart found hfound
  | litter | prepare | recount | clock | mark | dropReport =>
    exact h.imp id (fun h => ⟨StoredReplayKeep.expiredAt_mono hmark h.1, h.2⟩)

/-- A retired delivery stays retired, whatever is done to the root. -/
theorem Leaves.retired (hleaves : Leaves codec config disk later)
    (hsound : disk.Sound codec config) (hdone : done.state = .done fence digest)
    (h : Retired key done disk) : Retired key done later := by
  rcases hleaves.steps hsound with ⟨other, hrows⟩ | hroot
  · rcases h with hrow | ⟨hended, hapart⟩
    · exact .inl (preserved_of_reflTransGen (·.rows[key]? = some done)
        (fun _ _ hstep => hstep.keeps_done hdone) hrows hrow)
    exact .inr ⟨StoredReplayKeep.expiredAt_mono (hleaves.highWater_le hsound) hended,
      preserved_of_reflTransGen
        (fun disk => ∀ record, disk.rows[key]? = some record → record.replayKeep ≠ done.replayKeep)
        (fun _ _ hstep => hstep.keeps_apart hended) hrows hapart⟩
  · exact preserved_of_reflTransGen (Retired key done) (fun _ _ hstep => hstep.retired) hroot h

theorem retired_of_run (hrun : ReflTransGen (Leaves codec config) disk later)
    (hsound : disk.Sound codec config) (hdone : done.state = .done fence digest)
    (h : disk.rows[key]? = some done) :
    later.Sound codec config ∧ later.Opened ∧ Retired key done later :=
  preserved_of_reflTransGen
    (fun disk => disk.Sound codec config ∧ disk.Opened ∧ Retired key done disk)
    (fun _ _ hleaves hinv => ⟨hleaves.sound hinv.1, hleaves.opened hinv.1 hinv.2.1,
      hleaves.retired hinv.1 hdone hinv.2.2⟩) hrun
    ⟨hsound, (hsound.opened_of_row h).1, .inl h⟩

theorem Retired.permanent (h : Retired key done disk) (hkeep : done.replayKeep = .permanent) :
    disk.rows[key]? = some done := by
  rcases h with hrow | ⟨hended, _⟩
  · exact hrow
  · rw [hkeep] at hended
    cases hended

/-! ### Claims -/

theorem Disk.Sound.load (h : disk.Sound codec config) (key : Digest) :
    load codec key disk = .ok disk.rows[key]? := by
  unfold Amiss.load
  cases hrow : disk.rows[key]? with
  | none => rfl
  | some record =>
    have hfits := (h.rows key record hrow).1
    simp [checkedRow, hfits.valid, hfits.fits, Record.matchesKey, hfits.keyed, Except.map]

theorem Disk.Sound.ready (h : disk.Sound codec config) (hopened : disk.Opened) :
    disk.Ready config := by
  rcases hopened with ⟨metadata, hstored, hcurrent⟩
  rcases h.metadata metadata hstored with ⟨hvalid, hmatches⟩
  exact ⟨metadata, hstored, hvalid, hcurrent, hmatches⟩

theorem removeReport_answer (key : Digest) (disk : Disk) :
    (removeReport key disk).answer = .ok () := by
  unfold removeReport
  simp only [Durable.reading_bind_run, Durable.onlyIf]
  split <;> rfl

variable {caller : Caller} {delivery : AcceptedDelivery}

/-- The clock check notices a lifetime that had ended before it. -/
theorem acceptedExpired_true (codec : LedgerCodec) (key : Digest) {expired : Bool}
    (hanswer : (acceptedExpired config caller delivery disk).answer = .ok expired)
    (hended : (StoredReplayKeep.new delivery.replayKeep).expiredAt disk.highWater = true) :
    expired = true := by
  have hchecked : Follows (RowStep codec key disk.highWater)
      (acceptedExpired config caller delivery) disk (fun expired _ => expired = false →
        (StoredReplayKeep.new delivery.replayKeep).expiredAt disk.highWater = false)
      (fun _ _ => ¬ (Trusted (caller.clock 0) ∧ disk.Ready config)) :=
    follows_acceptedExpired delivery
  refine (Bool.not_eq_false expired).mp (fun hfalse => ?_)
  rw [hchecked.answered hanswer hfalse] at hended
  cases hended

/-- A call on a sound root reads the row of its delivery once it has locked it. -/
theorem Disk.Sound.locked_run {α : Type} (h : disk.Sound codec config) {keep : ReplayKeep}
    (hlock : lockRow config keep = .ok ()) (next : Option Record → Ledger α) :
    (do
      Durable.ofExcept (lockRow config keep)
      let row ← Durable.reading (Amiss.load codec key)
      next row) disk = next disk.rows[key]? disk := by
  rw [Durable.ofExcept_bind_run, hlock]
  dsimp only
  rw [Durable.reading_bind_run, h.load]

section Answers

variable {check : CheckBinding} (hsound : disk.Sound codec config)
  (hlock : lockRow config delivery.replayKeep = .ok ())

include hsound hlock

/-- A claim of a delivery without a row is refused when its lifetime has ended,
    for want of a clock reading if not for that. -/
theorem claim_absent
    (habsent : disk.rows[codec.deliveryKey delivery.delivery.identity]? = none)
    (hended : (StoredReplayKeep.new delivery.replayKeep).expiredAt disk.highWater = true) :
    (claim codec config caller delivery check disk).answer =
      (acceptedExpired config caller delivery disk).answer.bind (fun _ => .error .expired) := by
  rw [claim, hsound.locked_run hlock, habsent]
  dsimp only
  rw [Durable.answer_bind]
  cases hanswer : (acceptedExpired config caller delivery disk).answer with
  | error e => rfl
  | ok expired =>
    dsimp only
    rw [Durable.ensure_bind_run,
      acceptedExpired_true codec (codec.deliveryKey delivery.delivery.identity) hanswer hended]
    rfl

/-- A claim of a delivery whose lifetime has ended is refused as expired. -/
theorem claim_expired (hopened : disk.Opened) (hclock : Trusted (caller.clock 0))
    (habsent : disk.rows[codec.deliveryKey delivery.delivery.identity]? = none)
    (hended : (StoredReplayKeep.new delivery.replayKeep).expiredAt disk.highWater = true) :
    (claim codec config caller delivery check disk).answer = .error .expired := by
  have hchecked : Durable.Finishes (RowStep codec
      (codec.deliveryKey delivery.delivery.identity) disk.highWater)
      (acceptedExpired config caller delivery) disk (fun expired _ => expired = false →
        (StoredReplayKeep.new delivery.replayKeep).expiredAt disk.highWater = false) :=
    Follows.mono (follows_acceptedExpired delivery) (fun _ _ => id)
      (fun _ _ hbad => hbad ⟨hclock, hsound.ready hopened⟩)
  rcases hchecked.succeeds with ⟨expired, hanswer, _⟩
  rw [claim_absent hsound hlock habsent hended, hanswer]
  rfl

variable {record : Record}

theorem claim_done
    (hrow : disk.rows[codec.deliveryKey delivery.delivery.identity]? = some record)
    (hmatches : record.matchesDelivery delivery check = true)
    (hdone : record.state = .done fence digest) :
    (claim codec config caller delivery check disk).answer =
      .ok (.duplicate record.evaluationId) := by
  rw [claim, hsound.locked_run hlock, hrow]
  dsimp only
  rw [if_pos hmatches, claimRecord, hdone]
  dsimp only
  rw [Durable.answer_bind, removeReport_answer]
  rfl

/-- A claim of a row about another delivery is a conflict. -/
theorem claim_conflict
    (hrow : disk.rows[codec.deliveryKey delivery.delivery.identity]? = some record)
    (hmatches : record.matchesDelivery delivery check = false) :
    (claim codec config caller delivery check disk).answer = .ok .bindingConflict := by
  rw [claim, hsound.locked_run hlock, hrow]
  dsimp only
  rw [hmatches]
  rfl

end Answers

variable {check : CheckBinding} {record : Record}

theorem Record.matchesDelivery_replayKeep (h : record.matchesDelivery delivery check = true) :
    record.replayKeep = .new delivery.replayKeep := by
  simp only [Record.matchesDelivery, Bool.and_eq_true, beq_iff_eq] at h
  exact h.1.2

/-- What a claim of a completed delivery returns, by what its key holds. -/
def claimOfCompleted (delivery : AcceptedDelivery) (check : CheckBinding) :
    Option Record → Except LedgerError DeliveryClaim
  | none => .error .expired
  | some record =>
    if record.matchesDelivery delivery check then .ok (.duplicate record.evaluationId)
    else .ok .bindingConflict

/-- Completing a delivery leaves a done row, and from any done row on, however
    the root is used and whatever its clocks say, the delivery is never
    executed again. A claim of it under the same check reports a duplicate
    while the done row is there. Once maintenance has removed the row the claim
    is refused as expired, unless a row of another delivery has taken the same
    key, which it reports as a conflict. The row of a permanent delivery is
    never removed. -/
theorem claim_after_completion (codec : LedgerCodec) (config : LedgerConfig)
    (delivery : AcceptedDelivery) (check : CheckBinding) :
    (∀ (disk : Disk) (caller : Caller) (frozen : StagedPublication),
      frozen.publication.check = check →
      (complete codec config caller delivery frozen disk).answer = .ok .completed →
      (complete codec config caller delivery frozen disk).store.Completed codec delivery check ∧
        lockRow config delivery.replayKeep = .ok ()) ∧
    ∀ (completed later : Disk), Reachable codec config completed →
      completed.Completed codec delivery check →
      lockRow config delivery.replayKeep = .ok () →
      ReflTransGen (Leaves codec config) completed later →
      (∀ (caller : Caller) (lease : DeliveryLease),
        (claim codec config caller delivery check later).answer ≠ .ok (.execute lease)) ∧
      (∀ (caller : Caller), Trusted (caller.clock 0) →
        (claim codec config caller delivery check later).answer =
          claimOfCompleted delivery check
            later.rows[codec.deliveryKey delivery.delivery.identity]?) ∧
      (∀ record, later.rows[codec.deliveryKey delivery.delivery.identity]? = some record →
        record.matchesDelivery delivery check = true →
        completed.rows[codec.deliveryKey delivery.delivery.identity]? = some record) ∧
      (delivery.replayKeep = .permanent → later.Completed codec delivery check) := by
  refine ⟨?_, ?_⟩
  · rintro disk caller frozen rfl hanswer
    have htraces : Durable.Traces (RowStep codec
        (codec.deliveryKey delivery.delivery.identity) 0)
        (complete codec config caller delivery frozen) disk _ := complete_traces delivery frozen
    rcases htraces.answered hanswer rfl with ⟨hcompleted, hlock⟩
    exact ⟨hcompleted.completed, hlock⟩
  · rintro completed later hreachable ⟨done, fence, digest, hrow, hmatches, hdone⟩ hlock hrun
    rcases retired_of_run hrun (reachable_sound hreachable) hdone hrow with
      ⟨hsound, hopened, hretired⟩
    have hkeep := Record.matchesDelivery_replayKeep hmatches
    -- a row about this delivery can only be the done row itself
    have hsame : ∀ record, later.rows[codec.deliveryKey delivery.delivery.identity]? = some record →
        record.matchesDelivery delivery check = true → record = done := by
      intro record hrecord hrecordMatches
      rcases hretired with hstands | ⟨_, hapart⟩
      · exact Option.some.inj (hrecord.symm.trans hstands)
      · exact absurd ((Record.matchesDelivery_replayKeep hrecordMatches).trans hkeep.symm)
          (hapart record hrecord)
    have hended : later.rows[codec.deliveryKey delivery.delivery.identity]? = none →
        (StoredReplayKeep.new delivery.replayKeep).expiredAt later.highWater = true := by
      intro hlater
      rcases hretired with hstands | ⟨hended, _⟩
      · rw [hlater] at hstands
        cases hstands
      · exact hkeep ▸ hended
    have hpresent : ∀ (caller : Caller) record,
        later.rows[codec.deliveryKey delivery.delivery.identity]? = some record →
        (claim codec config caller delivery check later).answer =
          claimOfCompleted delivery check (some record) := by
      intro caller record hlater
      rw [claimOfCompleted]
      split
      next hrecord =>
        have heq := hsame record hlater hrecord
        exact claim_done hsound hlock hlater hrecord (heq ▸ hdone)
      next hrecord =>
        exact claim_conflict hsound hlock hlater (Bool.eq_false_iff.mpr hrecord)
    refine ⟨?_, ?_, ?_, ?_⟩
    · intro caller lease
      cases hlater : later.rows[codec.deliveryKey delivery.delivery.identity]? with
      | none =>
        rw [claim_absent hsound hlock hlater (hended hlater)]
        cases (acceptedExpired config caller delivery later).answer <;>
          simp [Except.bind]
      | some record =>
        rw [hpresent caller record hlater, claimOfCompleted]
        split <;> simp
    · intro caller hclock
      cases hlater : later.rows[codec.deliveryKey delivery.delivery.identity]? with
      | none => exact claim_expired hsound hlock hopened hclock hlater (hended hlater)
      | some record => exact hpresent caller record hlater
    · intro record hrecord hrecordMatches
      rw [hsame record hrecord hrecordMatches, hrow]
    · intro hpermanent
      have hstands := hretired.permanent (by rw [hkeep, hpermanent]; rfl)
      exact ⟨done, fence, digest, hstands, hmatches, hdone⟩

end Retired

/-! ### A delivery that comes back -/

namespace Sample

def run : RunIdentity :=
  { change
    refs := ⟨.github, "refs/heads/topic", "refs/heads/main", "refs/heads/main"⟩
    objectFormat := .sha1
    commits := ⟨commit, commit⟩
    trees := ⟨commit, commit⟩ }

def evaluationId : OpaqueId :=
  (codec.evaluationId delivery.identity 9).toOption.getD ⟨"lost", by decide⟩

/-- The lease that the first claim of the delivery returns at time 6. -/
def lease : DeliveryLease := ⟨evaluationId, check, ⟨1, by decide⟩, 16⟩

def publication : Publication :=
  { providerRun := delivery.providerRun
    evaluationId
    check
    run
    gateCommit := commit
    conclusion := .pass
    report := none
    artifact := none }

def frozen : StagedPublication := ⟨evaluationId, ⟨1, by decide⟩, publication⟩

def claimed : Disk := (claim codec config (caller 6) (accepted 50) check opened).store

def staged : Disk := (stage codec config (caller 7) (accepted 50) lease publication claimed).store

def completed : Disk := (complete codec config (caller 8) (accepted 50) frozen staged).store

/-- Maintenance after the end of the delivery's lifetime. -/
def cleaned : Disk := (cleanupRoot codec config (some 60) completed).store

/-- The same delivery, accepted again for longer. -/
def readmitted : Disk := (claim codec config (caller 61) (accepted 90) check cleaned).store

/-- A root in use: reachable, and opened by whoever uses it. -/
def InUse (disk : Disk) : Prop := Reachable codec config disk ∧ disk.Opened

theorem InUse.leaves {disk later : Disk} (h : InUse disk)
    (hleaves : disk.Opened → Leaves codec config disk later) : InUse later :=
  ⟨h.1.tail (hleaves h.2), (hleaves h.2).opened (reachable_sound h.1) h.2⟩

theorem inUse_opened : InUse opened := ⟨reachable_opened, opened_opened⟩

theorem inUse_claimed : InUse claimed :=
  inUse_opened.leaves fun hopened =>
    .call (.call (caller 6) (.claim (accepted 50) check) hopened List.mem_cons_self)

theorem inUse_staged : InUse staged :=
  inUse_claimed.leaves fun hopened =>
    .call (.call (caller 7) (.stage (accepted 50) lease publication) hopened List.mem_cons_self)

theorem inUse_completed : InUse completed :=
  inUse_staged.leaves fun hopened =>
    .call (.call (caller 8) (.complete (accepted 50) frozen) hopened List.mem_cons_self)

theorem leaves_cleaned : Leaves codec config completed cleaned :=
  .cleanup (some 60) inUse_completed.2 List.mem_cons_self

theorem leaves_readmitted : Leaves codec config cleaned readmitted :=
  .call (.call (caller 61) (.claim (accepted 90) check)
    (inUse_completed.leaves fun _ => leaves_cleaned).2 List.mem_cons_self)

theorem completed_completed : completed.Completed codec (accepted 50) check := by
  have htraces : Durable.Traces (RowStep codec (codec.deliveryKey delivery.identity) 0)
      (complete codec config (caller 8) (accepted 50) frozen) staged _ :=
    complete_traces (accepted 50) frozen
  exact (htraces.answered
    (show _ = Except.ok LeaseCompletion.completed by decide +kernel) rfl).1.completed

end Sample

open Sample

/-- The done row is removed once its lifetime has ended, and the same delivery
    accepted again for longer takes its key. A claim of the completed delivery
    is then a conflict and not expired. -/
theorem claim_after_removal_conflicts :
    Reachable codec config completed ∧ completed.Completed codec (accepted 50) check ∧
      Leaves codec config completed cleaned ∧
      cleaned.rows.size = 0 ∧
      Leaves codec config cleaned readmitted ∧
      (claim codec config (caller 62) (accepted 50) check
        readmitted).answer = .ok .bindingConflict :=
  ⟨inUse_completed.1, completed_completed, leaves_cleaned,
    by decide +kernel, leaves_readmitted, by decide +kernel⟩

/-- The three answers along one run: a duplicate, then expired, then a
    conflict. -/
theorem claim_after_completion_sample : (claim codec config (caller 9) (accepted 50) check
        completed).answer = .ok (.duplicate evaluationId) ∧
      (claim codec config (caller 9) (accepted 50) check
        cleaned).answer = .error .expired ∧
      (claim codec config (caller 9) (accepted 50) check
        readmitted).answer = .ok .bindingConflict := by
  have hall : ∀ later, ReflTransGen (Leaves codec config) completed later →
      (claim codec config (caller 9) (accepted 50) check
        later).answer = claimOfCompleted (accepted 50) check
          later.rows[codec.deliveryKey delivery.identity]? :=
    fun later hrun =>
      ((claim_after_completion codec config (accepted 50) check).2
        completed later inUse_completed.1 completed_completed
        (by decide) hrun).2.1 (caller 9) ⟨9, rfl, by decide⟩
  have hcleaned := ReflTransGen.single leaves_cleaned
  rw [hall _ .refl, hall _ hcleaned, hall _ (hcleaned.tail leaves_readmitted)]
  exact ⟨by decide +kernel, by decide +kernel, by decide +kernel⟩

end Amiss
