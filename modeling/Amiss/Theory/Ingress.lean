import Amiss.Controller.Ingress
import Amiss.Theory.Ledger.Replay

/-!
# Accepted Deliveries Are Still Remembered

A signed delivery is accepted only while the ledger must remember it: its
receipt is no older than the queue age, its signed time no older than the
signed age when it was received, and the ledger keeps it through the sum of
both. The allowed skew plays no part, since a time that lies in the future only
moves the end of the lifetime further away.

So once maintenance has removed a row, the delivery it was about is accepted no
more: not at a clock that has reached the removal, and if the clock goes back,
the ledger refuses it.

## Theorems

* `checkWindow_eq_ok`: What the time check says.
* `now_le_keep`: The clock has not passed the end of an accepted lifetime.
* `removed_of_leaves`: When a row may have been removed.
* `accepted_within_keep`: Both together.
-/

namespace Amiss

open Fallible

section Admission

variable {sha256 : Bytes → Digest} {policy : IngressPolicy}

theorem checkWindow_eq_ok {value reference maximumAge futureSkew : Int}
    (h : checkWindow value reference maximumAge futureSkew = .ok ()) :
    0 ≤ value ∧ 0 ≤ reference ∧ (value ≤ reference → reference - value ≤ maximumAge) ∧
      (reference < value → value - reference ≤ futureSkew) := by
  unfold checkWindow at h
  split at h
  next => cases h
  next hnonneg =>
  rw [not_or, not_lt, not_lt] at hnonneg
  by_cases hafter : value > reference
  · rw [if_pos hafter] at h
    cases hdistance : checkedSub value reference with
    | none =>
      rw [hdistance] at h
      cases h
    | some distance =>
      have hexact := checkedAdd_eq_some hdistance
      simp only [hdistance] at h
      split at h
      next hle => exact ⟨hnonneg.1, hnonneg.2, fun hle => by omega, fun _ => by omega⟩
      next => cases h
  · rw [if_neg hafter] at h
    cases hdistance : checkedSub reference value with
    | none =>
      rw [hdistance] at h
      cases h
    | some distance =>
      have hexact := checkedAdd_eq_some hdistance
      simp only [hdistance] at h
      split at h
      next hle => exact ⟨hnonneg.1, hnonneg.2, fun _ => by omega, fun hlt => by omega⟩
      next => cases h

theorem signedMaxAge_le {signedTime : SignedTimePolicy} {maxAge : Int}
    (h : policy.signedMaxAge signedTime = .ok (some maxAge)) :
    maxAge ≤ policy.replayWindow.maxSignedAgeMillis := by
  unfold IngressPolicy.signedMaxAge at h
  split at h
  next => cases h
  next =>
  split at h
  next => cases h
  next =>
  rcases guard_eq_ok.mp h with ⟨hle, ⟨⟩⟩
  exact not_lt.mp hle

variable {check : IngressCheck}

/-- A delivery passes the first half at a trusted reading, within the queue
    window, under a signed age the policy allows. -/
theorem preAuth_eq_ok {delivery : UntrustedDelivery} {clock : Option Int}
    (h : policy.preAuth sha256 delivery clock = .ok check) :
    requestBinding sha256 delivery = some check.request ∧ clock = some check.now ∧
      check.delivery = delivery ∧
      checkWindow delivery.receivedAtUnixMillis check.now
        policy.replayWindow.maxQueueAgeMillis policy.futureSkewMillis = .ok () ∧
      policy.signedMaxAge delivery.route.signedTime = .ok check.signedMaxAgeMillis := by
  rcases bind_eq_ok.mp (guard_eq_ok.mp h).2 with ⟨signedMaxAgeMillis, hsigned, h⟩
  split at h
  next => cases h
  next now hnow =>
  rcases bind_eq_ok.mp h with ⟨_, hwindow, h⟩
  split at h
  next => cases h
  next request hrequest =>
    cases h
    exact ⟨hrequest, (Option.filter_eq_some_iff.mp hnow).1, rfl, hwindow, hsigned⟩

theorem checkSignedTime_eq_ok {given : Option Int} {issuedAt : Int}
    (h : policy.checkSignedTime check given = .ok (some issuedAt)) :
    ∃ maxAge, check.signedMaxAgeMillis = some maxAge ∧
      checkWindow issuedAt check.delivery.receivedAtUnixMillis maxAge policy.futureSkewMillis =
        .ok () := by
  unfold IngressPolicy.checkSignedTime at h
  split at h
  next => cases h
  next => cases h
  next => cases h
  next maxAge given hmax =>
  split at h
  next =>
    rcases bind_eq_ok.mp h with ⟨_, _, h⟩
    rcases bind_eq_ok.mp h with ⟨_, hwindow, h⟩
    rw [Except.ok.injEq, Option.some.injEq] at h
    exact ⟨maxAge, hmax, h ▸ hwindow⟩
  next => cases h

variable {accepted : AcceptedDelivery}

/-- A bounded lifetime ends the whole replay window after the signed time. -/
theorem normalizeDelivery_keep {verified : VerifiedDelivery} {body : Bytes}
    {issuedAt : Option Int} {window : ReplayWindow} {keep : Int}
    (h : normalizeDelivery sha256 verified body issuedAt window = .ok accepted)
    (hkeep : accepted.replayKeepThroughUnixMillis = some keep) :
    ∃ issued, issuedAt = some issued ∧
      keep = issued + window.maxSignedAgeMillis + window.maxQueueAgeMillis := by
  unfold normalizeDelivery at h
  split at h
  next =>
    rw [Except.ok.injEq] at h
    rw [← h] at hkeep
    cases hkeep
  next assigned _ =>
    split at h
    next =>
      rw [Except.ok.injEq] at h
      rw [← h] at hkeep
      cases hkeep
    next issued =>
      split at h
      next => cases h
      next unixMillis hsum =>
      rw [Except.ok.injEq] at h
      rw [← h] at hkeep
      rcases Option.bind_eq_some_iff.mp hsum with ⟨signed, hsigned, hend⟩
      refine ⟨issued, rfl, ?_⟩
      rw [← Option.some.inj hkeep, checkedAdd_eq_some hend, checkedAdd_eq_some hsigned]

theorem postAuth_eq_ok {verified : VerifiedDelivery}
    (h : policy.postAuth sha256 check verified = .ok accepted) :
    verified.request = check.request ∧
      ∃ issuedAt, policy.checkSignedTime check verified.issuedAtUnixMillis = .ok issuedAt ∧
        normalizeDelivery sha256 verified check.delivery.body issuedAt policy.replayWindow =
          .ok accepted := by
  rcases guard_eq_ok.mp h with ⟨hsame, h⟩
  exact ⟨not_ne_iff.mp hsame, bind_eq_ok.mp (guard_eq_ok.mp h).2⟩

/-- A delivery is accepted no later than the end of its replay lifetime. -/
theorem now_le_keep {delivery : UntrustedDelivery} {clock : Option Int}
    {verified : VerifiedDelivery} {keep : Int}
    (hpre : policy.preAuth sha256 delivery clock = .ok check)
    (hpost : policy.postAuth sha256 check verified = .ok accepted)
    (hkeep : accepted.replayKeepThroughUnixMillis = some keep) : check.now ≤ keep := by
  rcases preAuth_eq_ok hpre with ⟨_, _, hdelivery, hreceived, hage⟩
  rcases postAuth_eq_ok hpost with ⟨_, issuedAt, hsigned, hnormal⟩
  rcases normalizeDelivery_keep hnormal hkeep with ⟨issued, rfl, rfl⟩
  rcases checkSignedTime_eq_ok hsigned with ⟨maxAge, hmax, hissued⟩
  rw [hmax] at hage
  rw [hdelivery] at hissued
  have hmaxAge := signedMaxAge_le hage
  have hqueue := checkWindow_eq_ok hreceived
  have hfresh := checkWindow_eq_ok hissued
  have hsignedPos := policy.replayWindow.signed_pos
  have hqueuePos := policy.replayWindow.queue_pos
  -- the receipt lies before the clock or after it, the issue before the receipt or after it
  omega

end Admission

/-! ### Removed rows -/

section Removed

open Relation (ReflTransGen)

variable {codec : LedgerCodec} {config : LedgerConfig} {disk later : Disk} {key : Digest}
  {record : Record}

/-- The row still stands, or it is gone and its lifetime has ended. -/
def Disk.KeptOrEnded (key : Digest) (record : Record) (disk : Disk) : Prop :=
  disk.rows[key]? = some record ∨
    disk.rows[key]? = none ∧ record.replayKeep.expiredAt disk.highWater = true

theorem RootStep.keptOrEnded (hstep : RootStep config disk later)
    (h : disk.KeptOrEnded key record) : later.KeptOrEnded key record := by
  have hmark := hstep.highWater_le
  cases hstep with
  | @dropRow found capacity dropped stored marked pending ended =>
    by_cases hkey : dropped = key
    · subst hkey
      refine .inr ⟨(getElem?_erased _ _ _).trans (if_pos rfl), ?_⟩
      rcases h with hrow | ⟨hgone, _⟩
      · rw [Option.some.inj (hrow.symm.trans stored)]
        unfold Store.removable at ended
        split at ended
        next => exact ended
        next => cases ended
        next => cases ended
      · rw [hgone] at stored
        cases stored
    · have hother : (disk.rows.erase dropped)[key]? = disk.rows[key]? :=
        (getElem?_erased _ _ _).trans (if_neg hkey)
      exact h.imp (hother.trans ·) (fun h => ⟨hother.trans h.1, h.2⟩)
  | litter | prepare | recount | clock | mark | dropReport =>
    exact h.imp id (fun h => ⟨h.1, StoredReplayKeep.expiredAt_mono hmark h.2⟩)

/-- An operation that removes a row finds its lifetime ended. -/
theorem removed_of_leaves (hleaves : Leaves codec config disk later)
    (hsound : disk.Sound codec config) (hrow : disk.rows[key]? = some record)
    (hgone : later.rows[key]? = none) : record.replayKeep.expiredAt later.highWater = true := by
  rcases hleaves.steps hsound with ⟨other, hrows⟩ | hroot
  · -- row operations remove no rows
    have hstays : (later.rows[key]?).isSome = true := by
      refine preserved_of_reflTransGen (fun disk => (disk.rows[key]?).isSome = true) ?_ hrows
        (by rw [hrow]; rfl)
      intro s t hstep hs
      cases hstep with
      | enter | advance =>
        dsimp only
        rw [getElem?_inserted]
        split
        next => rfl
        next => exact hs
      | litter | clock | settle | reserve | dropReport | putReport => exact hs
    rw [hgone] at hstays
    cases hstays
  · rcases preserved_of_reflTransGen (Disk.KeptOrEnded key record)
      (fun _ _ hstep => hstep.keptOrEnded) hroot (.inl hrow) with hstands | ⟨_, hended⟩
    · rw [hgone] at hstands
      cases hstands
    · exact hended

theorem Record.matchesDelivery_identity {delivery : AcceptedDelivery} {check : CheckBinding}
    (h : record.matchesDelivery delivery check = true) :
    record.binding.identity = delivery.delivery.identity := by
  simp only [Record.matchesDelivery, StoredDelivery.matchesDelivery, Bool.and_eq_true,
    beq_iff_eq] at h
  exact h.1.1.1.1

end Removed

/-- Whenever the two halves of the ingress accept a delivery at a clock
    reading, the reading is within the lifetime stored with the delivery. And
    whenever an operation on a ledger has removed a row, the root's clock had
    passed the end of its lifetime: a delivery accepted at a clock that has
    reached that mark is not the one the row was about, and one accepted at an
    earlier reading is refused by the ledger. -/
theorem accepted_within_keep (sha256 : Bytes → Digest) (policy : IngressPolicy)
    (delivery : UntrustedDelivery) (clock : Option Int) (check : IngressCheck)
    (verified : VerifiedDelivery) (accepted : AcceptedDelivery)
    (hpre : policy.preAuth sha256 delivery clock = .ok check)
    (hpost : policy.postAuth sha256 check verified = .ok accepted) :
    clock = some check.now ∧
    (∀ keep, accepted.replayKeepThroughUnixMillis = some keep → check.now ≤ keep) ∧
    ∀ (codec : LedgerCodec) (config : LedgerConfig) (disk later : Disk) (key : Digest)
      (record : Record), Reachable codec config disk → Leaves codec config disk later →
      disk.rows[key]? = some record → later.rows[key]? = none →
      ∃ keep, record.replayKeep = .keepThrough keep ∧ keep < later.highWater ∧
        ∀ binding, record.matchesDelivery accepted binding = true → check.now < later.highWater ∧
          ∀ caller, lockRow config accepted.replayKeep = .ok () → Trusted (caller.clock 0) →
            (claim codec config caller accepted binding later).answer = .error .expired := by
  refine ⟨(preAuth_eq_ok hpre).2.1, fun keep => now_le_keep hpre hpost, ?_⟩
  intro codec config disk later key record hreach hleaves hrow hgone
  have hsound := reachable_sound hreach
  have hended := removed_of_leaves hleaves hsound hrow hgone
  cases hkeep : record.replayKeep with
  | permanent =>
    rw [hkeep] at hended
    cases hended
  | keepThrough keep =>
    have hpassed : keep < later.highWater := by
      simpa only [hkeep, StoredReplayKeep.expiredAt, decide_eq_true_eq] using hended
    refine ⟨keep, rfl, hpassed, fun binding hmatches => ?_⟩
    have hsame := Record.matchesDelivery_replayKeep hmatches
    have haccepted : accepted.replayKeepThroughUnixMillis = some keep := by
      rw [hkeep] at hsame
      unfold AcceptedDelivery.replayKeepThroughUnixMillis
      cases hlifetime : accepted.replayKeep with
      | permanent => rw [hlifetime] at hsame; exact StoredReplayKeep.noConfusion hsame
      | keepThrough unixMillis window =>
        rw [hlifetime, StoredReplayKeep.new, StoredReplayKeep.keepThrough.injEq] at hsame
        rw [hsame]
    refine ⟨lt_of_le_of_lt (now_le_keep hpre hpost haccepted) hpassed, ?_⟩
    intro caller hlock htrusted
    have hkeyed : codec.deliveryKey accepted.delivery.identity = key := by
      rw [← Record.matchesDelivery_identity hmatches]
      exact (hsound.rows key record hrow).1.keyed
    refine claim_expired (hleaves.sound hsound) hlock
      (hleaves.opened hsound (hsound.opened_of_row hrow).1) htrusted ?_ (hsame ▸ hended)
    rw [hkeyed]
    exact hgone

namespace Sample

def policy : IngressPolicy :=
  ⟨⟨100, 10, 1000, by decide⟩, config.replayWindow, 5, by decide⟩

/-- Received at 20 on a route that asks for a signed time of the last fifty
    milliseconds. -/
def request : UntrustedDelivery :=
  ⟨⟨provider, ⟨"keys", by decide⟩, .required ⟨0, 50000000, by decide, by decide⟩⟩, 20, [], [],
    by decide⟩

/-- Signed at 10. -/
def verified : VerifiedDelivery :=
  { facts := ⟨provider, delivery.identity.integration, change, delivery.providerRun⟩
    trustSet := request.route.trustSet
    issuedAtUnixMillis := some 10
    replay := .authenticated delivery.identity.delivery
    request := (requestBinding codec.sha256 request).getD ⟨0⟩ }

def admitted : IngressCheck := ⟨request, 30, some 50, verified.request⟩

end Sample

open Sample

/-- Accepted at 30 for a lifetime that ends at 210; and the row that the sample
    root removed had a lifetime that ended before. -/
theorem accepted_within_keep_sample :
    (30 : Int) ≤ 210 ∧
      ∀ record, completed.rows[codec.deliveryKey delivery.identity]? = some record →
      ∃ keep, record.replayKeep = .keepThrough keep ∧ keep < cleaned.highWater := by
  have hall := accepted_within_keep codec.sha256 policy request (some 30)
    admitted verified (accepted 210) (by decide +kernel) (by decide +kernel)
  refine ⟨hall.2.1 210 rfl, fun record hrow => ?_⟩
  have hgone :
      cleaned.rows[codec.deliveryKey delivery.identity]? = none := by
    decide +kernel
  rcases hall.2.2 codec config completed cleaned _ record
    inUse_completed.1 leaves_cleaned hrow hgone with ⟨keep, hkeep, hpassed, _⟩
  exact ⟨keep, hkeep, hpassed⟩

end Amiss
