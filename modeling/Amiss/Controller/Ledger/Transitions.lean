import Amiss.Controller.Ledger.Store

/-!
# Ledger Operations

The operations of the file ledger on the row of one delivery: claiming it,
renewing its lease, staging its publication and completing it, together with
opening a root and its explicit maintenance. Each is one program over the
root's files.

A call carries what its session and its surroundings give it: the session's
owner, the clock readings it takes in the order it takes them, and the random
number a new evaluation id needs. Any of these may be missing.

`Leaves` is the system: any call of any session, on any delivery, run to its
end or stopped after any single write. Sessions come from opened roots, so
only `openRoot` runs on a root that is not prepared.

## Main definitions

* `Caller`: What one call brings with it.
* `claim`, `renew`, `stage`, `complete`: The operations on a row.
* `openRoot`, `cleanupRoot`: Opening and maintaining a root.
* `RowCall`, `Leaves`, `Reachable`: The system of calls on one root.
-/

namespace Amiss

open Durable (reading write fail ensure onlyIf ofExcept)

/-- What one call brings with it: the owner of its session, the clock readings
    it takes, and the random number it may need. -/
structure Caller where
  owner : BitVec 128
  clock : Nat → Option Int
  nonce : Option (BitVec 128)

/-- A clock reading that can be trusted. -/
def trustedNow (reading : Option Int) : Except LedgerError Int :=
  match reading with
  | none => .error .clock
  | some now => if 0 ≤ now then .ok now else .error .clock

section Row

variable (codec : LedgerCodec) (config : LedgerConfig) (caller : Caller)

/-- The time a call works at: never before the root's high-water mark, nor
    before the record was last seen. -/
def nowFor (reading : Option Int) (record : Option Record) : Ledger Int := do
  let now ← ofExcept (trustedNow reading)
  let now ← observeClock config now
  pure (match record with
    | none => now
    | some record => max now record.lastSeenUnixMillis)

def deadline (now : Int) : Except LedgerError Int :=
  match checkedAdd now config.leaseMillis with
  | none => .error .clock
  | some expires => .ok expires

/-- Whether the replay lifetime of a delivery has ended. -/
def acceptedExpired (delivery : AcceptedDelivery) : Ledger Bool := do
  let now ← nowFor config (caller.clock 0) none
  pure (delivery.replayKeepThroughUnixMillis.any (fun keepThrough => decide (keepThrough < now)))

def makeLease (evaluationId : OpaqueId) (check : CheckBinding) (fence : Nat)
    (expiresAtUnixMillis : Int) : Except LedgerError DeliveryLease :=
  match LeaseFence.new fence with
  | none => .error .corrupt
  | some fence => .ok ⟨evaluationId, check, fence, expiresAtUnixMillis⟩

def randomId : Except LedgerError (BitVec 128) :=
  match caller.nonce with
  | none => .error .random
  | some nonce => .ok nonce

/-! ### Claiming -/

variable (key : Digest)

/-- The first claim of a delivery. The clock is read again after the check
    that the delivery has not expired. -/
def claimNew (delivery : AcceptedDelivery) (check : CheckBinding) :
    Ledger DeliveryClaim := do
  let now ← nowFor config (caller.clock 1) none
  let nonce ← ofExcept (randomId caller)
  let evaluationId ← ofExcept (codec.evaluationId delivery.delivery.identity nonce)
  let expires ← ofExcept (deadline config now)
  saveNew codec config key (Record.running delivery check evaluationId caller.owner now expires)
  let lease ← ofExcept (makeLease evaluationId check 1 expires)
  pure (.execute lease)

variable (record : Record)

/-- Takes a lease over under the next fence. -/
def startRunning (check : CheckBinding) (fence : Nat)
    (now : Int) : Ledger DeliveryClaim := do
  let nextFence ← ofExcept (match checkedSucc fence with
    | none => .error .corrupt
    | some next => .ok next)
  let expires ← ofExcept (deadline config now)
  let advanced ← ofExcept (record.advance now)
  save codec key { advanced with state := .running caller.owner nextFence expires }
  let lease ← ofExcept (makeLease record.evaluationId check nextFence expires)
  pure (.execute lease)

/-- Claiming a delivery whose lease may be live: the owner resumes it, anyone
    else waits until it has expired. -/
def claimRunning (check : CheckBinding) (owner : BitVec 128)
    (fence : Nat) (expires : Int) : Ledger DeliveryClaim := do
  let now ← nowFor config (caller.clock 0) (some record)
  if now < expires then
    if owner = caller.owner then do
      let lease ← ofExcept (makeLease record.evaluationId check fence expires)
      pure (.execute lease)
    else pure (.busy record.evaluationId expires)
  else startRunning codec config caller key record check fence now

/-- The staged publication of a row, read back with its report. -/
def staged (evaluationId : OpaqueId) (fence : Nat) (stored : StoredPublication)
    (disk : Disk) : Except LedgerError StagedPublication := do
  let report ← loadReport codec key stored.reportRef disk
  match LeaseFence.new fence with
  | none => .error .corrupt
  | some fence =>
    let publication ← stored.materialize codec report
    pure ⟨evaluationId, fence, publication⟩

/-- Claiming a delivery that has a row for it. -/
def claimRecord (check : CheckBinding) :
    Ledger DeliveryClaim :=
  match record.state with
  | .running owner fence expires =>
    claimRunning codec config caller key record check owner fence expires
  | .staged fence publication =>
    if publication.hasGateCommit then do
      let frozen ← reading (staged codec key record.evaluationId fence publication)
      pure (.publish frozen)
    else do
      -- a row from before gates were bound is evaluated again
      let now ← nowFor config (caller.clock 0) (some record)
      let claimed ← startRunning codec config caller key record check fence now
      removeReport key
      pure claimed
  | .done _ _ => do
    removeReport key
    pure (.duplicate record.evaluationId)

def claim (delivery : AcceptedDelivery) (check : CheckBinding) : Ledger DeliveryClaim := do
  ofExcept (lockRow config delivery.replayKeep)
  let row ← reading (load codec (codec.deliveryKey delivery.delivery.identity))
  match row with
  | none => do
    let expired ← acceptedExpired config caller delivery
    ensure (expired = false) .expired
    claimNew codec config caller (codec.deliveryKey delivery.delivery.identity) delivery check
  | some record =>
    if record.matchesDelivery delivery check then
      claimRecord codec config caller (codec.deliveryKey delivery.delivery.identity) record check
    else pure .bindingConflict

/-! ### Renewing -/

variable (lease : DeliveryLease)

/-- The lease is the one a running row records for this session. -/
def holdsLease (owner : BitVec 128) (fence : Nat)
    (expires : Int) : Bool :=
  owner == caller.owner && lease.evaluationId == record.evaluationId && lease.fence.raw == fence &&
    lease.expiresAtUnixMillis == expires

def renewRecord :
    Ledger LeaseRenewal :=
  match record.state with
  | .staged _ _ | .done _ _ => pure .lost
  | .running owner fence expires =>
    if holdsLease caller record lease owner fence expires then do
      let now ← nowFor config (caller.clock 0) (some record)
      if expires ≤ now then pure .lost
      else do
        let next ← ofExcept (deadline config now)
        let advanced ← ofExcept (record.advance now)
        save codec key { advanced with state := .running owner fence (max expires next) }
        let renewed ← ofExcept
          (makeLease record.evaluationId lease.check fence (max expires next))
        pure (.renewed renewed)
    else pure .lost

def renew (delivery : AcceptedDelivery) (lease : DeliveryLease) : Ledger LeaseRenewal := do
  ofExcept (lockRow config delivery.replayKeep)
  let row ← reading (load codec (codec.deliveryKey delivery.delivery.identity))
  match row with
  | none => pure .lost
  | some record =>
    if record.matchesDelivery delivery lease.check then
      renewRecord codec config caller (codec.deliveryKey delivery.delivery.identity) record lease
    else pure .lost

/-! ### Staging -/

/-- The publication is one of this delivery's evaluation. -/
def publicationMatches (delivery : AuthenticatedDelivery) (evaluationId : OpaqueId)
    (publication : Publication) : Bool :=
  publication.evaluationId == evaluationId && publication.providerRun == delivery.providerRun &&
    publication.run.change == delivery.change &&
    publication.run.objectFormat == delivery.providerRun.objectFormat &&
    publication.run.commits.candidate == delivery.providerRun.candidateCommit

/-- Staging again what is already staged. -/
def restage (publication : Publication)
    (evaluationId : OpaqueId) (fence : Nat) (stored : StoredPublication) :
    Ledger StageOutcome := do
  let existing ← reading (staged codec key evaluationId fence stored)
  if existing.evaluationId = lease.evaluationId ∧ existing.fence = lease.fence ∧
      existing.publication = publication then
    pure (.staged existing)
  else pure .lost

/-- Freezes the publication of a running row: its report first, then the row
    that refers to it. -/
def stageRunning (publication : Publication)
    (record : Record) (owner : BitVec 128) (fence : Nat) (expires : Int) :
    Ledger StageOutcome :=
  if holdsLease caller record lease owner fence expires then do
    let now ← nowFor config (caller.clock 0) (some record)
    if expires ≤ now then pure .lost
    else do
      let stored ← ofExcept (StoredPublication.new codec publication)
      removeReport key
      saveReport codec key publication.report stored.reportRef
      let advanced ← ofExcept (record.advance now)
      save codec key { advanced with state := .staged fence stored }
      pure (.staged ⟨record.evaluationId, lease.fence, publication⟩)
  else pure .lost

def stage (delivery : AcceptedDelivery) (lease : DeliveryLease) (publication : Publication) :
    Ledger StageOutcome := do
  ofExcept (lockRow config delivery.replayKeep)
  let row ← reading (load codec (codec.deliveryKey delivery.delivery.identity))
  match row with
  | none => pure .lost
  | some record =>
    if !record.matchesDelivery delivery lease.check || publication.check != lease.check ||
        !publicationMatches delivery.delivery record.evaluationId publication then pure .lost
    else
      match record.state with
      | .staged fence stored =>
        restage codec (codec.deliveryKey delivery.delivery.identity) lease publication
          record.evaluationId fence stored
      | .done _ _ => pure .lost
      | .running owner fence expires =>
        stageRunning codec config caller (codec.deliveryKey delivery.delivery.identity) lease
          publication record owner fence expires

/-! ### Completing -/

/-- Completing a staged row with what it staged. -/
def completeStaged (staged : StagedPublication) (record : Record)
    (requested : StoredPublication) (fence : Nat) (publication : StoredPublication) :
    Ledger LeaseCompletion := do
  let digest := codec.stagedDigest record.evaluationId staged.fence.raw requested
  if fence ≠ staged.fence.raw ∨ codec.stagedDigest record.evaluationId fence publication ≠ digest ∨
      publication ≠ requested then pure .lost
  else do
    let report ← reading (loadReport codec key publication.reportRef)
    if report = staged.publication.report then do
      let advanced ← ofExcept (record.advance record.lastSeenUnixMillis)
      save codec key { advanced with state := .done fence digest }
      removeReport key
      pure .completed
    else pure .lost

def completeRecord (delivery : AcceptedDelivery) (staged : StagedPublication)
    (record : Record) : Ledger LeaseCompletion :=
  if !record.matchesDelivery delivery staged.publication.check ||
      staged.evaluationId != record.evaluationId then pure .lost
  else
    match StoredPublication.new codec staged.publication with
    | .error .reportTooLarge => pure .lost
    | .error e => fail e
    | .ok requested =>
      match record.state with
      | .done fence digest =>
        if fence = staged.fence.raw ∧
            digest = codec.stagedDigest record.evaluationId staged.fence.raw requested then do
          removeReport key
          pure .completed
        else pure .lost
      | .running _ _ _ => pure .lost
      | .staged fence publication =>
        completeStaged codec key staged record requested fence publication

def complete (delivery : AcceptedDelivery) (staged : StagedPublication) :
    Ledger LeaseCompletion := do
  ofExcept (lockRow config delivery.replayKeep)
  let row ← reading (load codec (codec.deliveryKey delivery.delivery.identity))
  match row with
  | none => do
    let _ ← nowFor config (caller.clock 0) none
    pure .lost
  | some record =>
    completeRecord codec (codec.deliveryKey delivery.delivery.identity) delivery staged record

end Row

section Root

variable (codec : LedgerCodec) (config : LedgerConfig)

/-- Explicit maintenance of a root at a clock reading. -/
def cleanupRoot (reading : Option Int) : Ledger Store.Cleanup := do
  let now ← ofExcept (trustedNow reading)
  Store.cleanup codec config now

/-- Opens a root: prepares or checks it, then maintains it. -/
def openRoot (caller : Caller) : Ledger Unit := do
  let now ← ofExcept (trustedNow (caller.clock 0))
  Store.openStore config now
  let _ ← cleanupRoot codec config (caller.clock 1)
  pure ()

/-- A root whose preparation has finished. Only such a root has sessions. -/
def Disk.Opened (disk : Disk) : Prop :=
  ∃ metadata, disk.metadata = some metadata ∧ metadata.schema = .current

/-- One call on the row of one delivery. -/
inductive RowCall where
  | claim (delivery : AcceptedDelivery) (check : CheckBinding)
  | renew (delivery : AcceptedDelivery) (lease : DeliveryLease)
  | stage (delivery : AcceptedDelivery) (lease : DeliveryLease) (publication : Publication)
  | complete (delivery : AcceptedDelivery) (staged : StagedPublication)

/-- The delivery a call is about. -/
def RowCall.delivery : RowCall → AcceptedDelivery
  | .claim delivery _ => delivery
  | .renew delivery _ => delivery
  | .stage delivery _ _ => delivery
  | .complete delivery _ => delivery

/-- The stores a row call can leave behind. -/
def RowCall.left (caller : Caller) (call : RowCall) (disk : Disk) : List Disk :=
  match call with
  | .claim delivery check => (Amiss.claim codec config caller delivery check disk).left
  | .renew delivery lease => (Amiss.renew codec config caller delivery lease disk).left
  | .stage delivery lease publication =>
    (Amiss.stage codec config caller delivery lease publication disk).left
  | .complete delivery staged => (Amiss.complete codec config caller delivery staged disk).left

/-- One row call on an opened root, run to its end or stopped on the way. -/
inductive Calls : Disk → Disk → Prop where
  | call {disk later : Disk} (caller : Caller) (call : RowCall) (opened : disk.Opened)
      (left : later ∈ call.left codec config caller disk) : Calls disk later

/-- One operation on a root, run to its end or stopped on the way. -/
inductive Leaves : Disk → Disk → Prop where
  | call {disk later : Disk} (call : Calls codec config disk later) : Leaves disk later
  | cleanup {disk later : Disk} (reading : Option Int) (opened : disk.Opened)
      (left : later ∈ (cleanupRoot codec config reading disk).left) : Leaves disk later
  | reopen {disk later : Disk} (caller : Caller)
      (left : later ∈ (openRoot codec config caller disk).left) : Leaves disk later

/-- The disks of a root that began empty. -/
def Reachable (disk : Disk) : Prop :=
  Relation.ReflTransGen (Leaves codec config) Disk.empty disk

end Root

end Amiss
