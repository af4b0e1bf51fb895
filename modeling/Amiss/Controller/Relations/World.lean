import Amiss.Controller.Relations.Outbox

/-!
# Runs of the Relation Outbox

Any number of opened stores and any number of delivery workers over one
directory. The journal lock makes each session of a store one step; between
two steps anyone may act. A session may run to its end, or be cut after any
single write, with the process gone or still there to go on.

A worker claims a delivery in the steps of the source: it lists candidates,
tries the lock of a candidate's shard, selects again under the lock, loads the
selected batch and puts it together. It then holds the claim, and the lock with
it, until it acknowledges or drops it.

## Main definitions

* `Worker`: Where a worker is in claiming a delivery.
* `World`: The files, the opened stores and the workers.
* `World.Step`: Everything that can happen next, with what is seen of it.
* `World.Run`: What happens from one world to another, in order.
-/

namespace Amiss

namespace Relations

/-- An opened store: its capacity and the state it last read. -/
structure Handle where
  maxBindings : Nat
  state : State

/-- Where a worker is in claiming a delivery. From `locked` on it holds the
    lock of its candidate's shard. -/
inductive Worker where
  | idle
  | trying (candidates : List PendingDelivery)
  | locked (candidate : PendingDelivery) (rest : List PendingDelivery)
  | selected (candidate delivery : PendingDelivery)
  | holding (candidate : PendingDelivery) (claim : RelationStatusDeliveryClaim)

/-- The shard whose lock a worker holds. -/
def Worker.lock : Worker → Option UInt8
  | .idle | .trying _ => none
  | .locked candidate _ | .selected candidate _ | .holding candidate _ => some candidate.shard

structure World where
  disk : Disk
  handles : Nat → Option Handle
  workers : Nat → Worker

/-- Nothing prepared, nothing opened, nobody claiming. -/
def World.initial : World := ⟨.empty, fun _ => none, fun _ => .idle⟩

/-- No worker holds the lock of the shard. -/
def World.Free (world : World) (shard : UInt8) : Prop :=
  ∀ worker, (world.workers worker).lock ≠ some shard

def World.setHandle (world : World) (handle : Nat) (value : Option Handle) : World :=
  { world with handles := Function.update world.handles handle value }

def World.setWorker (world : World) (worker : Nat) (value : Worker) : World :=
  { world with workers := Function.update world.workers worker value }

/-- The world after a session of an opened store left `root` behind. -/
def World.after (world : World) (handle maxBindings : Nat) (root : Root) : World :=
  { world.setHandle handle (some ⟨maxBindings, root.state⟩) with disk := root.disk }

/-- What is seen of a step. -/
inductive Event where
  | scheduled (transition : RelationTransition) (answer : Except StoreError RelationAdmission)
  | current (pending : PendingRelation) (answer : Except StoreError Bool)
  | claimed (worker : Nat) (claim : RelationStatusDeliveryClaim)
  | acknowledged (worker : Nat) (claim : RelationStatusDeliveryClaim)
  | dropped (worker : Nat) (claim : RelationStatusDeliveryClaim)
  | quiet

/-- The sessions that are not part of a claim. -/
inductive Operation where
  | schedule (transition : RelationTransition)
  | isCurrent (pending : PendingRelation)
  | stage (artifacts : Artifacts) (pending : PendingRelation)
      (heads : RelationSubjectHead × RelationSubjectHead) (audit : ArtifactAuditReference)
      (bundle : RelationAuditBundle)
  | load (relation coordination : ArtifactId)
  | candidates
  | select (shard : UInt8)
  | complete (staged : RelationStatusRecord)

section Steps

variable (codec : OutboxCodec) (registry : RelationRegistry)

/-- The program of a session, without its answer. -/
def Operation.program (maxBindings : Nat) : Operation → Store Unit
  | .schedule transition => do
    let _ ← Relations.schedule codec maxBindings transition
  | .isCurrent pending => do
    let _ ← Relations.isCurrent codec maxBindings pending
  | .stage artifacts pending heads audit bundle => do
    let _ ← stageStatus codec maxBindings artifacts pending heads audit bundle
  | .load relation coordination => do
    let _ ← loadStagedStatus codec maxBindings relation coordination
  | .candidates => do
    let _ ← claimCandidates codec maxBindings
  | .select shard => do
    let _ ← claimSelection codec maxBindings shard
  | .complete staged => do
    let _ ← completeStatus codec maxBindings staged

/-- Everything that can happen next. -/
inductive World.Step (world : World) : Event → World → Prop
  /-- A store is opened. -/
  | opened (handle maxBindings : Nat)
      (hanswer : (openStore codec maxBindings ⟨world.disk, .empty⟩).answer = .ok ()) :
      Step world .quiet (world.after handle maxBindings
        (openStore codec maxBindings ⟨world.disk, .empty⟩).store)
  /-- Opening fails, or is cut short. -/
  | openCut (maxBindings : Nat) {root : Root}
      (hleft : root ∈ (openStore codec maxBindings ⟨world.disk, .empty⟩).left) :
      Step world .quiet { world with disk := root.disk }
  /-- A process ends, and what it had read is gone. -/
  | closed (handle : Nat) : Step world .quiet (world.setHandle handle none)
  /-- A schedule call runs to its end. -/
  | scheduled {handle : Nat} {opened : Handle} (transition : RelationTransition)
      (hhandle : world.handles handle = some opened) :
      Step world
        (.scheduled transition (schedule codec opened.maxBindings transition
          ⟨world.disk, opened.state⟩).answer)
        (world.after handle opened.maxBindings (schedule codec opened.maxBindings
          transition ⟨world.disk, opened.state⟩).store)
  /-- A currency check runs to its end. -/
  | current {handle : Nat} {opened : Handle} (pending : PendingRelation)
      (hhandle : world.handles handle = some opened) :
      Step world
        (.current pending (isCurrent codec opened.maxBindings pending
          ⟨world.disk, opened.state⟩).answer)
        (world.after handle opened.maxBindings (isCurrent codec opened.maxBindings
          pending ⟨world.disk, opened.state⟩).store)
  /-- Any session of a store, run to its end or cut after some write. -/
  | session {handle : Nat} {opened : Handle} (operation : Operation)
      (hhandle : world.handles handle = some opened) {root : Root}
      (hleft : root ∈ (operation.program codec opened.maxBindings
        ⟨world.disk, opened.state⟩).left) :
      Step world .quiet (world.after handle opened.maxBindings root)
  /-- A worker lists what could be delivered. -/
  | listed {handle worker : Nat} {opened : Handle} {candidates : List PendingDelivery}
      (hhandle : world.handles handle = some opened) (hworker : world.workers worker = .idle)
      (hanswer : (claimCandidates codec opened.maxBindings ⟨world.disk, opened.state⟩).answer =
        .ok candidates) :
      Step world .quiet ((world.after handle opened.maxBindings
        (claimCandidates codec opened.maxBindings ⟨world.disk, opened.state⟩).store).setWorker
          worker (.trying candidates))
  /-- The lock of a candidate's shard is taken, so the next one is tried. -/
  | skipped {worker : Nat} {candidate : PendingDelivery} {rest : List PendingDelivery}
      (hworker : world.workers worker = .trying (candidate :: rest))
      (htaken : ¬ world.Free candidate.shard) :
      Step world .quiet (world.setWorker worker (.trying rest))
  /-- The lock of a candidate's shard is free and is taken. -/
  | locked {worker : Nat} {candidate : PendingDelivery} {rest : List PendingDelivery}
      (hworker : world.workers worker = .trying (candidate :: rest))
      (hfree : world.Free candidate.shard) :
      Step world .quiet (world.setWorker worker (.locked candidate rest))
  /-- Nothing is left for the shard: the lock is given back. -/
  | unselected {handle worker : Nat} {opened : Handle} {candidate : PendingDelivery}
      {rest : List PendingDelivery} (hhandle : world.handles handle = some opened)
      (hworker : world.workers worker = .locked candidate rest)
      (hanswer : (claimSelection codec opened.maxBindings candidate.shard
        ⟨world.disk, opened.state⟩).answer = .ok none) :
      Step world .quiet ((world.after handle opened.maxBindings
        (claimSelection codec opened.maxBindings candidate.shard
          ⟨world.disk, opened.state⟩).store).setWorker worker (.trying rest))
  /-- The delivery of the shard is selected under its lock. -/
  | selected {handle worker : Nat} {opened : Handle} {candidate delivery : PendingDelivery}
      {rest : List PendingDelivery} (hhandle : world.handles handle = some opened)
      (hworker : world.workers worker = .locked candidate rest)
      (hanswer : (claimSelection codec opened.maxBindings candidate.shard
        ⟨world.disk, opened.state⟩).answer = .ok (some delivery)) :
      Step world .quiet ((world.after handle opened.maxBindings
        (claimSelection codec opened.maxBindings candidate.shard
          ⟨world.disk, opened.state⟩).store).setWorker worker (.selected candidate delivery))
  /-- The selected batch is loaded and put together, and the claim is made. -/
  | claimed {handle worker : Nat} {opened : Handle} {candidate delivery : PendingDelivery}
      {loaded : Option (StoredStatus × Digest)} {claim : RelationStatusDeliveryClaim}
      (artifacts : Artifacts) (hhandle : world.handles handle = some opened)
      (hworker : world.workers worker = .selected candidate delivery)
      (hanswer : (loadStagedStatus codec opened.maxBindings delivery.status.relation
        delivery.status.coordination ⟨world.disk, opened.state⟩).answer = .ok loaded)
      (hclaim : claimOf codec registry artifacts delivery loaded = .ok claim) :
      Step world (.claimed worker claim) ((world.after handle opened.maxBindings
        (loadStagedStatus codec opened.maxBindings delivery.status.relation
          delivery.status.coordination ⟨world.disk, opened.state⟩).store).setWorker worker
            (.holding candidate claim))
  /-- A claim is acknowledged, and the lock is given back. -/
  | acknowledged {handle worker : Nat} {opened : Handle} {candidate : PendingDelivery}
      {claim : RelationStatusDeliveryClaim} {record : RelationStatusRecord}
      (hhandle : world.handles handle = some opened)
      (hworker : world.workers worker = .holding candidate claim)
      (hanswer : (acknowledgeStatusDestination codec opened.maxBindings claim
        ⟨world.disk, opened.state⟩).answer = .ok record) :
      Step world (.acknowledged worker claim) ((world.after handle opened.maxBindings
        (acknowledgeStatusDestination codec opened.maxBindings claim
          ⟨world.disk, opened.state⟩).store).setWorker worker .idle)
  /-- An acknowledgement fails or is cut, after some write or before any. -/
  | acknowledgeCut {handle worker : Nat} {opened : Handle} {candidate : PendingDelivery}
      {claim : RelationStatusDeliveryClaim} (hhandle : world.handles handle = some opened)
      (hworker : world.workers worker = .holding candidate claim) {root : Root}
      (hleft : root ∈ (acknowledgeStatusDestination codec opened.maxBindings claim
        ⟨world.disk, opened.state⟩).left) :
      Step world .quiet ((world.after handle opened.maxBindings root).setWorker worker .idle)
  /-- A claim is dropped. -/
  | dropped {worker : Nat} {candidate : PendingDelivery} {claim : RelationStatusDeliveryClaim}
      (hworker : world.workers worker = .holding candidate claim) :
      Step world (.dropped worker claim) (world.setWorker worker .idle)
  /-- Claiming ends without a claim: nothing is left to try, or something
      failed. -/
  | abandoned {worker : Nat}
      (hworker : ∀ candidate claim, world.workers worker ≠ .holding candidate claim) :
      Step world .quiet (world.setWorker worker .idle)

/-- What happens from one world to another, in order. -/
inductive World.Run : World → List Event → World → Prop
  | nil (world : World) : Run world [] world
  | snoc {world mid last : World} {events : List Event} {event : Event}
      (hrun : Run world events mid) (hstep : mid.Step codec registry event last) :
      Run world (events ++ [event]) last

end Steps

end Relations

end Amiss
