import Amiss.Base.Interaction
import Amiss.Controller.Ingress
import Amiss.Controller.Ledger.Format

/-!
# Handling One Delivery

The trust flow of the controller, from a raw delivery to a published result. It
is a program over its surroundings: the clock, the provider's adapter, the
delivery ledger, the runner, the artifact store and the sink for external
outcomes. All of them may answer anything, and the flow may stop after any
call.

A runner renews its lease while it works, through a heartbeat that the
controller serves. Its behaviour is a tree: what it returns, or that it asks
for a renewal and how it goes on for each outcome.

The check plan is read for its external policy only. Parsing a report,
planning and assessing its external destinations and binding a plan lie in
other parts of the source; they are fields of `ControllerCodec`.

## Main definitions

* `Call`, `Answer`: What the controller asks of its surroundings.
* `RunnerScript`: The behaviour of a runner.
* `publication`, `finalizePublication`: The verdict of one handling.
* `retainPublication`: The artifacts of a publication and what they change.
* `Controller.handle`: The whole flow.
-/

namespace Amiss

open Interaction (ofExcept orFail ensure)

/-! ### Surroundings -/

inductive ProviderError where
  | authentication
  | authorizationRevoked
  | unavailable
  | invalidResponse
  deriving DecidableEq

inductive PlanError where
  | duplicate
  | missing
  | invalid
  deriving DecidableEq

inductive ArtifactError where
  | alreadyOpen
  | configuration
  | corrupt
  | full
  | tooLarge
  | conflict
  | notFound
  | clock
  | io
  deriving DecidableEq

/-- What becomes of external verdicts. -/
inductive ExternalPolicy where
  | off
  | advisory
  | blockConfirmedRefutations
  deriving DecidableEq

/-- The part of a check plan that the flow reads. -/
structure CheckPlan where
  digest : Digest
  externalPolicy : ExternalPolicy
  deriving DecidableEq

/-- What a runner is asked to evaluate. -/
structure RunRequest where
  delivery : DeliveryIdentity
  providerRun : ProviderRunIdentity
  evaluationId : OpaqueId
  check : CheckBinding
  plan : CheckPlan
  run : RunIdentity
  deriving DecidableEq

inductive Evaluation where
  | pass
  | block
  deriving DecidableEq

/-- What a runner returns. -/
inductive RunnerOutcome where
  | complete (identity : RunIdentity) (evaluation : Evaluation) (report : Bytes)
      (semanticArtifact : Option Bytes)
  | missingOutput
  | oversizedOutput
  | timedOut
  | tamperedRuntime
  | unavailable
  deriving DecidableEq

/-- The outcome of one renewal, with the milliseconds it proves. -/
inductive HeartbeatOutcome where
  | renewed (renewWithin : Nat)
  | stop
  deriving DecidableEq

/-- How a runner behaves: it returns, or asks for a renewal and goes on. -/
inductive RunnerScript where
  | finish (outcome : RunnerOutcome)
  | renew (next : HeartbeatOutcome → RunnerScript)

/-- What a runner returns after these renewals. -/
def RunnerScript.after : RunnerScript → List HeartbeatOutcome → Option RunnerOutcome
  | .finish outcome, [] => some outcome
  | .finish _, _ :: _ => none
  | .renew _, [] => none
  | .renew next, heartbeat :: heartbeats => (next heartbeat).after heartbeats

/-- What is retained for one evaluation. -/
structure ArtifactBundle where
  report : Bytes
  semantic : Option Bytes
  plan : Option Bytes
  evidence : Option Bytes
  assessment : Option Bytes
  externalTally : Option ExternalTally
  externalIncomplete : Bool
  deriving DecidableEq

/-- One call of the controller: to its clock, to the adapter, to the ledger, to
    the runner, to the artifact store or to the sink. -/
inductive Call where
  | clock
  | authenticate (check : IngressCheck)
  | refresh (delivery : AuthenticatedDelivery)
  | verifyExternal (plan : Bytes) (checkedAt : String)
  | publish (delivery : AuthenticatedDelivery) (publication : Publication)
  | claim (delivery : AcceptedDelivery) (check : CheckBinding)
  | renew (delivery : AcceptedDelivery) (lease : DeliveryLease)
  | stage (delivery : AcceptedDelivery) (lease : DeliveryLease) (publication : Publication)
  | complete (delivery : AcceptedDelivery) (staged : StagedPublication)
  | run (request : RunRequest)
  | find (evaluationId : OpaqueId)
  | verify (reference : ArtifactReference)
  | retain (evaluationId : OpaqueId) (bundle : ArtifactBundle)
  | assessed (tally : ExternalTally)
  | incomplete
  deriving DecidableEq

/-- What each call is answered with. The ledger has errors of its own. -/
abbrev Answer (ε : Type) : Call → Type
  | .clock => Option Int
  | .authenticate _ => Except ProviderError VerifiedDelivery
  | .refresh _ => Except ProviderError ChangeSnapshot
  | .verifyExternal _ _ => Except ProviderError (Option Bytes)
  | .publish _ _ => Except ProviderError Unit
  | .claim _ _ => Except ε DeliveryClaim
  | .renew _ _ => Except ε LeaseRenewal
  | .stage _ _ _ => Except ε StageOutcome
  | .complete _ _ => Except ε LeaseCompletion
  | .run _ => RunnerScript
  | .find _ => Except ArtifactError (Option ArtifactReference)
  | .verify _ => Except ArtifactError Unit
  | .retain _ _ => Except ArtifactError ArtifactReference
  | .assessed _ => Unit
  | .incomplete => Unit

inductive ControllerError (ε : Type) where
  | unknownProvider
  | plan (error : PlanError)
  | ingress (error : IngressError)
  | provider (error : ProviderError)
  | wrongChangeIdentity
  | wrongProviderRun
  | deliveryBindingConflict
  | leaseLost
  | completionLost
  | ledger (error : ε)
  | completion (error : ε)
  | artifact (error : ArtifactError)
  | publish (error : ProviderError)

inductive HandleOutcome where
  | inProgress (evaluationId : OpaqueId) (retryAtUnixMillis : Int)
  | duplicate (evaluationId : OpaqueId) (artifact : Option ArtifactReference)
  | published (conclusion : CheckConclusion) (artifact : Option ArtifactReference)
  deriving DecidableEq

/-- A program of the controller. -/
abbrev Program (ε : Type) := Interaction Call (Answer ε) (ControllerError ε)

/-- One call of the controller. -/
abbrev perform {ε : Type} (call : Call) : Program ε (Answer ε call) := Interaction.request call

inductive ExternalVerdict where
  | refuted
  | unproven
  | reachable
  deriving DecidableEq

/-- What the controller takes from other parts of the source. -/
structure ControllerCodec where
  sha256 : Bytes → Digest
  checkBinding : CheckPlan → Option CheckBinding
  parseEngine : Bytes → Option (String × Digest)
  plan : Bytes → String → Digest → Option Bytes
  assess : Bytes → Bytes → String → Digest → Option Bytes
  parseVerdicts : Bytes → Option (List ExternalVerdict)

/-! ### The verdict -/

/-- A publication before it is retained. -/
structure PreparedPublication where
  publication : Publication
  semanticArtifact : Option Bytes

/-- What the runner's outcome concludes about the expected run. -/
def runnerConclusion (expected : RunIdentity) (outcome : Option RunnerOutcome) :
    CheckConclusion × Option Bytes :=
  match outcome with
  | some (.complete identity evaluation report _) =>
    if identity.change ≠ expected.change ∨ identity.refs ≠ expected.refs ∨
        identity.objectFormat ≠ expected.objectFormat ∨ identity.commits ≠ expected.commits then
      (.unavailable .wrongIdentity, none)
    else if identity.trees ≠ expected.trees then (.unavailable .wrongTree, none)
    else if report.isEmpty then (.unavailable .missingOutput, none)
    else if report.length > machineJsonBytes then (.unavailable .oversizedOutput, none)
    else
      (match evaluation with
        | .pass => .pass
        | .block => .block, some report)
  | some .missingOutput | none => (.unavailable .missingOutput, none)
  | some .oversizedOutput => (.unavailable .oversizedOutput, none)
  | some .timedOut => (.unavailable .timeout, none)
  | some .tamperedRuntime => (.unavailable .tamperedRuntime, none)
  | some .unavailable => (.unavailable .unavailable, none)

/-- The semantic artifact of a complete outcome. -/
def RunnerOutcome.semanticArtifact : RunnerOutcome → Option Bytes
  | .complete _ _ _ semanticArtifact => semanticArtifact
  | _ => none

def publication (request : RunRequest) (initial : ChangeSnapshot)
    (outcome : Option RunnerOutcome) : PreparedPublication :=
  let (conclusion, report) := runnerConclusion initial.run outcome
  { publication :=
      { providerRun := request.providerRun
        evaluationId := request.evaluationId
        check := request.check
        run := initial.run
        gateCommit := initial.gateCommit
        conclusion
        report
        artifact := none }
    semanticArtifact :=
      if report.isSome then outcome.bind RunnerOutcome.semanticArtifact else none }

/-- Why the change no longer carries the verdict, if it does not. -/
def invalidated (initial fresh : ChangeSnapshot) : Option CheckConclusion :=
  if fresh.state = .authorizationRevoked ∨ initial.state = .authorizationRevoked then
    some (.unavailable .authorizationRevoked)
  else if fresh.state = .closed ∨ initial.state = .closed then some (.unavailable .closed)
  else if fresh.state = .superseded ∨ initial.state = .superseded ∨ initial.run ≠ fresh.run ∨
      initial.gateCommit ≠ fresh.gateCommit then some .superseded
  else none

def finalizePublication (initial fresh : ChangeSnapshot) (publication : Publication) :
    Publication :=
  match invalidated initial fresh with
  | none => publication
  | some conclusion => { publication with conclusion }

/-! ### Checks -/

def validateGateCommit (run : RunIdentity) (gateCommit : Oid) {ε : Type} :
    Except (ControllerError ε) Unit :=
  match Oid.new run.objectFormat gateCommit.raw with
  | none => .error .wrongProviderRun
  | some _ => .ok ()

variable (delivery : AuthenticatedDelivery)

def validateRun (run : RunIdentity) {ε : Type} :
    Except (ControllerError ε) Unit :=
  if run.change ≠ delivery.change then .error .wrongChangeIdentity
  else if run.objectFormat ≠ delivery.providerRun.objectFormat ∨
      run.commits.candidate ≠ delivery.providerRun.candidateCommit then .error .wrongProviderRun
  else .ok ()

def validateChange (snapshot : ChangeSnapshot) {ε : Type} :
    Except (ControllerError ε) Unit := do
  validateRun delivery snapshot.run
  validateGateCommit snapshot.run snapshot.gateCommit

def validateStaged (check : CheckBinding)
    (staged : StagedPublication) {ε : Type} : Except (ControllerError ε) Unit :=
  if staged.publication.evaluationId ≠ staged.evaluationId then .error .leaseLost
  else if staged.publication.providerRun ≠ delivery.providerRun then .error .wrongProviderRun
  else if staged.publication.check ≠ check then .error .deliveryBindingConflict
  else do
    validateRun delivery staged.publication.run
    validateGateCommit staged.publication.run staged.publication.gateCommit

def validateStagedLease (lease : DeliveryLease) (staged : StagedPublication) {ε : Type} :
    Except (ControllerError ε) StagedPublication :=
  if staged.evaluationId ≠ lease.evaluationId ∨ staged.fence ≠ lease.fence ∨
      staged.publication.check ≠ lease.check then .error .leaseLost
  else .ok staged

/-! ### Leases -/

section Flow

variable {ε : Type}

variable (delivery : AcceptedDelivery)

variable (lease : DeliveryLease)

/-- One renewal, with its failure kept as a value. -/
def renewal :
    Program ε (Except (ControllerError ε) DeliveryLease) := do
  let answer : Except ε LeaseRenewal ← perform (.renew delivery lease)
  pure (match answer with
    | .error e => .error (.ledger e)
    | .ok .lost => .error .leaseLost
    | .ok (.renewed renewed) =>
      if renewed.evaluationId ≠ lease.evaluationId ∨ renewed.check ≠ lease.check ∨
          renewed.fence ≠ lease.fence ∨
          renewed.expiresAtUnixMillis < lease.expiresAtUnixMillis then .error .leaseLost
      else .ok renewed)

def renewLease :
    Program ε DeliveryLease := do
  let renewed ← renewal delivery lease
  ofExcept renewed

/-- The milliseconds a lease has left, if any. -/
def renewalWindow (clock : Option Int) : Option Nat :=
  match clock with
  | none => none
  | some now =>
    match checkedSub lease.expiresAtUnixMillis now with
    | none => none
    | some millis => if 0 < millis then some millis.toNat else none

/-- One heartbeat. -/
def heartbeat :
    Program ε (Except (ControllerError ε) (DeliveryLease × Nat)) := do
  let renewed ← renewal delivery lease
  match renewed with
  | .error e => pure (.error e)
  | .ok lease => do
    let now : Option Int ← perform .clock
    pure (match renewalWindow lease now with
      | none => .error .leaseLost
      | some renewWithin => .ok (lease, renewWithin))

/-- A supervised run. The first failure to renew is kept, and every heartbeat
    after it says stop. -/
def supervise (delivery : AcceptedDelivery) (lease : DeliveryLease)
    (failure : Option (ControllerError ε)) (script : RunnerScript) :
    Program ε (DeliveryLease × Option (ControllerError ε) × RunnerOutcome) :=
  match script with
  | .finish outcome => pure (lease, failure, outcome)
  | .renew next =>
    match failure with
    | some e => supervise delivery lease (some e) (next .stop)
    | none => do
      let renewed ← heartbeat delivery lease
      match renewed with
      | .error e => supervise delivery lease (some e) (next .stop)
      | .ok (lease, renewWithin) =>
        supervise delivery lease none (next (.renewed renewWithin))

def stagePublication (publication : Publication) : Program ε StagedPublication := do
  let answer : Except ε StageOutcome ← perform (.stage delivery lease publication)
  let outcome ← orFail .ledger answer
  match outcome with
  | .lost => .fail .leaseLost
  | .staged staged =>
    if staged.publication = publication then ofExcept (validateStagedLease lease staged)
    else .fail .leaseLost

/-! ### Artifacts -/

/-- The external work done for one report. -/
structure PreparedExternal where
  plan : Option Bytes
  evidence : Option Bytes
  assessment : Option Bytes
  tally : Option ExternalTally
  incomplete : Bool

/-- Addition that stops at the largest unsigned 64-bit integer. -/
def saturatingSucc (n : Nat) : Nat := min (n + 1) (2 ^ 64 - 1)

def ExternalTally.count (tally : ExternalTally) : ExternalVerdict → ExternalTally
  | .refuted => { tally with refuted := saturatingSucc tally.refuted }
  | .unproven => { tally with unproven := saturatingSucc tally.unproven }
  | .reachable => { tally with reachable := saturatingSucc tally.reachable }

variable (codec : ControllerCodec)

/-- What the evidence for a plan amounts to. -/
def assessExternal (engine : String × Digest) (planBytes : Bytes)
    (evidence : Bytes) : PreparedExternal :=
  match codec.assess planBytes evidence engine.1 engine.2 with
  | none => ⟨some planBytes, some evidence, none, none, true⟩
  | some assessment =>
    match codec.parseVerdicts assessment with
    | none => ⟨some planBytes, some evidence, none, none, true⟩
    | some verdicts =>
      ⟨some planBytes, some evidence, some assessment,
        some (verdicts.foldl ExternalTally.count ⟨0, 0, 0⟩), false⟩

def prepareExternal (report : Bytes) : Program ε PreparedExternal :=
  match codec.parseEngine report with
  | none => pure ⟨none, none, none, none, true⟩
  | some engine =>
    match codec.plan report engine.1 engine.2 with
    | none => pure ⟨none, none, none, none, true⟩
    | some planBytes => do
      let clock : Option Int ← perform .clock
      match clock with
      | none => pure ⟨some planBytes, none, none, none, true⟩
      | some now => do
        let answer : Except ProviderError (Option Bytes) ←
          perform (.verifyExternal planBytes (toString now))
        pure (match answer with
          | .error _ => ⟨some planBytes, none, none, none, true⟩
          | .ok none => ⟨some planBytes, none, none, none, false⟩
          | .ok (some evidence) => assessExternal codec engine planBytes evidence)

def externalConclusion (policy : ExternalPolicy) (artifact : ArtifactReference)
    (engine : CheckConclusion) : CheckConclusion :=
  if policy = .blockConfirmedRefutations ∧
      artifact.externalTally.any (fun tally => decide (0 < tally.refuted)) then .block
  else engine

/-- The artifact of an evaluation: the one retained before, or a new one. -/
def retainArtifact (policy : ExternalPolicy)
    (evaluationId : OpaqueId) (report : Bytes) (semanticArtifact : Option Bytes) :
    Program ε ArtifactReference := do
  let answer : Except ArtifactError (Option ArtifactReference) ← perform (.find evaluationId)
  let found ← orFail .artifact answer
  match found with
  | some reference =>
    if reference.reportDigest ≠ codec.sha256 report ∨
        reference.semanticDigest.any
          (fun digest => some digest ≠ semanticArtifact.map codec.sha256) then
      .fail (.artifact .conflict)
    else do
      let answer : Except ArtifactError Unit ← perform (.verify reference)
      let _ ← orFail .artifact answer
      pure reference
  | none => do
    let external ←
      if policy = .off then pure ⟨none, none, none, none, false⟩
      else prepareExternal codec report
    let answer : Except ArtifactError ArtifactReference ←
      perform (.retain evaluationId
        ⟨report, semanticArtifact, external.plan, external.evidence, external.assessment,
          external.tally, external.incomplete⟩)
    orFail .artifact answer

def retainPublication (policy : ExternalPolicy)
    (publication : Publication) (semanticArtifact : Option Bytes) : Program ε Publication :=
  match publication.report with
  | none => .fail (.artifact .corrupt)
  | some report => do
    let artifact ← retainArtifact codec policy publication.evaluationId report semanticArtifact
    pure { publication with
      conclusion := externalConclusion policy artifact publication.conclusion
      artifact := some artifact }

/-! ### The flow -/

/-- The scope a check plan is registered under. -/
structure PlanScope where
  provider : ProviderIdentity
  integration : OpaqueId
  repository : RepositoryIdentity
  deriving DecidableEq

/-- What a controller was set up with. -/
structure Controller where
  handles : String → Bool
  plans : PlanScope → Option CheckPlan
  ingress : IngressPolicy
  artifacts : Bool
  sink : Bool

/-- The plan of an authenticated delivery, with its binding. -/
def resolvePlan (plans : PlanScope → Option CheckPlan)
    (delivery : AuthenticatedDelivery) : Except PlanError (CheckPlan × CheckBinding) :=
  match plans ⟨delivery.identity.provider, delivery.identity.integration,
      delivery.change.repository⟩ with
  | none => .error .missing
  | some plan =>
    match codec.checkBinding plan with
    | none => .error .invalid
    | some check => .ok (plan, check)

inductive ClaimResolution where
  | execute (lease : DeliveryLease)
  | publish (staged : StagedPublication)
  | answer (outcome : HandleOutcome)

namespace Controller

variable (codec : ControllerCodec) (controller : Controller)

def observeExternal (publication : Publication) : Program ε Unit :=
  match controller.sink, publication.artifact with
  | true, some reference =>
    if reference.externalIncomplete then do
      let _ : Unit ← perform .incomplete
      pure ()
    else
      match reference.externalTally with
      | none => pure ()
      | some tally => do
        let _ : Unit ← perform (.assessed tally)
        pure ()
  | _, _ => pure ()

/-- The retained artifact of a staged publication is still there. -/
def verifyStaged (staged : StagedPublication) : Program ε Unit :=
  match staged.publication.artifact with
  | some reference =>
    if !reference.matchesReport codec.sha256 staged.publication.report then
      .fail (.artifact .conflict)
    else if controller.artifacts then do
      let answer : Except ArtifactError Unit ← perform (.verify reference)
      orFail .artifact answer
    else .fail (.artifact .notFound)
  | none =>
    if controller.artifacts && staged.publication.report.isSome then .fail (.artifact .notFound)
    else pure ()

def publishStaged (delivery : AcceptedDelivery) (staged : StagedPublication) :
    Program ε HandleOutcome := do
  controller.verifyStaged codec staged
  let answer : Except ProviderError Unit ←
    perform (.publish delivery.delivery staged.publication)
  let _ ← orFail .publish answer
  let answer : Except ε LeaseCompletion ← perform (.complete delivery staged)
  let completion ← orFail .completion answer
  match completion with
  | .lost => .fail .completionLost
  | .completed => do
    controller.observeExternal staged.publication
    pure (.published staged.publication.conclusion staged.publication.artifact)

def resolveClaim (delivery : AcceptedDelivery) (check : CheckBinding) (claim : DeliveryClaim) :
    Program ε ClaimResolution :=
  match claim with
  | .execute lease => if lease.check = check then pure (.execute lease) else .fail .leaseLost
  | .publish staged => do
    let _ ← ofExcept (validateStaged delivery.delivery check staged)
    pure (.publish staged)
  | .busy evaluationId retryAtUnixMillis =>
    pure (.answer (.inProgress evaluationId retryAtUnixMillis))
  | .duplicate evaluationId =>
    if controller.artifacts then do
      let answer : Except ArtifactError (Option ArtifactReference) ← perform (.find evaluationId)
      let artifact ← orFail .artifact answer
      pure (.answer (.duplicate evaluationId artifact))
    else pure (.answer (.duplicate evaluationId none))
  | .bindingConflict => .fail .deliveryBindingConflict

variable (accepted : AcceptedDelivery)

/-- The runner's outcome for an active change; a change in any other state is
    not run. -/
def runActive (initial : ChangeSnapshot) (request : RunRequest)
    (lease : DeliveryLease) : Program ε (DeliveryLease × Option RunnerOutcome) :=
  match initial.state with
  | .active => do
    let script : RunnerScript ← perform (.run request)
    let (lease, failure, outcome) ← supervise accepted lease none script
    match failure with
    | some e => .fail e
    | none => pure (lease, some outcome)
  | .superseded | .closed | .authorizationRevoked => pure (lease, none)

/-- The publication with its artifacts, where artifacts are kept. -/
def retainActive (policy : ExternalPolicy)
    (prepared : PreparedPublication) (lease : DeliveryLease) :
    Program ε (DeliveryLease × Publication) :=
  if prepared.publication.report.isSome && controller.artifacts then do
    let lease ← renewLease accepted lease
    let publication ←
      retainPublication codec policy prepared.publication prepared.semanticArtifact
    let lease ← renewLease accepted lease
    pure (lease, publication)
  else pure (lease, prepared.publication)

/-- Evaluates a delivery under a lease and publishes what comes of it. -/
def execute (plan : CheckPlan) (check : CheckBinding)
    (lease : DeliveryLease) : Program ε HandleOutcome := do
  let answer : Except ProviderError ChangeSnapshot ← perform (.refresh accepted.delivery)
  let initial ← orFail .provider answer
  let _ ← ofExcept (validateChange accepted.delivery initial)
  let lease ← renewLease accepted lease
  let run : RunRequest :=
    { delivery := accepted.delivery.identity
      providerRun := accepted.delivery.providerRun
      evaluationId := lease.evaluationId
      check
      plan
      run := initial.run }
  let (lease, outcome) ← runActive accepted initial run lease
  let lease ← renewLease accepted lease
  let (lease, retained) ← controller.retainActive codec accepted plan.externalPolicy
    (publication run initial outcome) lease
  let answer : Except ProviderError ChangeSnapshot ← perform (.refresh accepted.delivery)
  let fresh ← orFail .provider answer
  let _ ← ofExcept (validateChange accepted.delivery fresh)
  let lease ← renewLease accepted lease
  let staged ← stagePublication accepted lease (finalizePublication initial fresh retained)
  controller.publishStaged codec accepted staged

/-- The trust flow from a raw delivery to a published result. -/
def handle (input : UntrustedDelivery) : Program ε HandleOutcome := do
  let clock : Option Int ← perform .clock
  let checked ← orFail .ingress (controller.ingress.preAuth codec.sha256 input clock)
  ensure (controller.handles checked.delivery.route.provider.namespaceName = true) .unknownProvider
  let answer : Except ProviderError VerifiedDelivery ← perform (.authenticate checked)
  let verified ← orFail .provider answer
  let accepted ← orFail .ingress (controller.ingress.postAuth codec.sha256 checked verified)
  let (plan, check) ← orFail .plan (resolvePlan codec controller.plans accepted.delivery)
  let answer : Except ε DeliveryClaim ← perform (.claim accepted check)
  let claim ← orFail .ledger answer
  let resolution ← controller.resolveClaim accepted check claim
  match resolution with
  | .execute lease => controller.execute codec accepted plan check lease
  | .publish staged => controller.publishStaged codec accepted staged
  | .answer outcome => pure outcome

end Controller

end Flow

end Amiss
