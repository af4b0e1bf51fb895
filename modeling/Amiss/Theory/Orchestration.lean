import Amiss.Controller.Orchestration
import Amiss.Theory.Ingress

/-!
# What a Published Pass Rests On

A controller asks its adapter to publish only what was staged: in the same
handling, or in an earlier one whose publication a claim returned. And it
stages a pass only after it has seen all that a pass needs: the provider named
the same run and gate commit before and after, in an active change; the runner
returned a complete report of exactly that run, and its evaluation passed; and
no refuted external verdict stands against it under a blocking policy.

The surroundings answer whatever they like. Something is assumed of the ledger
and of the artifact store alone: a claim returns only a publication that was
staged under a lease the ledger held authoritative, and a reference describes a
bundle that was retained for its evaluation.

## Main definitions

* `PassRun.Proves`: What was seen before a pass was staged.
* `allowedCall`: When a controller may stage and publish.
* `LedgerContract`, `ArtifactContract`: What a shared ledger and a shared store
  of artifacts promise.

## Theorems

* `handle_guarded`: The flow stages and publishes only what it may.
* `pass_published_only_if_proven`: Every published pass, in every history of
  controllers over one ledger.
-/

namespace Amiss

open List

open Interaction (Guarded Event eventsOf Interleaves)

variable {ε : Type}

/-- The calls of a handling. -/
abbrev Events (ε : Type) := List (Event Call (Answer ε))

/-- The answers one pass was concluded from. -/
structure PassRun where
  initial : ChangeSnapshot
  fresh : ChangeSnapshot
  request : RunRequest
  script : RunnerScript
  heartbeats : List HeartbeatOutcome
  identity : RunIdentity
  report : Bytes
  semantic : Option Bytes

/-- The store of artifacts returns this reference for the evaluation. -/
def Returns (event : Event Call (Answer ε)) (evaluationId : OpaqueId)
    (artifact : ArtifactReference) : Prop :=
  event = ⟨.find evaluationId, .ok (some artifact)⟩ ∨
    ∃ bundle, event = ⟨.retain evaluationId bundle, .ok artifact⟩

def Kept (past : Events ε) (evaluationId : OpaqueId) (artifact : ArtifactReference) : Prop :=
  ∃ event ∈ past, Returns event evaluationId artifact

/-- The calls before a publication was staged prove that it passes. -/
structure PassRun.Proves (run : PassRun) (delivery : AuthenticatedDelivery) (past : Events ε)
    (publication : Publication) : Prop where
  seen : [⟨.refresh delivery, .ok run.initial⟩, ⟨.run run.request, run.script⟩,
    ⟨.refresh delivery, .ok run.fresh⟩].Sublist past
  initial_active : run.initial.state = .active
  fresh_active : run.fresh.state = .active
  same_run : run.initial.run = run.fresh.run
  same_gate : run.initial.gateCommit = run.fresh.gateCommit
  asked : run.request.run = run.initial.run
  returned : run.script.after run.heartbeats =
    some (.complete run.identity .pass run.report run.semantic)
  identity : run.identity = run.initial.run
  nonempty : run.report ≠ []
  ceiling : run.report.length ≤ machineJsonBytes
  bound : publication.run = run.initial.run ∧ publication.gateCommit = run.initial.gateCommit ∧
    publication.report = some run.report
  unrefuted : run.request.plan.externalPolicy = .blockConfirmedRefutations →
    ∀ artifact tally, publication.artifact = some artifact →
      artifact.externalTally = some tally → tally.refuted = 0
  kept : ∀ artifact, publication.artifact = some artifact →
    Kept past publication.evaluationId artifact

/-- A claim returned this publication. -/
def Claimed (past : Events ε) (publication : Publication) : Prop :=
  ∃ accepted check frozen, (⟨.claim accepted check, .ok (.publish frozen)⟩ : Event _ _) ∈ past ∧
    frozen.publication = publication

/-- This publication was staged. -/
def Staged (past : Events ε) (publication : Publication) : Prop :=
  ∃ accepted lease frozen,
    (⟨.stage accepted lease publication, .ok (.staged frozen)⟩ : Event _ _) ∈ past

/-- The tally counts the verdicts of the assessment. -/
def Tallied (codec : ControllerCodec) (assessment : Option Bytes) (tally : Option ExternalTally) :
    Prop :=
  ∀ found ∈ assessment, ∃ verdicts, codec.parseVerdicts found = some verdicts ∧
    tally = some (verdicts.foldl ExternalTally.count ⟨0, 0, 0⟩)

/-- When a controller may stage, publish and retain. -/
def allowedCall (codec : ControllerCodec) (past : Events ε) : Call → Prop
  | .stage accepted _ publication =>
    publication.conclusion = .pass → ∃ run : PassRun, run.Proves accepted.delivery past publication
  | .publish _ publication => Claimed past publication ∨ Staged past publication
  | .retain _ bundle => Tallied codec bundle.assessment bundle.externalTally
  | _ => True

/-! ### The verdict -/

/-- A pass is concluded only from a complete report of the expected run. -/
theorem runnerConclusion_pass {expected : RunIdentity} {outcome : Option RunnerOutcome}
    (h : (runnerConclusion expected outcome).1 = .pass) :
    ∃ identity report semantic, outcome = some (.complete identity .pass report semantic) ∧
      identity = expected ∧ report ≠ [] ∧ report.length ≤ machineJsonBytes ∧
      (runnerConclusion expected outcome).2 = some report := by
  unfold runnerConclusion at h ⊢
  split at h
  next identity evaluation report semantic =>
    split at h
    next => cases h
    next hidentity =>
    split at h
    next => cases h
    next htrees =>
    split at h
    next => cases h
    next hempty =>
    split at h
    next => cases h
    next hceiling =>
    cases evaluation with
    | block => cases h
    | pass =>
      simp only [not_or, not_not] at hidentity htrees
      refine ⟨identity, report, semantic, rfl, ?_, ?_, not_lt.mp hceiling, ?_⟩
      · rcases hidentity with ⟨hchange, hrefs, hformat, hcommits⟩
        cases identity
        cases expected
        simp only at hchange hrefs hformat hcommits htrees
        rw [hchange, hrefs, hformat, hcommits, htrees]
      · exact fun hnil => hempty (isEmpty_iff.mpr hnil)
      · simp [hidentity, htrees, hempty, hceiling]
  all_goals cases h

variable {initial fresh : ChangeSnapshot}

theorem invalidated_ne_pass : invalidated initial fresh ≠ some .pass := by
  unfold invalidated
  split_ifs <;> simp

/-- A verdict stands only in a change that was active and the same twice. -/
theorem invalidated_none (h : invalidated initial fresh = none) :
    initial.state = .active ∧ fresh.state = .active ∧ initial.run = fresh.run ∧
      initial.gateCommit = fresh.gateCommit := by
  unfold invalidated at h
  split at h
  next => cases h
  next hrevoked =>
  split at h
  next => cases h
  next hclosed =>
  split at h
  next => cases h
  next hsuperseded =>
  simp only [not_or, not_not] at hrevoked hclosed hsuperseded
  refine ⟨?_, ?_, hsuperseded.2.2.1, hsuperseded.2.2.2⟩
  · cases hstate : initial.state with
    | active => rfl
    | superseded => exact absurd hstate hsuperseded.2.1
    | closed => exact absurd hstate hclosed.2
    | authorizationRevoked => exact absurd hstate hrevoked.2
  · cases hstate : fresh.state with
    | active => rfl
    | superseded => exact absurd hstate hsuperseded.1
    | closed => exact absurd hstate hclosed.1
    | authorizationRevoked => exact absurd hstate hrevoked.1

/-- A pass survives retention only without a refuted verdict that blocks. -/
theorem externalConclusion_pass {policy : ExternalPolicy} {artifact : ArtifactReference}
    {engine : CheckConclusion} (h : externalConclusion policy artifact engine = .pass) :
    engine = .pass ∧ (policy = .blockConfirmedRefutations →
      ∀ tally, artifact.externalTally = some tally → tally.refuted = 0) := by
  unfold externalConclusion at h
  split at h
  next => cases h
  next hunblocked =>
  refine ⟨h, fun hpolicy tally htally => ?_⟩
  by_contra hrefuted
  refine hunblocked ⟨hpolicy, ?_⟩
  rw [htally, Option.any_some]
  exact decide_eq_true (Nat.pos_of_ne_zero hrefuted)

theorem Kept.mono {past events : Events ε} {evaluationId : OpaqueId}
    {artifact : ArtifactReference} (hgrows : past <+: events)
    (h : Kept past evaluationId artifact) : Kept events evaluationId artifact :=
  h.imp (fun _ hevent => ⟨hgrows.subset hevent.1, hevent.2⟩)

/-- What retention may have done to a publication. -/
def Retained (past : Events ε) (policy : ExternalPolicy) (prepared retained : Publication) : Prop :=
  retained = prepared ∨ ∃ artifact, Kept past prepared.evaluationId artifact ∧ retained =
    { prepared with
      conclusion := externalConclusion policy artifact prepared.conclusion
      artifact := some artifact }

variable {retained : Publication}

theorem Retained.mono {past events : Events ε} {policy : ExternalPolicy} {prepared : Publication}
    (hgrows : past <+: events) (h : Retained past policy prepared retained) :
    Retained events policy prepared retained :=
  h.imp id (fun ⟨artifact, hkept, heq⟩ => ⟨artifact, Kept.mono hgrows hkept, heq⟩)

theorem Retained.pass {past : Events ε} {policy : ExternalPolicy} {prepared : Publication}
    (h : Retained past policy prepared retained) (hnone : prepared.artifact = none)
    (hpass : retained.conclusion = .pass) :
    prepared.conclusion = .pass ∧ retained.run = prepared.run ∧
      retained.gateCommit = prepared.gateCommit ∧ retained.report = prepared.report ∧
      (policy = .blockConfirmedRefutations → ∀ artifact tally,
        retained.artifact = some artifact → artifact.externalTally = some tally →
        tally.refuted = 0) ∧
      ∀ artifact, retained.artifact = some artifact →
        Kept past retained.evaluationId artifact := by
  rcases h with rfl | ⟨artifact, hkept, rfl⟩
  · simp [hpass, hnone]
  · rcases externalConclusion_pass hpass with ⟨hengine, hrefuted⟩
    refine ⟨hengine, rfl, rfl, rfl, fun hpolicy found tally hfound htally => ?_, ?_⟩
    · rw [Option.some.injEq] at hfound
      exact hrefuted hpolicy tally (hfound ▸ htally)
    · rintro _ ⟨⟩
      exact hkept

/-- A finished publication passes only if what it was made from did, in a
    change that stayed as it was. -/
theorem finalizePublication_pass
    (h : (finalizePublication initial fresh retained).conclusion = .pass) :
    finalizePublication initial fresh retained = retained ∧ invalidated initial fresh = none := by
  unfold finalizePublication at h ⊢
  cases hinvalid : invalidated initial fresh with
  | none => exact ⟨rfl, rfl⟩
  | some conclusion =>
    rw [hinvalid] at h
    exact absurd (hinvalid.trans (congrArg some h)) invalidated_ne_pass

/-! ### Parts of the flow -/

section Parts

variable {past : Events ε} {codec : ControllerCodec}

section

variable (accepted : AcceptedDelivery)

include accepted

variable (lease : DeliveryLease)

theorem renewal_guarded :
    (renewal accepted lease : Program ε _).Guarded (allowedCall codec) past (fun _ _ => True) :=
  Guarded.request_bind trivial (fun _ => Guarded.pure trivial)

theorem renewLease_guarded :
    (renewLease accepted lease : Program ε _).Guarded (allowedCall codec) past
      (fun _ _ => True) := by
  unfold renewLease
  refine .bind (renewal_guarded accepted lease) (fun renewed events _ => ?_)
  cases renewed with
  | error e => trivial
  | ok lease => trivial

theorem heartbeat_guarded :
    (heartbeat accepted lease : Program ε _).Guarded (allowedCall codec) past
      (fun _ _ => True) := by
  unfold heartbeat
  refine .bind (renewal_guarded accepted lease) (fun renewed events _ => ?_)
  cases renewed with
  | error e => exact .pure trivial
  | ok lease => exact .request_bind trivial (fun _ => Guarded.pure trivial)

/-- A supervised run returns what its runner does. -/
theorem supervise_guarded (failure : Option (ControllerError ε)) (script : RunnerScript) :
    (supervise accepted lease failure script).Guarded (allowedCall codec) past
      (fun result _ => ∃ heartbeats, script.after heartbeats = some result.2.2) := by
  induction script generalizing lease failure past with
  | finish outcome => exact .pure ⟨[], rfl⟩
  | renew next ih =>
    cases failure with
    | some e =>
      exact (ih .stop lease (some e)).mono (fun _ _ ⟨heartbeats, h⟩ => ⟨.stop :: heartbeats, h⟩)
    | none =>
      unfold supervise
      refine .bind (heartbeat_guarded accepted lease) (fun renewed events _ => ?_)
      cases renewed with
      | error e =>
        exact (ih .stop lease (some e)).mono
          (fun _ _ ⟨heartbeats, h⟩ => ⟨.stop :: heartbeats, h⟩)
      | ok renewed =>
        exact (ih (.renewed renewed.2) renewed.1 none).mono
          (fun _ _ ⟨heartbeats, h⟩ => ⟨.renewed renewed.2 :: heartbeats, h⟩)

/-- An outcome came from a runner that was asked, in an active change. -/
theorem runActive_guarded (initial : ChangeSnapshot) (request : RunRequest)
    (lease : DeliveryLease) :
    (Controller.runActive accepted initial request lease : Program ε _).Guarded
      (allowedCall codec) past (fun result events => ∀ outcome, result.2 = some outcome →
        ∃ script heartbeats, past ++ [⟨.run request, script⟩] <+: events ∧
          script.after heartbeats = some outcome) := by
  unfold Controller.runActive
  cases initial.state with
  | active =>
    refine .request_bind trivial (fun script => ?_)
    refine .bind_grows (supervise_guarded accepted lease none script) ?_
    rintro ⟨renewed, failure, outcome⟩ events hgrows ⟨heartbeats, hreturned⟩
    cases failure with
    | some e => trivial
    | none =>
      refine .pure ?_
      rintro _ ⟨⟩
      exact ⟨script, heartbeats, hgrows, hreturned⟩
  | superseded | closed | authorizationRevoked =>
    exact .pure (fun _ h => absurd h (by simp))

end

variable (codec)

theorem assessExternal_tallied (engine : String × Digest) (plan evidence : Bytes) :
    Tallied codec (assessExternal codec engine plan evidence).assessment
      (assessExternal codec engine plan evidence).tally := by
  unfold assessExternal
  split
  next => simp [Tallied]
  next =>
  split
  next => simp [Tallied]
  next verdicts hverdicts =>
    rintro _ ⟨⟩
    exact ⟨verdicts, hverdicts, rfl⟩

theorem prepareExternal_guarded (report : Bytes) :
    (prepareExternal codec report : Program ε _).Guarded (allowedCall codec) past
      (fun external _ => Tallied codec external.assessment external.tally) := by
  have hnone : ∀ tally, Tallied codec none tally := fun _ _ h => by cases h
  unfold prepareExternal
  split
  next => exact .pure (hnone _)
  next =>
  split
  next => exact .pure (hnone _)
  next =>
    refine .request_bind trivial (fun clock => ?_)
    cases clock with
    | none => exact .pure (hnone _)
    | some now =>
      refine .request_bind trivial (fun answer => Guarded.pure ?_)
      split
      next => exact hnone _
      next => exact hnone _
      next => exact assessExternal_tallied codec _ _ _

theorem retainArtifact_guarded (policy : ExternalPolicy)
    (evaluationId : OpaqueId) (report : Bytes) (semantic : Option Bytes) :
    (retainArtifact codec policy evaluationId report semantic : Program ε _).Guarded
      (allowedCall codec) past (fun artifact events => Kept events evaluationId artifact) := by
  unfold retainArtifact
  refine .request_bind trivial (fun answer => Guarded.orFail_bind (fun found hfound => ?_))
  have hfound : answer = .ok found := hfound
  cases found with
  | some reference =>
    dsimp only
    split
    next => trivial
    next =>
      refine .request_bind trivial (fun answer => Guarded.orFail_bind (fun _ _ => ?_))
      exact .pure ⟨⟨.find evaluationId, .ok (some reference)⟩, by simp [hfound], .inl rfl⟩
  | none =>
    have hlast : ∀ (external : PreparedExternal) (events : Events ε),
        Tallied codec external.assessment external.tally →
        Guarded (allowedCall codec) (do
          let answer : Except ArtifactError ArtifactReference ←
            perform (.retain evaluationId
              ⟨report, semantic, external.plan, external.evidence, external.assessment,
                external.tally, external.incomplete⟩)
          Interaction.orFail .artifact answer : Program ε ArtifactReference) events
          (fun artifact events => Kept events evaluationId artifact) := by
      intro external events htallied
      refine .request_bind htallied (fun answer => ?_)
      cases answer with
      | error e => trivial
      | ok artifact => exact ⟨_, mem_append_right _ mem_cons_self, .inr ⟨_, rfl⟩⟩
    dsimp only
    split
    next => exact hlast _ _ (fun _ h => by cases h)
    next => exact .bind (prepareExternal_guarded codec report) hlast

theorem retainActive_guarded (controller : Controller)
    (accepted : AcceptedDelivery) (policy : ExternalPolicy) (prepared : PreparedPublication)
    (lease : DeliveryLease) :
    (controller.retainActive codec accepted policy prepared lease : Program ε _).Guarded
      (allowedCall codec) past
      (fun result events => Retained events policy prepared.publication result.2) := by
  unfold Controller.retainActive
  split
  next =>
    refine .bind (renewLease_guarded accepted lease) (fun lease events _ => ?_)
    have hretain : (retainPublication codec policy prepared.publication
        prepared.semanticArtifact : Program ε _).Guarded (allowedCall codec) events
        (fun retained events => Retained events policy prepared.publication retained) := by
      unfold retainPublication
      split
      next => trivial
      next =>
        exact .bind (retainArtifact_guarded codec policy _ _ _)
          (fun artifact events hkept => Guarded.pure (.inr ⟨artifact, hkept, rfl⟩))
    refine .bind hretain (fun retained events hretained => ?_)
    exact .bind_grows (renewLease_guarded accepted lease)
      (fun _ _ hgrows _ => Guarded.pure (Retained.mono hgrows hretained))
  next => exact .pure (.inl rfl)

variable {publication : Publication}

theorem stagePublication_guarded {accepted : AcceptedDelivery} {lease : DeliveryLease}
    (h : allowedCall codec past (.stage accepted lease publication)) :
    (stagePublication accepted lease publication : Program ε _).Guarded (allowedCall codec) past
      (fun staged events => Staged events staged.publication) := by
  unfold stagePublication
  refine .request_bind h (fun answer => Guarded.orFail_bind (fun outcome houtcome => ?_))
  have houtcome : answer = .ok outcome := houtcome
  subst houtcome
  cases outcome with
  | lost => trivial
  | staged frozen =>
    dsimp only
    split
    next hsame =>
      unfold validateStagedLease
      split
      next => trivial
      next =>
        refine ⟨accepted, lease, frozen, ?_⟩
        rw [hsame]
        exact mem_append_right _ mem_cons_self
    next => trivial

theorem Claimed.mono {events : Events ε} (hgrows : past <+: events) (h : Claimed past publication) :
    Claimed events publication := by
  rcases h with ⟨accepted, check, frozen, hmem, hsame⟩
  exact ⟨accepted, check, frozen, hgrows.subset hmem, hsame⟩

theorem Staged.mono {events : Events ε} (hgrows : past <+: events) (h : Staged past publication) :
    Staged events publication := by
  rcases h with ⟨accepted, lease, frozen, hmem⟩
  exact ⟨accepted, lease, frozen, hgrows.subset hmem⟩

theorem verifyStaged_guarded (controller : Controller) (frozen : StagedPublication) :
    (controller.verifyStaged codec frozen : Program ε _).Guarded (allowedCall codec) past
      (fun _ _ => True) := by
  unfold Controller.verifyStaged
  split
  next =>
    split
    next => trivial
    next =>
    split
    next =>
      refine .request_bind trivial (fun answer => ?_)
      cases answer <;> trivial
    next => trivial
  next => split <;> trivial

theorem observeExternal_guarded (controller : Controller) (publication : Publication) :
    (controller.observeExternal publication : Program ε _).Guarded (allowedCall codec) past
      (fun _ _ => True) := by
  unfold Controller.observeExternal
  split
  next =>
    split
    next => exact .request_bind trivial (fun _ => Guarded.pure trivial)
    next =>
      split
      next => exact .pure trivial
      next => exact .request_bind trivial (fun _ => Guarded.pure trivial)
  next => exact .pure trivial

theorem publishStaged_guarded (controller : Controller)
    (accepted : AcceptedDelivery) {frozen : StagedPublication}
    (h : Claimed past frozen.publication ∨ Staged past frozen.publication) :
    (controller.publishStaged codec accepted frozen : Program ε _).Guarded (allowedCall codec) past
      (fun _ _ => True) := by
  unfold Controller.publishStaged
  refine .bind_grows (verifyStaged_guarded codec controller frozen) ?_
  intro _ events hgrows _
  refine .request_bind (h.imp (Claimed.mono hgrows) (Staged.mono hgrows))
    (fun answer => Guarded.orFail_bind (fun _ _ => ?_))
  refine .request_bind trivial (fun answer => Guarded.orFail_bind (fun completion _ => ?_))
  cases completion with
  | lost => trivial
  | completed =>
    exact .bind (observeExternal_guarded codec controller _)
      (fun _ _ _ => Guarded.pure trivial)

/-- A claim that is resolved to a publication returned it. -/
theorem resolveClaim_guarded (controller : Controller) (accepted : AcceptedDelivery)
    (check : CheckBinding) (claim : DeliveryClaim) :
    (controller.resolveClaim accepted check claim : Program ε _).Guarded (allowedCall codec) past
      (fun resolution _ => ∀ frozen, resolution = .publish frozen → claim = .publish frozen) := by
  unfold Controller.resolveClaim
  have hother : ∀ (resolution : ClaimResolution), (∀ frozen, resolution ≠ .publish frozen) →
      ∀ frozen, resolution = .publish frozen → claim = .publish frozen :=
    fun _ hne frozen heq => absurd heq (hne frozen)
  cases claim with
  | execute lease =>
    dsimp only
    split
    next => exact .pure (hother _ (fun _ => ClaimResolution.noConfusion))
    next => trivial
  | publish frozen =>
    refine .ofExcept_bind (fun _ _ => Guarded.pure ?_)
    rintro _ ⟨⟩
    rfl
  | busy evaluationId retry =>
    exact .pure (hother _ (fun _ => ClaimResolution.noConfusion))
  | duplicate evaluationId =>
    dsimp only
    split
    next =>
      exact .request_bind trivial (fun _ => Guarded.orFail_bind (fun _ _ =>
        Guarded.pure (hother _ (fun _ => ClaimResolution.noConfusion))))
    next => exact .pure (hother _ (fun _ => ClaimResolution.noConfusion))
  | bindingConflict => trivial

end Parts

/-! ### The flow -/

/-- The answers seen in order prove a pass. -/
theorem proves_of_flow {past events : Events ε} {delivery : AuthenticatedDelivery}
    {request : RunRequest} {outcome : Option RunnerOutcome} (hrun : request.run = initial.run)
    (hinitial : [(⟨.refresh delivery, .ok initial⟩ : Event Call (Answer ε))].Sublist past)
    (houtcome : ∀ found, outcome = some found → ∃ script heartbeats,
      past ++ [⟨.run request, script⟩] <+: events ∧ script.after heartbeats = some found)
    (hretained : Retained events request.plan.externalPolicy
      (publication request initial outcome).publication retained)
    {later : Events ε} (hgrows : events ++ [⟨.refresh delivery, .ok fresh⟩] <+: later)
    (hpass : (finalizePublication initial fresh retained).conclusion = .pass) :
    ∃ run : PassRun, run.Proves delivery later (finalizePublication initial fresh retained) := by
  rcases finalizePublication_pass hpass with ⟨hfinal, hvalid⟩
  rw [hfinal] at hpass ⊢
  rcases invalidated_none hvalid with ⟨hactive, hstill, hsame, hgate⟩
  rcases hretained.pass rfl hpass with
    ⟨hprepared, hbound, hboundGate, hreport, hrefuted, hkept⟩
  rcases runnerConclusion_pass hprepared with
    ⟨identity, report, semantic, rfl, hidentity, hnonempty, hceiling, hreported⟩
  rcases houtcome _ rfl with ⟨script, heartbeats, hscript, hreturned⟩
  refine ⟨⟨initial, fresh, request, script, heartbeats, identity, report, semantic⟩, ?_, hactive,
    hstill, hsame, hgate, hrun, hreturned, hidentity, hnonempty, hceiling,
    ⟨hbound, hboundGate, hreport.trans hreported⟩, hrefuted, fun artifact hartifact =>
      Kept.mono ((prefix_append _ _).trans hgrows) (hkept artifact hartifact)⟩
  -- each answer was seen after the ones before it
  have hran := (hinitial.append (List.Sublist.refl [⟨.run request, script⟩])).trans
    hscript.sublist
  exact (hran.append (List.Sublist.refl [⟨.refresh delivery, .ok fresh⟩])).trans hgrows.sublist

theorem execute_guarded {past : Events ε} (codec : ControllerCodec) (controller : Controller)
    (accepted : AcceptedDelivery) (plan : CheckPlan) (check : CheckBinding)
    (lease : DeliveryLease) :
    (controller.execute codec accepted plan check lease : Program ε _).Guarded
      (allowedCall codec) past (fun _ _ => True) := by
  unfold Controller.execute
  refine .request_bind trivial (fun answer => Guarded.orFail_bind (fun initial hinitial => ?_))
  have hinitial : answer = .ok initial := hinitial
  subst hinitial
  refine .ofExcept_bind (fun _ _ => ?_)
  refine .bind_grows (renewLease_guarded accepted lease) ?_
  intro lease renewed hrenewed _
  refine .bind_grows (runActive_guarded accepted initial _ lease) ?_
  rintro ⟨lease, outcome⟩ ran hran houtcome
  refine .bind_grows (renewLease_guarded accepted lease) ?_
  intro lease again hagain _
  refine .bind_grows (retainActive_guarded codec controller accepted _ _ lease) ?_
  rintro ⟨lease, retained⟩ kept hkept hretained
  refine .request_bind trivial (fun answer => Guarded.orFail_bind (fun fresh hfresh => ?_))
  have hfresh : answer = .ok fresh := hfresh
  subst hfresh
  refine .ofExcept_bind (fun _ _ => ?_)
  refine .bind_grows (renewLease_guarded accepted lease) ?_
  intro lease last hlast _
  have hseen : [(⟨.refresh accepted.delivery, .ok initial⟩ : Event Call (Answer ε))].Sublist
      renewed :=
    (sublist_append_right past _).trans hrenewed.sublist
  refine .bind (stagePublication_guarded codec ?_)
    (fun frozen events hstaged => publishStaged_guarded codec controller accepted (.inr hstaged))
  intro hpass
  refine proves_of_flow rfl hseen (fun found hfound => ?_) hretained hlast hpass
  rcases houtcome found hfound with ⟨script, heartbeats, hscript, hreturned⟩
  exact ⟨script, heartbeats, hscript.trans (hagain.trans hkept), hreturned⟩

/-- The flow stages and publishes only what it may. -/
theorem handle_guarded (codec : ControllerCodec) (controller : Controller)
    (input : UntrustedDelivery) :
    (controller.handle codec input : Program ε _).Guarded (allowedCall codec) []
      (fun _ _ => True) := by
  unfold Controller.handle
  refine .request_bind trivial (fun clock => Guarded.orFail_bind (fun checked _ => ?_))
  refine .ensure_bind (fun _ => ?_)
  refine .request_bind trivial (fun answer => Guarded.orFail_bind (fun verified _ => ?_))
  refine .orFail_bind (fun accepted _ => ?_)
  refine .orFail_bind (fun resolved _ => ?_)
  rcases resolved with ⟨plan, check⟩
  refine .request_bind trivial (fun answer => Guarded.orFail_bind (fun claim hclaim => ?_))
  have hclaim : answer = .ok claim := hclaim
  subst hclaim
  refine .bind_grows (resolveClaim_guarded codec controller accepted check claim) ?_
  intro resolution events hgrows hresolved
  cases resolution with
  | execute lease => exact execute_guarded codec controller accepted plan check lease
  | publish frozen =>
    refine publishStaged_guarded codec controller accepted (.inl ?_)
    rw [hresolved frozen rfl] at hgrows
    exact Claimed.mono hgrows
      ⟨accepted, check, frozen, mem_append_right _ mem_cons_self, rfl⟩
  | answer outcome => exact .pure trivial

/-! ### Controllers over one ledger -/

section History

variable {ι : Type} [DecidableEq ι]

/-- What a ledger promises in a history of calls. `authoritative` is its own
    judgement of a lease, given the calls before. -/
structure LedgerContract (authoritative : List (ι × Event Call (Answer ε)) → DeliveryLease → Prop)
    (history : List (ι × Event Call (Answer ε))) : Prop where
  staged : ∀ before i accepted lease publication frozen after,
    history = before ++ (i, ⟨.stage accepted lease publication, .ok (.staged frozen)⟩) :: after →
    authoritative before lease
  claimed : ∀ before i accepted check frozen after,
    history = before ++ (i, ⟨.claim accepted check, .ok (.publish frozen)⟩) :: after →
    ∃ earlier j bound lease answer rest,
      before = earlier ++ (j, ⟨.stage bound lease frozen.publication, answer⟩) :: rest ∧
        lease.evaluationId = frozen.evaluationId ∧ lease.fence = frozen.fence ∧
        authoritative earlier lease

/-- The reference is of this bundle. -/
def Describes (codec : ControllerCodec) (artifact : ArtifactReference) (bundle : ArtifactBundle) :
    Prop :=
  artifact.reportDigest = codec.sha256 bundle.report ∧
    artifact.assessmentDigest = bundle.assessment.map codec.sha256 ∧
    artifact.externalTally = bundle.externalTally

/-- What a store of artifacts promises in a history of calls: a reference it
    returns is of a bundle it was given for the evaluation. -/
def ArtifactContract (codec : ControllerCodec) (history : List (ι × Event Call (Answer ε))) :
    Prop :=
  ∀ before i event after evaluationId artifact, history = before ++ (i, event) :: after →
    Returns event evaluationId artifact →
    ∃ j bundle answer, (j, ⟨.retain evaluationId bundle, answer⟩) ∈ before ++ [(i, event)] ∧
      Describes codec artifact bundle

/-- The artifact is of a bundle that was retained for the evaluation, and none
    of the verdicts in the bundle is refuted. -/
def Unrefuted (codec : ControllerCodec) (before : List (ι × Event Call (Answer ε)))
    (evaluationId : OpaqueId) (artifact : ArtifactReference) : Prop :=
  ∃ j bundle answer, (j, ⟨.retain evaluationId bundle, answer⟩) ∈ before ∧
    Describes codec artifact bundle ∧ ∀ assessment ∈ bundle.assessment,
      ∃ verdicts, codec.parseVerdicts assessment = some verdicts ∧ .refuted ∉ verdicts

/-- The handling that staged the publication had seen all that a pass needs, and
    no retained verdict is refuted where the policy blocks. -/
def Proven (codec : ControllerCodec) (before : List (ι × Event Call (Answer ε))) (j : ι)
    (delivery : AuthenticatedDelivery) (publication : Publication) : Prop :=
  ∃ run : PassRun, run.Proves delivery (eventsOf j before) publication ∧
    (run.request.plan.externalPolicy = .blockConfirmedRefutations →
      ∀ artifact, publication.artifact = some artifact →
        Unrefuted codec before publication.evaluationId artifact)

/-- A count without refuted verdicts counted none. -/
theorem refuted_not_mem_of_count {verdicts : List ExternalVerdict} {tally : ExternalTally}
    (h : (verdicts.foldl ExternalTally.count tally).refuted = 0) :
    tally.refuted = 0 ∧ .refuted ∉ verdicts := by
  induction verdicts generalizing tally with
  | nil => exact ⟨h, not_mem_nil⟩
  | cons verdict verdicts ih =>
    rcases ih h with ⟨hcount, hrest⟩
    cases verdict with
    | refuted =>
      have hpositive : 0 < saturatingSucc tally.refuted := by
        unfold saturatingSucc
        omega
      exact absurd hcount hpositive.ne'
    | unproven | reachable => exact ⟨hcount, by simpa using hrest⟩

variable {codec : ControllerCodec} {history : List (ι × Event Call (Answer ε))}

/-- A kept artifact without refuted verdicts in its tally has none. -/
theorem unrefuted_of_kept {earlier rest : List (ι × Event Call (Answer ε))} {j : ι}
    {evaluationId : OpaqueId} {artifact : ArtifactReference}
    (hartifacts : ArtifactContract codec history)
    (hallowed : ∀ {i evaluationId bundle answer},
      (i, ⟨.retain evaluationId bundle, answer⟩) ∈ history →
      Tallied codec bundle.assessment bundle.externalTally)
    (hhistory : history = earlier ++ rest)
    (hkept : Kept (eventsOf j earlier) evaluationId artifact)
    (htally : ∀ tally, artifact.externalTally = some tally → tally.refuted = 0) :
    Unrefuted codec earlier evaluationId artifact := by
  rcases hkept with ⟨event, hevent, hreturns⟩
  rcases Interaction.exists_split_of_mem_eventsOf hevent with ⟨before, after, hearlier⟩
  rw [hearlier, append_assoc, cons_append] at hhistory
  rcases hartifacts _ _ _ _ _ _ hhistory hreturns with ⟨i, bundle, answer, hretain, hdescribes⟩
  have hbefore : (i, ⟨.retain evaluationId bundle, answer⟩) ∈ earlier := by
    rw [hearlier, append_cons]
    exact mem_append_left _ hretain
  refine ⟨i, bundle, answer, hbefore, hdescribes, fun assessment hassessment => ?_⟩
  have hmem : (i, ⟨.retain evaluationId bundle, answer⟩) ∈ history := by
    rw [hhistory, append_cons]
    exact mem_append_left _ hretain
  rcases hallowed hmem assessment hassessment with ⟨verdicts, hverdicts, hcount⟩
  exact ⟨verdicts, hverdicts,
    (refuted_not_mem_of_count (htally _ (hdescribes.2.2.trans hcount))).2⟩

/-- Every publication an adapter is asked for was staged before, exactly as it
    is published, under a lease the ledger held authoritative; and if it is a
    pass, it was proven. -/
theorem pass_published_only_if_proven {controller : ι → Controller}
    {input : ι → UntrustedDelivery}
    {authoritative : List (ι × Event Call (Answer ε)) → DeliveryLease → Prop}
    (hhistory : Interleaves (fun i => (controller i).handle codec (input i)) history)
    (hledger : LedgerContract authoritative history)
    (hartifacts : ArtifactContract codec history) :
    ∀ before i delivery publication answer after,
      history = before ++ (i, ⟨.publish delivery publication, answer⟩) :: after →
      ∃ earlier j accepted lease staged rest,
        before = earlier ++ (j, ⟨.stage accepted lease publication, staged⟩) :: rest ∧
          authoritative earlier lease ∧
          (publication.conclusion = .pass →
            Proven codec earlier j accepted.delivery publication) := by
  intro before i delivery publication answer after hsplit
  have hguarded : ∀ j, ((controller j).handle codec (input j) : Program ε _).Guarded
      (allowedCall codec) [] (fun _ _ => True) :=
    fun j => handle_guarded codec (controller j) (input j)
  -- a stage call in the history keeps the rule of the handling that made it
  have hproven : ∀ {earlier j accepted lease staged rest},
      before = earlier ++ (j, ⟨.stage accepted lease publication, staged⟩) :: rest →
      publication.conclusion = .pass → Proven codec earlier j accepted.delivery publication := by
    intro earlier j accepted lease staged rest hbefore hpass
    rw [hbefore, append_assoc, cons_append] at hsplit
    rcases hhistory.allowed (hguarded j) hsplit hpass with ⟨run, hproves⟩
    refine ⟨run, hproves, fun hpolicy artifact hartifact => ?_⟩
    refine unrefuted_of_kept hartifacts (fun hmem => ?_) hsplit (hproves.kept artifact hartifact)
      (fun tally => hproves.unrefuted hpolicy artifact tally hartifact)
    rcases append_of_mem hmem with ⟨first, rest, hretain⟩
    exact hhistory.allowed (hguarded _) hretain
  rcases hhistory.allowed (hguarded i) hsplit with
    ⟨accepted, check, frozen, hmem, rfl⟩ | ⟨accepted, lease, frozen, hmem⟩
  · rcases Interaction.exists_split_of_mem_eventsOf hmem with ⟨first, rest, hbefore⟩
    have hclaim := hsplit
    rw [hbefore, append_assoc, cons_append] at hclaim
    rcases hledger.claimed _ _ _ _ _ _ hclaim with
      ⟨earlier, j, bound, lease, staged, between, hfirst, _, _, hauthoritative⟩
    rw [hfirst, append_assoc, cons_append] at hbefore
    exact ⟨earlier, j, bound, lease, staged, _, hbefore, hauthoritative, hproven hbefore⟩
  · rcases Interaction.exists_split_of_mem_eventsOf hmem with ⟨earlier, rest, hbefore⟩
    have hstage := hsplit
    rw [hbefore, append_assoc, cons_append] at hstage
    exact ⟨earlier, i, accepted, lease, _, rest, hbefore,
      hledger.staged _ _ _ _ _ _ _ hstage, hproven hbefore⟩

end History

/-! ### One handling -/

namespace Sample

/-- Evidence is its own assessment, and finds everything reachable. -/
def controllerCodec : ControllerCodec :=
  ⟨codec.sha256, fun _ => some check, fun _ => some ("1", ⟨0⟩), fun report _ _ => some report,
    fun _ evidence _ _ => some evidence, fun _ => some [.reachable]⟩

def plan : CheckPlan := ⟨⟨1⟩, .blockConfirmedRefutations⟩

/-- A controller for any provider, under one plan, that keeps artifacts. -/
def controller : Controller := ⟨fun _ => true, fun _ => some plan, policy, true, false⟩

def snapshot : ChangeSnapshot := ⟨.active, run, commit⟩

def runRequest : RunRequest :=
  { delivery := delivery.identity
    providerRun := delivery.providerRun
    evaluationId := lease.evaluationId
    check
    plan
    run }

/-- What is retained of the one byte the runner reported. -/
def bundle : ArtifactBundle := ⟨[1], none, some [1], some [2], some [2], some ⟨0, 0, 1⟩, false⟩

def artifact : ArtifactReference :=
  ⟨"a", "l", 0, codec.sha256 [1], some (codec.sha256 [2]), some ⟨0, 0, 1⟩, false, none⟩

def reported : Publication := { publication with report := some [1], artifact := some artifact }

/-- A whole handling: admitted at 30, evaluated, staged and published. -/
def handling : Events LedgerError :=
  [⟨.clock, some 30⟩, ⟨.authenticate admitted, .ok verified⟩,
    ⟨.claim (accepted 210) check, .ok (.execute lease)⟩,
    ⟨.refresh delivery, .ok snapshot⟩,
    ⟨.renew (accepted 210) lease, .ok (.renewed lease)⟩,
    ⟨.run runRequest, .finish (.complete run .pass [1] none)⟩,
    ⟨.renew (accepted 210) lease, .ok (.renewed lease)⟩,
    ⟨.renew (accepted 210) lease, .ok (.renewed lease)⟩,
    ⟨.find evaluationId, .ok none⟩, ⟨.clock, some 31⟩,
    ⟨.verifyExternal [1] "31", .ok (some [2])⟩, ⟨.retain evaluationId bundle, .ok artifact⟩,
    ⟨.renew (accepted 210) lease, .ok (.renewed lease)⟩,
    ⟨.refresh delivery, .ok snapshot⟩,
    ⟨.renew (accepted 210) lease, .ok (.renewed lease)⟩,
    ⟨.stage (accepted 210) lease reported, .ok (.staged ⟨evaluationId, lease.fence, reported⟩)⟩,
    ⟨.verify artifact, .ok ()⟩, ⟨.publish delivery reported, .ok ()⟩]

/-- The handling as a history of its own. -/
def history : List (Unit × Event Call (Answer LedgerError)) :=
  handling.map (fun event => ((), event))

theorem interleaves_history :
    Interleaves (fun _ => controller.handle controllerCodec request) history := by
  rintro ⟨⟩
  exact Interaction.trace_of_replay (by decide +kernel)

theorem mem_handling {before after : List (Unit × Event Call (Answer LedgerError))} {i : Unit}
    {event : Event Call (Answer LedgerError)} (h : history = before ++ (i, event) :: after) :
    event ∈ handling := by
  have hmem : (i, event) ∈ history := h ▸ mem_append_right _ mem_cons_self
  rcases mem_map.mp hmem with ⟨found, hfound, heq⟩
  exact (Prod.mk.inj heq).2 ▸ hfound

/-- The ledger takes the lease that it granted for authoritative. -/
theorem ledgerContract_history : LedgerContract (fun _ held => held = lease) history where
  staged := by
    intro before i accepted held publication frozen after hsplit
    have hmem := mem_handling hsplit
    simp only [handling, mem_cons, Sigma.mk.injEq, reduceCtorEq, false_and, false_or, or_false,
      Call.stage.injEq, not_mem_nil] at hmem
    exact hmem.1.2.1
  claimed := by
    intro before i accepted binding frozen after hsplit
    have hmem := mem_handling hsplit
    simp only [handling, mem_cons, Sigma.mk.injEq, reduceCtorEq, false_and, false_or, or_false,
      Call.claim.injEq, not_mem_nil] at hmem
    cases eq_of_heq hmem.2

theorem artifactContract_history : ArtifactContract controllerCodec history := by
  intro before i event after evaluationId reference hsplit hreturns
  have hmem := mem_handling hsplit
  rcases hreturns with rfl | ⟨kept, rfl⟩
  · simp only [handling, mem_cons, Sigma.mk.injEq, reduceCtorEq, false_and, false_or, or_false,
      Call.find.injEq, not_mem_nil] at hmem
    rcases hmem with ⟨rfl, hanswer⟩
    cases eq_of_heq hanswer
  · simp only [handling, mem_cons, Sigma.mk.injEq, reduceCtorEq, false_and, false_or, or_false,
      Call.retain.injEq, not_mem_nil] at hmem
    rcases hmem with ⟨⟨rfl, rfl⟩, hanswer⟩
    cases eq_of_heq hanswer
    exact ⟨i, bundle, _, mem_append_right _ mem_cons_self, rfl, rfl, rfl⟩

end Sample

/-- The pass of the sample handling was staged before it was published, and was
    proven. -/
theorem pass_published_only_if_proven_sample :
    ∃ earlier accepted lease staged rest,
      Sample.history.take 17 =
          earlier ++ ((), ⟨.stage accepted lease Sample.reported, staged⟩) :: rest ∧
        lease = Sample.lease ∧
        Proven Sample.controllerCodec earlier () accepted.delivery Sample.reported := by
  rcases pass_published_only_if_proven Sample.interleaves_history Sample.ledgerContract_history
    Sample.artifactContract_history (Sample.history.take 17) () Sample.delivery Sample.reported
    (.ok ()) [] rfl with ⟨earlier, _, accepted, lease, staged, rest, hbefore, hlease, hproven⟩
  exact ⟨earlier, accepted, lease, staged, rest, hbefore, hlease, hproven rfl⟩

end Amiss
