import Amiss.Theory.Evaluate.Producers
import Amiss.Theory.Path

/-!
# Whole Evaluations

What holds of every finding a run returns, whatever its inputs.

A returned finding is a produced finding that went through the raises, the
easing of pre-existing failures and the exceptions, in that order, or it is a
row of the control plane, which no pass touches. `evaluateWithSite_spec` states
this, and every result below is read off it.

Exceptions are applied by finding key to every finding that has the key, while
they are checked against the one target that has a fact. The two agree when the
key digest is collision free, and only the results that need it assume so.

## Main definitions

* `Finding.ControlRow`: A row of the control plane.
* `leveled`: The passes before the exceptions.
* `Finding.AtRecord`: A finding that is nowhere above record.
* `DeclaredMinimum`: A minimum one of the controls declares.
* `RespectsMinimums`: Candidate occurrences stand at their minimums.

## Theorems

* `debtValid_spec`, `waiverValid_spec`: What makes an exception valid.
* `evaluateWithSite_spec`: Where every returned finding comes from.
* `evaluateWithSite_policyTraces`: The trace of every returned finding.
* `evaluateWithSite_respectsMinimums_iff`: When every candidate occurrence
  stands at its declared minimum.
-/

namespace Amiss

open List

open Fallible

/-- A row of the control plane. -/
structure Finding.ControlRow (codec : Codec) (profile : Profile) (finding : Finding) : Prop where
  fresh : finding.Fresh codec profile
  attributed : finding.attribution = .notApplicable
  side : finding.location.side ≠ .candidate
  offBase : finding.location.side ≠ .base

theorem controlRow_spec {codec : Codec} {profile : Profile} {kind : FindingKind}
    {ruleId : String} {controlPath : Option RepoPath} {baseDigest candidateDigest : Option Digest}
    {exception : Option ExceptionDiagnostic} {finding : Finding}
    (h : controlRow codec profile kind ruleId controlPath baseDigest candidateDigest exception =
      .ok finding) : finding.ControlRow codec profile := by
  have hspec := candidateFactFinding_spec h
  refine ⟨hspec.1, hspec.2.2.1, ?_, ?_⟩ <;> rw [hspec.2.2.2.2.2] <;>
    cases controlPath <;> exact LocationSide.noConfusion

section Exceptions

variable {policy : Effects} {targets : BTreeMap Digest Finding} {instant : UtcInstant}

theorem exceptionTargets_spec {findings : List Finding} {key : Digest} {target : Finding}
    (h : (exceptionTargets findings)[key]? = some target) :
    target ∈ findings ∧ target.candidateFact ≠ none ∧ target.findingKey = key := by
  rcases of_getElem?_foldl_insertIfNew Finding.findingKey id h with ⟨finding, hmem, hkey, rfl⟩
  rw [mem_filter] at hmem
  exact ⟨hmem.1, Option.isSome_iff_ne_none.mp hmem.2, hkey⟩

/-- A debt item is valid when it names the current fact of a target and has not
    expired. -/
theorem debtValid_spec {key : Digest} {item : DebtItem}
    (h : (debtValid policy targets instant)[key]? = some item) :
    ∃ context target, policy.debt = some context ∧ item ∈ context.items ∧
      item.findingKey = key ∧ targets[key]? = some target ∧
      target.factDigest = some item.acceptedFactDigest ∧ instant < item.expiresAt := by
  unfold debtValid at h
  split at h
  · rw [Std.ExtTreeMap.getElem?_empty] at h
    cases h
  rename_i context hcontext
  rcases of_getElem?_foldl_insert DebtItem.findingKey id h with ⟨found, hmem, hkey, rfl⟩
  rw [mem_filter] at hmem
  have happlies := hmem.2
  unfold debtApplies at happlies
  split at happlies
  · exact absurd happlies Bool.false_ne_true
  rename_i current hcurrent
  rw [debtCurrent, Option.bind_eq_some_iff] at hcurrent
  rcases hcurrent with ⟨target, htarget, hfact⟩
  simp only [debtDefects, List.isEmpty_iff, List.append_eq_nil_iff, ite_eq_right_iff,
    ite_eq_left_iff, reduceCtorEq, imp_false, not_not] at happlies
  refine ⟨context, target, hcontext, hmem.1, hkey, hkey ▸ htarget, ?_, not_le.mp happlies.1⟩
  rw [hfact, happlies.2]
  rfl

/-- A waiver item is valid when it names the selected tree and the current fact
    of a target of its kind, is in force, and was issued by an authorized
    issuer other than its owner for a waivable kind. -/
theorem waiverValid_spec {key : Digest} {item : WaiverItem}
    (h : (waiverValid policy targets instant)[key]? = some item) :
    ∃ context target, policy.waiver = some context ∧ item ∈ context.items ∧
      item.candidateTree = context.candidateTree ∧ item.findingKey = key ∧
      targets[key]? = some target ∧ target.kind.name = item.authorizedFactKind.name ∧
      target.factDigest = some item.authorizedFactDigest ∧
      item.notBefore ≤ instant ∧ instant < item.expiresAt ∧
      item.issuer ∈ context.authorizedIssuers ∧ item.owner ≠ item.issuer ∧
      item.authorizedFactKind ∈ context.waivableKinds := by
  unfold waiverValid at h
  split at h
  · rw [Std.ExtTreeMap.getElem?_empty] at h
    cases h
  rename_i context hcontext
  rcases of_getElem?_foldl_insert WaiverItem.findingKey id h with ⟨found, hmem, hkey, rfl⟩
  rw [List.mem_filter, WaiverContext.selected, List.mem_filter, decide_eq_true_eq] at hmem
  have happlies := hmem.2
  rw [waiverApplies, Bool.and_eq_true, Option.isSome_iff_exists] at happlies
  rcases happlies.2 with ⟨target, htarget⟩
  have hdefects := happlies.1
  simp only [waiverDefects, htarget, List.isEmpty_iff, List.append_eq_nil_iff,
    ite_eq_right_iff, ite_eq_left_iff, reduceCtorEq, imp_false, not_not] at hdefects
  rcases hdefects with ⟨⟨⟨⟨⟨hnotyet, hexpired⟩, hissuer⟩, hkind⟩, howner⟩, hkey', hfact⟩
  exact ⟨context, target, hcontext, hmem.1.1, hmem.1.2, hkey, hkey ▸ htarget, hkey', hfact,
    not_lt.mp hnotyet, not_le.mp hexpired, hissuer, howner, hkind⟩

end Exceptions

section Exceptions

variable {codec : Codec} {profile : Profile} {policy : Effects}

/-- Every valid exception names a finding that rests on a fact. -/
def Targeted {V : Type} (findings : List Finding) (valid : BTreeMap Digest V) : Prop :=
  ∀ (key : Digest) (item : V), valid[key]? = some item →
    ∃ target ∈ findings, target.candidateFact ≠ none ∧ target.findingKey = key

theorem targeted_empty {V : Type} (findings : List Finding) :
    Targeted findings (∅ : BTreeMap Digest V) := by
  intro key item h
  rw [Std.ExtTreeMap.getElem?_empty] at h
  cases h

variable {targets : BTreeMap Digest Finding} {instant : UtcInstant} {rows : List Finding}

theorem debtPass_rows (h : debtPass codec profile policy targets instant = .ok rows) :
    ∀ row ∈ rows, row.ControlRow codec profile := by
  intro row hrow
  unfold debtPass at h
  split at h
  · rw [Except.ok.injEq] at h
    cases (h ▸ hrow)
  simp only [bind_eq_ok, pure_eq_ok, Except.ok.injEq] at h
  rcases h with ⟨lists, hlists, rfl⟩
  rcases mem_flatten.mp hrow with ⟨list, hlist, hmem⟩
  rcases (mem_of_mapM hlists list).mp hlist with ⟨item, _, hitem⟩
  unfold debtFindings at hitem
  split at hitem
  · rw [Except.ok.injEq] at hitem
    cases (hitem ▸ hmem)
  · rcases (mem_of_mapM hitem row).mp hmem with ⟨_, _, hcontrol⟩
    exact controlRow_spec hcontrol

theorem waiverPass_rows (h : waiverPass codec profile policy targets instant = .ok rows) :
    ∀ row ∈ rows, row.ControlRow codec profile := by
  intro row hrow
  unfold waiverPass at h
  split at h
  · rw [Except.ok.injEq] at h
    cases (h ▸ hrow)
  simp only [bind_eq_ok, pure_eq_ok, Except.ok.injEq] at h
  rcases h with ⟨lists, hlists, rfl⟩
  rcases mem_flatten.mp hrow with ⟨list, hlist, hmem⟩
  rcases (mem_of_mapM hlists list).mp hlist with ⟨item, _, hitem⟩
  rcases (mem_of_mapM hitem row).mp hmem with ⟨_, _, hcontrol⟩
  exact controlRow_spec hcontrol

theorem applyValidException_empty (finding : Finding) :
    applyValidException policy ∅ ∅ finding = finding := by
  simp [applyValidException]

/-- Without an exception in force the findings are returned as they are; at a
    trusted instant they go through the valid items, and the overlaps are
    reported. -/
theorem applyExceptions_cases
    {findings applied defects : List Finding} {errors : List AnalysisErrorCode}
    (h : applyExceptions codec profile policy findings = .ok (applied, defects, errors)) :
    (policy.debt = none ∧ policy.waiver = none ∨ policy.time = none) ∧
        applied = findings ∧ defects = [] ∨
      ∃ instant, policy.time = some instant ∧
        applied = findings.map (applyValidException policy
          (debtValid policy (exceptionTargets findings) instant)
          (waiverValid policy (exceptionTargets findings) instant)) ∧
        (∀ row ∈ defects, row.ControlRow codec profile) ∧
        (findings.any (overlaps (debtValid policy (exceptionTargets findings) instant)
          (waiverValid policy (exceptionTargets findings) instant)) = true →
            .exceptionOverlap ∈ errors) := by
  unfold applyExceptions at h
  split at h
  · next hnone =>
    rw [Except.ok.injEq, Prod.mk.injEq, Prod.mk.injEq] at h
    exact Or.inl ⟨Or.inl hnone, h.1.symm, h.2.1.symm⟩
  · split at h
    · next htime =>
      rw [Except.ok.injEq, Prod.mk.injEq, Prod.mk.injEq] at h
      exact Or.inl ⟨Or.inr htime, h.1.symm, h.2.1.symm⟩
    · next instant htime =>
      simp only [bind_eq_ok, pure_eq_ok, Except.ok.injEq, Prod.mk.injEq] at h
      rcases h with ⟨debtRows, hdebts, waiverRows, hwaivers, rfl, rfl, rfl⟩
      refine Or.inr ⟨instant, htime, rfl, ?_, ?_⟩
      · intro row hrow
        rcases mem_append.mp hrow with h | h
        · exact debtPass_rows hdebts row h
        · exact waiverPass_rows hwaivers row h
      · intro hany
        rw [if_pos hany]
        exact mem_singleton_self _

/-- The exceptions of a run are applied to every finding by two maps of valid
    items, and their defects are rows of the control plane. -/
theorem applyExceptions_spec {findings applied defects : List Finding}
    {errors : List AnalysisErrorCode}
    (h : applyExceptions codec profile policy findings = .ok (applied, defects, errors)) :
    ∃ (debts : BTreeMap Digest DebtItem) (waivers : BTreeMap Digest WaiverItem),
      applied = findings.map (applyValidException policy debts waivers) ∧
      Targeted findings debts ∧ Targeted findings waivers ∧
      ∀ row ∈ defects, row.ControlRow codec profile := by
  rcases applyExceptions_cases h with ⟨_, rfl, rfl⟩ | ⟨instant, _, rfl, hdefects, _⟩
  · refine ⟨∅, ∅, ?_, targeted_empty _, targeted_empty _, fun row hrow => absurd hrow not_mem_nil⟩
    rw [show applyValidException policy ∅ ∅ = id from funext applyValidException_empty, map_id]
  · refine ⟨debtValid policy (exceptionTargets findings) instant,
      waiverValid policy (exceptionTargets findings) instant, rfl, ?_, ?_, hdefects⟩
    · intro key item hitem
      rcases debtValid_spec hitem with ⟨_, target, _, _, _, htarget, _⟩
      exact ⟨target, exceptionTargets_spec htarget⟩
    · intro key item hitem
      rcases waiverValid_spec hitem with ⟨_, target, _, _, _, _, htarget, _⟩
      exact ⟨target, exceptionTargets_spec htarget⟩

end Exceptions

section Run

variable {codec : Codec} {documents : List DocumentInput} {comparisons : List Comparison}
  {profile : Profile} {policy : Effects} {inputs : GovernedInputs} {findings : List Finding}
  {errors : List AnalysisErrorCode}

/-- A produced finding after the raises and the easing. -/
def leveled (policy : Effects) (profile : Profile) (finding : Finding) : Finding :=
  easeIntroduced profile (applyRaises policy finding)

/-- Every returned finding is a produced one after all passes, or a row of the
    control plane; and every produced one is returned. -/
theorem evaluateWithSite_spec
    (h : evaluateWithSite codec documents comparisons profile policy inputs =
      .ok (findings, errors)) :
    ∃ (built : List Finding) (debts : BTreeMap Digest DebtItem)
      (waivers : BTreeMap Digest WaiverItem),
      constructed codec documents comparisons profile inputs = .ok built ∧
      Targeted (built.map (leveled policy profile)) debts ∧
      Targeted (built.map (leveled policy profile)) waivers ∧
      (∀ source ∈ built,
        applyValidException policy debts waivers (leveled policy profile source) ∈ findings) ∧
      ∀ finding ∈ findings, finding.ControlRow codec profile ∨
        ∃ source ∈ built,
          finding = applyValidException policy debts waivers (leveled policy profile source) := by
  simp only [evaluateWithSite, bind_eq_ok, pure_eq_ok, Except.ok.injEq, Prod.mk.injEq] at h
  rcases h with ⟨built, hbuilt, ⟨applied, defects, codes⟩, hexceptions, controls, hcontrols,
    rfl, rfl⟩
  rw [map_map] at hexceptions
  rcases applyExceptions_spec hexceptions with
    ⟨debts, waivers, rfl, hdebts, hwaivers, hdefects⟩
  refine ⟨built, debts, waivers, hbuilt, hdebts, hwaivers, ?_, ?_⟩
  · intro source hsource
    rw [mem_sortBy]
    refine mem_append_left _ (mem_append_left _ ?_)
    exact mem_map_of_mem (mem_map_of_mem hsource)
  · intro finding hfinding
    rw [mem_sortBy] at hfinding
    rcases mem_append.mp hfinding with hfinding | hcontrol
    · rcases mem_append.mp hfinding with hfinding | hdefect
      · rcases mem_map.mp hfinding with ⟨stage, hstage, rfl⟩
        rcases mem_map.mp hstage with ⟨source, hsource, rfl⟩
        exact Or.inr ⟨source, hsource, rfl⟩
      · exact Or.inl (hdefects finding hdefect)
    · rcases (mem_of_mapM hcontrols finding).mp hcontrol with ⟨seed, _, hrow⟩
      exact Or.inl (controlRow_spec hrow)

variable (policy) in
theorem leveled_traced {finding : Finding} (h : finding.Fresh codec profile) :
    (leveled policy profile finding).Traced :=
  traced_easeIntroduced profile (level_applyRaises policy h.level).traced

variable (policy profile) in
theorem leveled_sameSubject (finding : Finding) :
    finding.SameSubject (leveled policy profile finding) :=
  (applyRaises_sameSubject policy finding).trans (easeIntroduced_eased profile _).subject

variable (policy) in
theorem leveled_noDebt {finding : Finding} (h : finding.Fresh codec profile) :
    ∀ step ∈ (leveled policy profile finding).steps, step.source ≠ .debtSnapshot := by
  have hraised : ∀ step ∈ (applyRaises policy finding).steps, step.source ≠ .debtSnapshot := by
    intro step hstep hsource
    have hlow := (level_applyRaises policy h.level).unlowered step hstep
    simp only [PolicyStep.lowers, hsource, beq_self_eq_true, Bool.or_true, Bool.true_or,
      reduceCtorEq] at hlow
  unfold leveled easeIntroduced
  split
  · intro step hstep
    rcases mem_append.mp hstep with hold | hnew
    · exact hraised step hold
    · rw [mem_singleton] at hnew
      rw [hnew]
      exact PolicySource.noConfusion
  · exact hraised

theorem warn_le_builtIn {kind : FindingKind} (h : kind.IsStructural ∨ kind.HasFact)
    (profile : Profile) : Disposition.warn ≤ kind.builtInDisposition profile := by
  cases kind <;> cases profile <;> first | decide | exact absurd h (by decide)

theorem warn_le_leveled {finding : Finding}
    (hproduced : Produced codec documents comparisons profile inputs finding)
    (hfact : finding.candidateFact ≠ none) :
    Disposition.warn ≤ (leveled policy profile finding).effectiveDisposition := by
  have hfresh := hproduced.standing.1
  have hbuilt : Disposition.warn ≤ finding.configuredDisposition := by
    rw [hfresh.configured]
    rcases hproduced.standing.2 with ⟨hplain, _⟩ | hproven | ⟨hstructural, hgroup⟩
    · exact absurd hplain.factless hfact
    · rw [structuralStep, if_neg (by rw [hproven.attributed]; decide)]
      exact warn_le_builtIn (Or.inr hproven.ofKind) profile
    · rw [structuralStep, if_neg (fun hresolved => hfact (hgroup.spec.1.mpr hresolved))]
      exact warn_le_builtIn (Or.inl hstructural) profile
  have hraised := hbuilt.trans (configured_le_applyRaises policy hfresh.level)
  rw [← (level_applyRaises policy hfresh.level).agrees] at hraised
  unfold leveled easeIntroduced
  split
  · exact le_refl _
  · exact hraised

/-- A finding that is nowhere above record. -/
structure Finding.AtRecord (finding : Finding) : Prop where
  configured : finding.configuredDisposition = .record
  effective : finding.effectiveDisposition = .record
  steps : ∀ step ∈ finding.steps, step.after = .record

theorem Finding.Fresh.atRecord {finding : Finding} (h : finding.Fresh codec profile)
    (hresolved : finding.attribution = .resolved) : finding.AtRecord := by
  have hstep : (structuralStep finding.kind finding.attribution profile).after = .record := by
    rw [structuralStep, if_pos hresolved]
  refine ⟨h.configured.trans hstep, h.effective.trans (h.configured.trans hstep), ?_⟩
  intro step hmem
  rw [h.steps, mem_singleton] at hmem
  rw [hmem, hstep]

section Passes

variable {built : List Finding} {debts : BTreeMap Digest DebtItem}
  {waivers : BTreeMap Digest WaiverItem} {source : Finding}

variable (hfree : codec.CollisionFree)
  (hbuilt : constructed codec documents comparisons profile inputs = .ok built)
  (hsource : source ∈ built)

include hfree hbuilt hsource

/-- The target of a valid exception and every finding with its key rest on a
    fact alike. -/
theorem candidateFact_of_targeted {V : Type} {valid : BTreeMap Digest V}
    (htargeted : Targeted (built.map (leveled policy profile)) valid) {item : V}
    (hitem : valid[(leveled policy profile source).findingKey]? = some item) :
    source.candidateFact ≠ none := by
  rcases htargeted _ item hitem with ⟨stage, hstage, hfact, hkey⟩
  rcases mem_map.mp hstage with ⟨target, htarget, rfl⟩
  have hsubject := leveled_sameSubject profile policy target
  have hsubject' := leveled_sameSubject profile policy source
  rw [hsubject.findingKey, hsubject'.findingKey] at hkey
  rw [hsubject.candidateFact] at hfact
  have hproduced := (mem_constructed hbuilt source).mp hsource
  have htproduced := (mem_constructed hbuilt target).mp htarget
  have hinput : source.keyInput = target.keyInput :=
    hfree _ _ _ hproduced.standing.1.keyed (hkey ▸ htproduced.standing.1.keyed)
  exact fun hnone => hfact ((hproduced.candidateFact_iff htproduced hinput).mp hnone)

/-- A debt step starts where the leveled trace ends, at warn or above. -/
theorem debtStep_after_le (hdebts : Targeted (built.map (leveled policy profile)) debts)
    {step : PolicyStep} (hstep : step ∈
      (applyValidException policy debts waivers (leveled policy profile source)).steps)
    (hdebt : step.source = .debtSnapshot) : step.after ≤ step.before := by
  have hproduced := (mem_constructed hbuilt source).mp hsource
  have hfresh := hproduced.standing.1
  have hnodebt := leveled_noDebt policy hfresh
  rcases applyValidException_cases policy debts waivers (leveled policy profile source) with
    ⟨context, item, _, hitem, heq⟩ | ⟨context, item, _, _, heq⟩ | heq <;> rw [heq] at hstep
  · rcases mem_append.mp hstep with hold | hnew
    · exact absurd hdebt (hnodebt step hold)
    rw [mem_singleton] at hnew
    rw [hnew]
    simp only [(leveled_traced policy hfresh).current_eq]
    exact warn_le_leveled hproduced
      (candidateFact_of_targeted hfree hbuilt hsource hdebts hitem)
  · unfold applyWaiver at hstep
    split at hstep
    · rcases mem_append.mp hstep with hold | hnew
      · exact absurd hdebt (hnodebt step hold)
      · rw [mem_singleton] at hnew
        rw [hnew] at hdebt
        cases hdebt
    · exact absurd hdebt (hnodebt step hstep)
  · exact absurd hdebt (hnodebt step hstep)

/-- A resolved finding has lost its candidate fact, so no pass touches it. -/
theorem resolved_untouched (hdebts : Targeted (built.map (leveled policy profile)) debts)
    (hwaivers : Targeted (built.map (leveled policy profile)) waivers)
    (hresolved : source.attribution = .resolved) :
    applyValidException policy debts waivers (leveled policy profile source) = source := by
  have hnone : source.candidateFact = none := by
    rcases ((mem_constructed hbuilt source).mp hsource).standing.2 with
      ⟨hplain, _⟩ | hproven | ⟨_, hgroup⟩
    · exact hplain.factless
    · rw [hproven.attributed] at hresolved
      exact absurd hresolved (by decide)
    · exact hgroup.spec.1.mpr hresolved
  have hleveled : leveled policy profile source = source := by
    rw [leveled, applyRaises_skip policy (Or.inl hresolved), easeIntroduced,
      if_neg (fun hcond => by rw [hresolved] at hcond; exact absurd hcond.2.2 (by decide))]
  rcases applyValidException_cases policy debts waivers (leveled policy profile source) with
    ⟨_, item, _, hitem, _⟩ | ⟨_, item, _, hitem, _⟩ | heq
  · exact absurd hnone (candidateFact_of_targeted hfree hbuilt hsource hdebts hitem)
  · exact absurd hnone (candidateFact_of_targeted hfree hbuilt hsource hwaivers hitem)
  · rw [heq, hleveled]

end Passes

/-- The trace of every returned finding agrees with its dispositions, and its
    steps are lawful. With a collision-free key digest, no debt step raises and
    no resolved finding is above record. -/
theorem evaluateWithSite_policyTraces
    (h : evaluateWithSite codec documents comparisons profile policy inputs =
      .ok (findings, errors)) :
    (∀ finding ∈ findings, finding.Traced) ∧
      (codec.CollisionFree → ∀ finding ∈ findings,
        (∀ step ∈ finding.steps, step.source = .debtSnapshot → step.after ≤ step.before) ∧
        (finding.attribution = .resolved → finding.AtRecord)) := by
  rcases evaluateWithSite_spec h with ⟨built, debts, waivers, hbuilt, hdebts, hwaivers, _, hall⟩
  have hfresh : ∀ source ∈ built, source.Fresh codec profile := fun source hsource =>
    ((mem_constructed hbuilt source).mp hsource).standing.1
  refine ⟨fun finding hfinding => ?_, fun hfree finding hfinding => ?_⟩
  · rcases hall finding hfinding with hrow | ⟨source, hsource, rfl⟩
    · exact hrow.fresh.level.traced
    · exact traced_applyValidException policy debts waivers
        (leveled_traced policy (hfresh source hsource))
  · rcases hall finding hfinding with hrow | ⟨source, hsource, rfl⟩
    · -- The one step of a control row is the built-in one.
      refine ⟨fun step hstep hdebt => ?_, fun hresolved => hrow.fresh.atRecord hresolved⟩
      have hlow := hrow.fresh.level.unlowered step hstep
      simp only [PolicyStep.lowers, hdebt, beq_self_eq_true, Bool.or_true, Bool.true_or,
        reduceCtorEq] at hlow
    · refine ⟨fun step hstep hdebt => debtStep_after_le hfree hbuilt hsource hdebts hstep hdebt,
        fun hresolved => ?_⟩
      have hsubject := (leveled_sameSubject profile policy source).trans
        (applyValidException_eased policy debts waivers _).subject
      rw [hsubject.attribution] at hresolved
      rw [resolved_untouched hfree hbuilt hsource hdebts hwaivers hresolved]
      exact (hfresh source hsource).atRecord hresolved

/-- A candidate reference with a given resolution. -/
def sampleOccurrence (resolution : Resolution RepoPath) : Observation where
  id := ⟨1⟩
  document := ⟨[97], pathBytesValid_a⟩
  span := (0, 1)
  display := ⟨1, 1, 1, 2⟩
  adapter := .markdown
  construct := .inlineLink
  intent := ⟨.repositoryPath, none, some ⟨[98], pathBytesValid_b⟩, some .blob, none, none, none⟩
  rawDestination := "b"
  rawDestinationDigest := ⟨0⟩
  projectionDigest := ⟨0⟩
  resolution := resolution
  fragmentSpan := none
  pathSpan := none

/-- The row of a candidate reference that is new. -/
def sampleComparison (resolution : Resolution RepoPath) : Comparison where
  outcome := .none
  reason := .newObservation
  sourceChange := .added
  base := none
  candidate := some (sampleOccurrence resolution)
  alternativesBase := []
  alternativesCandidate := []
  targetChange := .notComparable
  impact := .newObservation

/-- A path that no tree holds. -/
def sampleMissing : Resolution RepoPath :=
  .missing (.pathNotFound ⟨[98], pathBytesValid_b⟩ none none)

/-- A codec that can spell one key and every fact. -/
def codecOf (key : KeyInput) : Codec where
  sha256 := fun bytes => ⟨bytes.length⟩
  keyText := fun other => if other = key then some [] else none
  factText := fun _ => some []
  rewrite := fun _ _ _ _ _ => none

theorem codecOf_collisionFree (key : KeyInput) : (codecOf key).CollisionFree := by
  have hspells : ∀ other digest, keyDigest (codecOf key) other = .ok digest → other = key := by
    intro other digest h
    rw [keyDigest, okOrInternal_eq_ok, Option.map_eq_some_iff] at h
    rcases h with ⟨text, htext, _⟩
    by_contra hne
    simp only [codecOf, if_neg hne, reduceCtorEq] at htext
  intro left right digest hleft hright
  rw [hspells left digest hleft, hspells right digest hright]

def noInputs : GovernedInputs := ⟨SiteEvaluation.default, [], [], [], []⟩

/-- The key of the missing sample. -/
def sampleMissingKey : KeyInput :=
  ⟨.explicitTargetMissing, .reference ⟨[97], pathBytesValid_a⟩
    ⟨none, none, .path ⟨[98], pathBytesValid_b⟩, none, .blob⟩ ⟨0⟩ .inlineLink⟩

/-- A debt item that accepts the missing sample's fact. -/
def sampleDebt : Effects :=
  { Effects.default with
    debt := some
      { digest := ⟨0⟩
        adoptionTree :=
          ⟨.sha1, ⟨.sha1, "0000000000000000000000000000000000000000", by decide⟩⟩
        items := [
          { debtId := ⟨"d"⟩
            findingKey := ⟨26⟩
            acceptedFactDigest := ⟨19⟩
            owner := ⟨"o"⟩
            reason := "r"
            createdAt := ⟨"2026-01-01T00:00:00Z"⟩
            expiresAt := ⟨"2027-01-01T00:00:00Z"⟩ }] }
    time := some ⟨"2026-06-01T00:00:00Z"⟩ }

/-- An accepted missing reference: the built-in step fails it, the debt step
    lowers it. -/
theorem evaluateWithSite_policyTraces_sample :
    ∃ findings errors, evaluateWithSite (codecOf sampleMissingKey) []
        [sampleComparison sampleMissing] .enforce sampleDebt noInputs = .ok (findings, errors) ∧
      findings.map (fun finding => finding.steps.map (fun step => (step.before, step.after))) =
        [[(.record, .fail), (.fail, .warn)]] ∧
      (∀ finding ∈ findings, finding.Traced) ∧
      ∀ finding ∈ findings,
        (∀ step ∈ finding.steps, step.source = .debtSnapshot → step.after ≤ step.before) ∧
        (finding.attribution = .resolved → finding.AtRecord) := by
  have hsteps : (evaluateWithSite (codecOf sampleMissingKey) []
      [sampleComparison sampleMissing] .enforce sampleDebt noInputs).toOption.map (fun result =>
        result.1.map (fun finding => finding.steps.map (fun step => (step.before, step.after)))) =
      some [[(.record, .fail), (.fail, .warn)]] := by
    decide
  rcases toOption_map_eq_some.mp hsteps with ⟨⟨findings, errors⟩, hrun, htaken⟩
  have htraces := evaluateWithSite_policyTraces hrun
  exact ⟨findings, errors, hrun, htaken, htraces.1,
    htraces.2 (codecOf_collisionFree sampleMissingKey)⟩

/-- A finding of a candidate-side occurrence: it is reported there, and it
    names an occurrence of the candidate. -/
def Finding.OfCandidate (comparisons : List Comparison) (finding : Finding) : Prop :=
  finding.location.side = .candidate ∧
    ∃ observation ∈ candidateObservations comparisons, observation.id ∈ finding.observationIds

/-- A minimum the repository policy or the organization floor declares. -/
def DeclaredMinimum (policy : Effects) (kind : FindingKind) (minimum : Disposition) : Prop :=
  (kind, minimum) ∈ policy.raised.rows ∨ (kind, minimum) ∈ policy.floorRaised.rows

instance (policy : Effects) (kind : FindingKind) (minimum : Disposition) :
    Decidable (DeclaredMinimum policy kind minimum) := inferInstanceAs (Decidable (_ ∨ _))

/-- Every finding of a candidate-side occurrence is configured at every minimum
    declared for its kind, and so at the largest. -/
def RespectsMinimums (policy : Effects) (comparisons : List Comparison)
    (findings : List Finding) : Prop :=
  ∀ finding ∈ findings, finding.OfCandidate comparisons → ∀ minimum,
    DeclaredMinimum policy finding.kind minimum → minimum ≤ finding.configuredDisposition

/-- Only the kinds that can be promoted have a declared minimum. -/
theorem DeclaredMinimum.kind {kind : FindingKind} {minimum : Disposition}
    (h : DeclaredMinimum policy kind minimum) : kind.IsStructural ∨ kind = .invalidReference := by
  have hpromotable : ∃ promotable : PromotableFindingKind, kind = promotable.kind := by
    rcases h with h | h
    · exact policy.raised.promotable _ h
    · exact policy.floorRaised.promotable _ h
  rcases hpromotable with ⟨promotable, rfl⟩
  cases promotable
  · exact Or.inl (Or.inl rfl)
  · exact Or.inl (Or.inr rfl)
  · exact Or.inr rfl

/-- A plain finding is configured where the built-in table puts it. -/
theorem Finding.Plain.configured_leveled {finding : Finding} (hplain : finding.Plain)
    (hfresh : finding.Fresh codec profile) :
    (leveled policy profile finding).configuredDisposition =
      finding.kind.builtInDisposition profile := by
  rw [leveled, (easeIntroduced_eased profile _).configured,
    applyRaises_skip policy (Or.inr hplain.factless), hfresh.configured, structuralStep,
    if_neg hplain.unresolved]
  rfl

/-- Candidate occurrences stand at their declared minimums except for invalid
    references under the observe profile: their findings carry no candidate
    fact, so the raises pass them over, and a minimum of fail is not met. -/
theorem evaluateWithSite_respectsMinimums_iff
    (h : evaluateWithSite codec documents comparisons profile policy inputs =
      .ok (findings, errors)) :
    RespectsMinimums policy comparisons findings ↔
      ¬ (profile = .observe ∧ DeclaredMinimum policy .invalidReference .fail ∧
        ∃ observation ∈ candidateObservations comparisons,
          observation.resolution.isInvalid = true) := by
  rcases evaluateWithSite_spec h with ⟨built, debts, waivers, hbuilt, _, _, hin, hall⟩
  constructor
  · -- The finding of an invalid occurrence is returned at the built-in warn.
    rintro hrespects ⟨rfl, hminimum, observation, hobservation, hinvalid⟩
    rcases produced_of_invalid hbuilt hobservation hinvalid with
      ⟨source, hsource, hkind, hfact, hfresh, hattribution, hids, hside⟩
    have hplain : source.Plain := ⟨hfact, hattribution, by rw [hkind]; decide,
      by rw [hkind]; decide⟩
    have heased := applyValidException_eased policy debts waivers
      (leveled policy .observe source)
    have hsubject := (leveled_sameSubject .observe policy source).trans
      heased.subject
    have hle := hrespects _ (hin source hsource)
      ⟨by rw [hsubject.location, hside], observation, hobservation,
        by rw [hsubject.observationIds, hids]; exact mem_singleton_self _⟩ .fail
      (by rw [hsubject.kind, hkind]; exact hminimum)
    rw [heased.configured, hplain.configured_leveled hfresh, hkind] at hle
    exact absurd hle (by decide)
  · intro hcondition finding hfinding hcandidate minimum hminimum
    rcases hall finding hfinding with hrow | ⟨source, hsource, rfl⟩
    · exact absurd hcandidate.1 hrow.side
    have heased := applyValidException_eased policy debts waivers
      (leveled policy profile source)
    have hsubject := (leveled_sameSubject profile policy source).trans
      heased.subject
    have hstanding := ((mem_constructed hbuilt source).mp hsource).standing
    rw [hsubject.kind] at hminimum
    rw [heased.configured]
    rcases hstanding.2 with ⟨hplain, horigin⟩ | hproven | ⟨_, hgroup⟩
    · -- Only invalid references are plain and can have a minimum.
      have hkind : source.kind = .invalidReference :=
        hminimum.kind.resolve_left hplain.notStructural
      rw [hplain.configured_leveled hstanding.1, hkind]
      rw [hkind] at hminimum
      cases profile with
      | observe =>
        have hnotfail : minimum ≠ .fail := fun hfail =>
          hcondition ⟨rfl, hfail ▸ hminimum, horigin hkind⟩
        cases minimum
        · decide
        · decide
        · exact absurd rfl hnotfail
      | enforceIntroduced => cases minimum <;> decide
      | enforce => cases minimum <;> decide
    · rcases hcandidate.2 with ⟨observation, _, hid⟩
      rw [hsubject.observationIds, hproven.noIds] at hid
      cases hid
    · -- A structural finding of the candidate side has its fact and is raised.
      have hside := hcandidate.1
      rw [hsubject.location] at hside
      have hfact := hgroup.spec.2.mp hside
      have hraised : ¬ (source.attribution = .resolved ∨ source.candidateFact = none) := by
        rintro (hresolved | hnone)
        · exact hfact (hgroup.spec.1.mpr hresolved)
        · exact hfact hnone
      rw [leveled, (easeIntroduced_eased profile _).configured]
      exact minimum_le_applyRaises policy hraised hminimum

/-- The key of the invalid sample's finding. -/
def sampleInvalidKey : KeyInput := ⟨.invalidReference, .observation ⟨1⟩⟩

/-- A repository policy that raises invalid references to fail. -/
def samplePolicy : Effects :=
  { Effects.default with
    raised := dispositionRows ⟨[⟨.invalidReference, .fail⟩], pairwise_singleton _ _⟩ }

/-- Under the observe profile the policy's minimum of fail is not met: the new
    invalid reference is configured to warn. -/
theorem evaluateWithSite_minimum_unmet :
    ∃ findings errors, evaluateWithSite (codecOf sampleInvalidKey) []
        [sampleComparison (.invalid .backslashSeparator)] .observe samplePolicy noInputs =
          .ok (findings, errors) ∧
      findings.map (fun finding => (finding.kind, finding.configuredDisposition)) =
        [(.invalidReference, .warn)] ∧
      DeclaredMinimum samplePolicy .invalidReference .fail ∧
      ¬ RespectsMinimums samplePolicy [sampleComparison (.invalid .backslashSeparator)]
        findings := by
  have hkinds : (evaluateWithSite (codecOf sampleInvalidKey) []
      [sampleComparison (.invalid .backslashSeparator)] .observe samplePolicy
      noInputs).toOption.map (fun result => result.1.map (fun finding =>
        (finding.kind, finding.configuredDisposition, finding.location.side,
          finding.observationIds))) =
      some [(.invalidReference, .warn, .candidate, [⟨1⟩])] := by
    decide
  rcases toOption_map_eq_some.mp hkinds with ⟨⟨findings, errors⟩, hrun, hlist⟩
  rcases map_eq_cons_iff.mp hlist with ⟨finding, rest, rfl, hfinding, hrest⟩
  cases map_eq_nil_iff.mp hrest
  simp only [Prod.mk.injEq] at hfinding
  rcases hfinding with ⟨hkind, hconfigured, hside, hids⟩
  refine ⟨[finding], errors, hrun, ?_, by decide, fun hrespects => ?_⟩
  · rw [map_singleton, hkind, hconfigured]
  have hle := hrespects finding mem_cons_self
    ⟨hside, sampleOccurrence (.invalid .backslashSeparator), by decide, by rw [hids]; decide⟩ .fail
    (by rw [hkind]; decide)
  rw [hconfigured] at hle
  exact absurd hle (by decide)

/-- Under the enforce profile the same policy is respected. -/
theorem evaluateWithSite_respectsMinimums_iff_sample :
    ∃ findings errors, evaluateWithSite (codecOf sampleInvalidKey) []
        [sampleComparison (.invalid .backslashSeparator)] .enforce samplePolicy noInputs =
          .ok (findings, errors) ∧ findings ≠ [] ∧
      RespectsMinimums samplePolicy [sampleComparison (.invalid .backslashSeparator)]
        findings := by
  have hkinds : (evaluateWithSite (codecOf sampleInvalidKey) []
      [sampleComparison (.invalid .backslashSeparator)] .enforce samplePolicy
      noInputs).toOption.map (fun result => result.1.map Finding.kind) =
      some [.invalidReference] := by
    decide
  rcases toOption_map_eq_some.mp hkinds with ⟨⟨findings, errors⟩, hrun, hlist⟩
  refine ⟨findings, errors, hrun, ?_,
    (evaluateWithSite_respectsMinimums_iff hrun).mpr (fun hcondition => ?_)⟩
  · rintro rfl
    cases hlist
  · exact absurd hcondition.1 (by decide)

end Run

end Amiss
