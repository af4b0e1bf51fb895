import Amiss.Core.Evaluate

/-!
# Policy Traces

What the passes of an evaluation do to a policy trace, one finding at a time.

The trace and the two disposition fields are written by separate passes, so
their agreement is an invariant and not a definition. `IsTrace` says that a list
of steps starts at record, is linked, ends where it should and has only lawful
steps; it is closed under appending a lawful step that starts where the trace
ends, and every pass does nothing else.

A step *lowers* when it is an enforce-introduced, debt or waiver step. The
configured disposition is what the trace had reached before the first such
step, and appending one does not move it. Before any was taken the finding is
`Level`, and its two dispositions agree.

## Main definitions

* `PolicyStep.eases`, `PolicyStep.lowers`: The steps that come after the
  configured disposition is fixed.
* `PolicyStep.Lawful`: What each kind of step may do.
* `IsTrace`: A linked trace of lawful steps.
* `Finding.Traced`: The trace of a finding agrees with its dispositions.
* `Finding.Level`: A traced finding no step has lowered.

## Theorems

* `IsTrace.append`: Appending a lawful step.
* `level_applyRaises`: Raising keeps a finding level.
* `Finding.Traced.lower`: Appending a lowering step keeps a finding traced.
* `minimum_le_applyRaises`: A raised finding is at every declared minimum.
-/

namespace Amiss

open Option

/-- The step of the introduced-only profile. -/
def PolicyStep.eases (kind : FindingKind) (step : PolicyStep) : Bool :=
  step.source == .builtIn && step.ruleId == enforceIntroducedRule kind

/-- An enforce-introduced, debt or waiver step. -/
def PolicyStep.lowers (kind : FindingKind) (step : PolicyStep) : Bool :=
  step.eases kind || step.source == .debtSnapshot || step.source == .waiverBundle

/-- A raise-only step. -/
def PolicyStep.raises (step : PolicyStep) : Bool :=
  step.source == .repositoryPolicy || step.source == .organizationFloor

/-- What each kind of step may do. -/
structure PolicyStep.Lawful (kind : FindingKind) (step : PolicyStep) : Prop where
  raise : step.raises = true → step.before < step.after
  ease : step.eases kind = true ∨ step.source = .waiverBundle →
    step.before = .fail ∧ step.after = .warn
  debt : step.source = .debtSnapshot → step.after = .warn

/-- A trace that starts at record, is linked, and has reached `reached` by
    lawful steps. -/
structure IsTrace (kind : FindingKind) (steps : List PolicyStep) (reached : Disposition) :
    Prop where
  starts : steps.head?.map PolicyStep.before = some .record
  linked : steps.IsChain (fun step next => next.before = step.after)
  reaches : steps.getLast?.map PolicyStep.after = some reached
  lawful : ∀ step ∈ steps, step.Lawful kind

variable {step : PolicyStep}

theorem IsTrace.single {kind : FindingKind} (hbefore : step.before = .record)
    (hlawful : step.Lawful kind) : IsTrace kind [step] step.after where
  starts := by rw [List.head?_cons, Option.map_some, hbefore]
  linked := List.isChain_singleton step
  reaches := by rw [List.getLast?_singleton, Option.map_some]
  lawful := by
    intro other hother
    rw [List.mem_singleton] at hother
    exact hother ▸ hlawful

/-- A trace grows by a lawful step that starts where it ends. -/
theorem IsTrace.append {kind : FindingKind} {steps : List PolicyStep} {reached : Disposition}
    (htrace : IsTrace kind steps reached) {step : PolicyStep} (hbefore : step.before = reached)
    (hlawful : step.Lawful kind) : IsTrace kind (steps ++ [step]) step.after where
  starts := by
    rw [List.head?_append]
    cases hhead : steps.head? with
    | none =>
      have hstarts := htrace.starts
      rw [hhead] at hstarts
      cases hstarts
    | some first =>
      have hstarts := htrace.starts
      rw [hhead] at hstarts
      exact hstarts
  linked := by
    rw [List.isChain_append]
    refine ⟨htrace.linked, List.isChain_singleton step, ?_⟩
    -- The last step so far ends where the trace does.
    intro last hlast next hnext
    have hreaches := htrace.reaches
    rw [mem_def.mp hlast, map_some, some.injEq] at hreaches
    rw [List.head?_cons, mem_some_iff] at hnext
    rw [← hnext, hbefore, hreaches]
  reaches := by rw [List.getLast?_concat, map_some]
  lawful := by
    intro other hother
    rcases List.mem_append.mp hother with h | h
    · exact htrace.lawful other h
    · rw [List.mem_singleton] at h
      exact h ▸ hlawful

/-- A lowering step does not change what came before the first one. -/
theorem takeWhile_append_lowering (kind : FindingKind) (steps : List PolicyStep)
    (hlowers : step.lowers kind = true) :
    (steps ++ [step]).takeWhile (fun step => !step.lowers kind) =
      steps.takeWhile (fun step => !step.lowers kind) := by
  induction steps with
  | nil => simp [hlowers]
  | cons first steps ih => rw [List.cons_append, List.takeWhile_cons, List.takeWhile_cons, ih]

/-- The trace of a finding agrees with its two dispositions. -/
structure Finding.Traced (finding : Finding) : Prop where
  trace : IsTrace finding.kind finding.steps finding.effectiveDisposition
  configured :
    (finding.steps.takeWhile (fun step => !step.lowers finding.kind)).getLast?.map
      PolicyStep.after = some finding.configuredDisposition

/-- A traced finding no step has lowered: both dispositions are the one its
    trace has reached. -/
structure Finding.Level (finding : Finding) : Prop where
  trace : IsTrace finding.kind finding.steps finding.configuredDisposition
  unlowered : ∀ step ∈ finding.steps, step.lowers finding.kind = false
  agrees : finding.effectiveDisposition = finding.configuredDisposition

variable {finding : Finding}

theorem Finding.current_eq_of_reaches {reached : Disposition}
    (h : finding.steps.getLast?.map PolicyStep.after = some reached) :
    finding.current = reached := by
  unfold Finding.current
  rcases map_eq_some_iff.mp h with ⟨step, hstep, hafter⟩
  rw [hstep]
  exact hafter

theorem Finding.Traced.current_eq (h : finding.Traced) :
    finding.current = finding.effectiveDisposition :=
  Finding.current_eq_of_reaches h.trace.reaches

theorem Finding.Level.traced (h : finding.Level) : finding.Traced where
  trace := h.agrees ▸ h.trace
  configured := by
    have hall : ∀ step ∈ finding.steps, (!step.lowers finding.kind) = true := by
      intro step hstep
      rw [h.unlowered step hstep, Bool.not_false]
    rw [List.takeWhile_eq_self_iff.mpr hall]
    exact h.trace.reaches

/-- Appending a lowering step keeps a finding traced. Whatever else the pass
    records in the finding is not part of its trace. -/
theorem Finding.Traced.lower {lowered : Finding} (h : finding.Traced)
    (hkind : lowered.kind = finding.kind) (hsteps : lowered.steps = finding.steps ++ [step])
    (hconfigured : lowered.configuredDisposition = finding.configuredDisposition)
    (heffective : lowered.effectiveDisposition = step.after)
    (hbefore : step.before = finding.effectiveDisposition)
    (hlowers : step.lowers finding.kind = true) (hlawful : step.Lawful finding.kind) :
    lowered.Traced where
  trace := by
    rw [hkind, hsteps, heffective]
    exact h.trace.append hbefore hlawful
  configured := by
    rw [hkind, hsteps, hconfigured, takeWhile_append_lowering finding.kind _ hlowers]
    exact h.configured

/-- Two stages of one finding: what it is about has not changed. -/
structure Finding.SameSubject (finding stage : Finding) : Prop where
  keyInput : stage.keyInput = finding.keyInput
  findingKey : stage.findingKey = finding.findingKey
  attribution : stage.attribution = finding.attribution
  candidateFact : stage.candidateFact = finding.candidateFact
  observationIds : stage.observationIds = finding.observationIds
  location : stage.location = finding.location

theorem Finding.SameSubject.refl (finding : Finding) : finding.SameSubject finding :=
  ⟨rfl, rfl, rfl, rfl, rfl, rfl⟩

theorem Finding.SameSubject.trans {stage later : Finding} (h : finding.SameSubject stage)
    (h' : stage.SameSubject later) : finding.SameSubject later :=
  ⟨h'.keyInput.trans h.keyInput, h'.findingKey.trans h.findingKey,
    h'.attribution.trans h.attribution, h'.candidateFact.trans h.candidateFact,
    h'.observationIds.trans h.observationIds, h'.location.trans h.location⟩

theorem Finding.SameSubject.kind {stage : Finding} (h : finding.SameSubject stage) :
    stage.kind = finding.kind := by
  unfold Finding.kind
  rw [h.keyInput]

/-- A trace no step has lowered, wherever the disposition fields stand. -/
structure Finding.Rising (finding : Finding) : Prop where
  trace : IsTrace finding.kind finding.steps finding.current
  unlowered : ∀ step ∈ finding.steps, step.lowers finding.kind = false

theorem Finding.Level.rising (h : finding.Level) : finding.Rising where
  trace := by
    rw [Finding.current_eq_of_reaches h.trace.reaches]
    exact h.trace
  unlowered := h.unlowered

/-- Fixing the dispositions at the end of a rising trace levels a finding. -/
theorem Finding.Rising.level (h : finding.Rising) : ({ finding with
      configuredDisposition := finding.current
      effectiveDisposition := finding.current } : Finding).Level :=
  ⟨h.trace, h.unlowered, rfl⟩

section Raise

variable (table : RaiseTable) (source : PolicySource) (label : String) (finding : Finding)

theorem applyRaise_of_lt {target : Disposition} (hrow : (finding.kind, target) ∈ table.rows)
    (hlt : finding.current < target) :
    applyRaise table source label finding = { finding with steps := finding.steps ++
      [⟨source, label ++ "/" ++ finding.kind.name, finding.current, target⟩] } := by
  unfold applyRaise
  rw [(RaiseTable.minimum_eq_some_iff table finding.kind target).mpr hrow]
  simp only [if_pos hlt]

theorem applyRaise_of_not_lt
    (h : ∀ target, (finding.kind, target) ∈ table.rows → ¬ finding.current < target) :
    applyRaise table source label finding = finding := by
  unfold applyRaise
  cases hminimum : table.minimum finding.kind with
  | none => rfl
  | some target =>
    rw [RaiseTable.minimum_eq_some_iff] at hminimum
    simp only [if_neg (h target hminimum)]

/-- A raise applies with a row of its kind, or it does nothing. -/
theorem applyRaise_cases :
    (∃ target, (finding.kind, target) ∈ table.rows ∧ finding.current < target ∧
      applyRaise table source label finding = { finding with steps := finding.steps ++
        [⟨source, label ++ "/" ++ finding.kind.name, finding.current, target⟩] } ∧
      (applyRaise table source label finding).current = target) ∨
    (∀ target, (finding.kind, target) ∈ table.rows → target ≤ finding.current) ∧
      applyRaise table source label finding = finding := by
  by_cases h : ∃ target, (finding.kind, target) ∈ table.rows ∧ finding.current < target
  · rcases h with ⟨target, hrow, hlt⟩
    refine Or.inl ⟨target, hrow, hlt, applyRaise_of_lt table source label finding hrow hlt, ?_⟩
    rw [applyRaise_of_lt table source label finding hrow hlt]
    refine Finding.current_eq_of_reaches ?_
    rw [List.getLast?_concat, map_some]
  · simp only [not_exists, not_and, not_lt] at h
    exact Or.inr ⟨h, applyRaise_of_not_lt table source label finding
      (fun target hrow => not_lt.mpr (h target hrow))⟩

theorem applyRaise_sameSubject : finding.SameSubject (applyRaise table source label finding) := by
  rcases applyRaise_cases table source label finding with ⟨_, _, _, heq, _⟩ | ⟨_, heq⟩ <;>
    rw [heq] <;> exact ⟨rfl, rfl, rfl, rfl, rfl, rfl⟩

theorem current_le_applyRaise :
    finding.current ≤ (applyRaise table source label finding).current := by
  rcases applyRaise_cases table source label finding with ⟨_, _, hlt, _, hcur⟩ | ⟨_, heq⟩
  · rw [hcur]
    exact le_of_lt hlt
  · rw [heq]

/-- A raise reaches every minimum its table declares for the kind. -/
theorem minimum_le_applyRaise {minimum : Disposition}
    (hrow : (finding.kind, minimum) ∈ table.rows) :
    minimum ≤ (applyRaise table source label finding).current := by
  rcases applyRaise_cases table source label finding with ⟨target, htarget, _, _, hcur⟩ | ⟨hle, heq⟩
  · -- The two rows are one, since a table has one row for a kind.
    rw [← RaiseTable.minimum_eq_some_iff] at hrow htarget
    rw [hrow, some.injEq] at htarget
    rw [hcur, htarget]
  · rw [heq]
    exact hle minimum hrow

theorem rising_applyRaise {finding : Finding} (h : finding.Rising)
    (hsource : source = .repositoryPolicy ∨ source = .organizationFloor) :
    (applyRaise table source label finding).Rising := by
  rcases applyRaise_cases table source label finding with ⟨target, _, hlt, heq, hcur⟩ | ⟨_, heq⟩
  · refine ⟨?_, ?_⟩
    · rw [hcur, heq]
      refine h.trace.append rfl ⟨fun _ => hlt, ?_, ?_⟩ <;>
        rcases hsource with rfl | rfl <;>
        simp [PolicyStep.eases]
    · rw [heq]
      intro step hstep
      rcases List.mem_append.mp hstep with hold | hnew
      · exact h.unlowered step hold
      · rw [List.mem_singleton] at hnew
        subst hnew
        rcases hsource with rfl | rfl <;> rfl
  · rw [heq]
    exact h

end Raise

section Passes

variable (policy : Effects) {finding : Finding}

/-- The finding both raises were tried on. -/
def bothRaises (policy : Effects) (finding : Finding) : Finding :=
  applyRaise policy.floorRaised .organizationFloor "floor"
    (applyRaise policy.raised .repositoryPolicy "repository" finding)

theorem applyRaises_skip (h : finding.attribution = .resolved ∨ finding.candidateFact = none) :
    applyRaises policy finding = finding := by
  rw [applyRaises, if_pos h]

theorem applyRaises_eq (h : ¬ (finding.attribution = .resolved ∨ finding.candidateFact = none)) :
    applyRaises policy finding = { bothRaises policy finding with
      configuredDisposition := (bothRaises policy finding).current
      effectiveDisposition := (bothRaises policy finding).current } := by
  rw [applyRaises, if_neg h]
  rfl

theorem applyRaises_sameSubject (finding : Finding) :
    finding.SameSubject (applyRaises policy finding) := by
  by_cases h : finding.attribution = .resolved ∨ finding.candidateFact = none
  · rw [applyRaises_skip policy h]
    exact Finding.SameSubject.refl finding
  rw [applyRaises_eq policy h]
  have hboth : finding.SameSubject (bothRaises policy finding) :=
    (applyRaise_sameSubject policy.raised _ _ finding).trans
      (applyRaise_sameSubject policy.floorRaised _ _ _)
  exact ⟨hboth.1, hboth.2, hboth.3, hboth.4, hboth.5, hboth.6⟩

theorem level_applyRaises (h : finding.Level) : (applyRaises policy finding).Level := by
  by_cases hskip : finding.attribution = .resolved ∨ finding.candidateFact = none
  · rw [applyRaises_skip policy hskip]
    exact h
  rw [applyRaises_eq policy hskip]
  have hrepository := rising_applyRaise policy.raised .repositoryPolicy "repository" h.rising
    (Or.inl rfl)
  exact (rising_applyRaise policy.floorRaised .organizationFloor "floor" hrepository
    (Or.inr rfl)).level

theorem configured_le_applyRaises (h : finding.Level) :
    finding.configuredDisposition ≤ (applyRaises policy finding).configuredDisposition := by
  by_cases hskip : finding.attribution = .resolved ∨ finding.candidateFact = none
  · rw [applyRaises_skip policy hskip]
  · rw [applyRaises_eq policy hskip, ← Finding.current_eq_of_reaches h.trace.reaches]
    exact (current_le_applyRaise policy.raised _ _ finding).trans
      (current_le_applyRaise policy.floorRaised _ _ _)

/-- A raised finding stands at or above every minimum either control declares
    for its kind. -/
theorem minimum_le_applyRaises
    (hraised : ¬ (finding.attribution = .resolved ∨ finding.candidateFact = none))
    {minimum : Disposition} (hrow : (finding.kind, minimum) ∈ policy.raised.rows ∨
      (finding.kind, minimum) ∈ policy.floorRaised.rows) :
    minimum ≤ (applyRaises policy finding).configuredDisposition := by
  rw [applyRaises_eq policy hraised]
  rcases hrow with hrow | hrow
  · exact (minimum_le_applyRaise policy.raised _ _ finding hrow).trans
      (current_le_applyRaise policy.floorRaised _ _ _)
  · refine minimum_le_applyRaise policy.floorRaised _ _ _ ?_
    rw [(applyRaise_sameSubject policy.raised _ _ finding).kind]
    exact hrow

/-- The frame of the later passes: they append at most one step, and they move
    nothing but the trace, the effective disposition and the application. -/
structure Finding.Eased (finding stage : Finding) : Prop where
  subject : finding.SameSubject stage
  configured : stage.configuredDisposition = finding.configuredDisposition

theorem easeIntroduced_eased (profile : Profile) (finding : Finding) :
    finding.Eased (easeIntroduced profile finding) := by
  unfold easeIntroduced
  split <;> exact ⟨⟨rfl, rfl, rfl, rfl, rfl, rfl⟩, rfl⟩

theorem traced_easeIntroduced (profile : Profile) (h : finding.Traced) :
    (easeIntroduced profile finding).Traced := by
  unfold easeIntroduced
  split
  · rename_i hcond
    have heases : PolicyStep.eases finding.kind
        ⟨.builtIn, enforceIntroducedRule finding.kind, .fail, .warn⟩ = true := by
      simp [PolicyStep.eases]
    refine h.lower rfl rfl rfl rfl hcond.2.1.symm ?_ ⟨?_, fun _ => ⟨rfl, rfl⟩, ?_⟩
    · rw [PolicyStep.lowers, heases, Bool.true_or, Bool.true_or]
    · exact fun hraise => absurd hraise (by simp only [PolicyStep.raises]; decide)
    · simp
  · exact h

theorem applyDebt_eased (context : DebtContext) (item : DebtItem) (finding : Finding) :
    finding.Eased (applyDebt context item finding) :=
  ⟨⟨rfl, rfl, rfl, rfl, rfl, rfl⟩, rfl⟩

theorem applyWaiver_eased (context : WaiverContext) (item : WaiverItem) (finding : Finding) :
    finding.Eased (applyWaiver context item finding) := by
  unfold applyWaiver
  split <;> exact ⟨⟨rfl, rfl, rfl, rfl, rfl, rfl⟩, rfl⟩

theorem traced_applyDebt (context : DebtContext) (item : DebtItem) (h : finding.Traced) :
    (applyDebt context item finding).Traced := by
  refine h.lower rfl rfl rfl rfl h.current_eq ?_ ⟨?_, ?_, fun _ => rfl⟩
  · simp [PolicyStep.lowers]
  · exact fun hraise => absurd hraise (by simp only [PolicyStep.raises]; decide)
  · simp [PolicyStep.eases]

theorem traced_applyWaiver (context : WaiverContext) (item : WaiverItem)
    (h : finding.Traced) : (applyWaiver context item finding).Traced := by
  unfold applyWaiver
  split
  · rename_i hfail
    refine h.lower rfl rfl rfl rfl (h.current_eq ▸ hfail.symm) ?_ ⟨?_, fun _ => ⟨rfl, rfl⟩, ?_⟩
    · simp [PolicyStep.lowers]
    · exact fun hraise => absurd hraise (by simp only [PolicyStep.raises]; decide)
    · simp
  · exact h

variable (debts : BTreeMap Digest DebtItem) (waivers : BTreeMap Digest WaiverItem)

/-- An exception takes a debt step, a waiver step, or none. -/
theorem applyValidException_cases (finding : Finding) :
    (∃ context item, policy.debt = some context ∧ debts[finding.findingKey]? = some item ∧
      applyValidException policy debts waivers finding = applyDebt context item finding) ∨
    (∃ context item, policy.waiver = some context ∧ waivers[finding.findingKey]? = some item ∧
      applyValidException policy debts waivers finding = applyWaiver context item finding) ∨
    applyValidException policy debts waivers finding = finding := by
  unfold applyValidException
  cases debts[finding.findingKey]? with
  | some item =>
    cases waivers[finding.findingKey]? with
    | some _ => exact Or.inr (Or.inr rfl)
    | none =>
      cases policy.debt with
      | some context => exact Or.inl ⟨context, item, rfl, rfl, rfl⟩
      | none => exact Or.inr (Or.inr rfl)
  | none =>
    cases waivers[finding.findingKey]? with
    | none => exact Or.inr (Or.inr rfl)
    | some item =>
      cases policy.waiver with
      | some context => exact Or.inr (Or.inl ⟨context, item, rfl, rfl, rfl⟩)
      | none => exact Or.inr (Or.inr rfl)

theorem applyValidException_eased (finding : Finding) :
    finding.Eased (applyValidException policy debts waivers finding) := by
  rcases applyValidException_cases policy debts waivers finding with
    ⟨context, item, _, _, heq⟩ | ⟨context, item, _, _, heq⟩ | heq <;> rw [heq]
  · exact applyDebt_eased context item finding
  · exact applyWaiver_eased context item finding
  · exact ⟨Finding.SameSubject.refl finding, rfl⟩

theorem traced_applyValidException (h : finding.Traced) :
    (applyValidException policy debts waivers finding).Traced := by
  rcases applyValidException_cases policy debts waivers finding with
    ⟨context, item, _, _, heq⟩ | ⟨context, item, _, _, heq⟩ | heq <;> rw [heq]
  · exact traced_applyDebt context item h
  · exact traced_applyWaiver context item h
  · exact h

end Passes

end Amiss
