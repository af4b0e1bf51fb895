import Amiss.Theory.Evaluate.Trace
import Amiss.Base.Fallible

/-!
# Where Findings Come From

Ten builders fill the list a policy is applied to. `Produced` names them, and
`mem_constructed` says that the list holds their findings and no others, so a
fact about every finding is a case split over builders.

Three facts matter later. Every finding leaves its builder `Fresh`: filed under
the digest of its key, with one policy step and both dispositions where that
step ends. Which findings rest on a candidate fact is decided by their kind,
except for the structural kinds, where a group that has lost its candidates
has none. And structural findings have distinct keys, because a group is
looked up by its key.

## Main definitions

* `Finding.Fresh`: A finding as its builder leaves it.
* `Produced`: The builder of a finding.
* `Finding.Plain`, `Finding.Proven`: The standing of the findings that are not
  structural.
* `FromGroup`: A structural finding and its group.

## Theorems

* `mem_constructed`: The constructed findings are the produced ones.
* `Produced.standing`: The three standings a finding can have.
* `Produced.fromGroup`: Every structural finding reports a group.
* `produced_of_invalid`: An invalid candidate occurrence has one.
-/

namespace Amiss

open Except

open List

open Fallible

theorem okOrInternal_eq_ok {α : Type} {value : Option α} {a : α} :
    okOrInternal value = .ok a ↔ value = some a := by
  cases value with
  | none => simp [okOrInternal]
  | some b => simp [okOrInternal]

/-- A finding as its builder leaves it. -/
structure Finding.Fresh (codec : Codec) (profile : Profile) (finding : Finding) : Prop where
  keyed : keyDigest codec finding.keyInput = .ok finding.findingKey
  steps : finding.steps = [structuralStep finding.kind finding.attribution profile]
  configured : finding.configuredDisposition =
    (structuralStep finding.kind finding.attribution profile).after
  effective : finding.effectiveDisposition = finding.configuredDisposition

variable (kind : FindingKind)

/-- The built-in rule is not the rule of the introduced-only profile. -/
theorem builtInStep_ruleId_ne (profile : Profile) :
    (builtInStep kind profile).ruleId ≠ enforceIntroducedRule kind := by
  have hname : profile.policyDefaults.name ≠ Profile.enforceIntroduced.name := by
    cases profile <;> decide
  intro heq
  exact hname ((String.append_right_inj
    ("scanner-policy-defaults/" ++ kind.name ++ "/")).mp heq)

theorem builtInStep_eases (profile : Profile) : (builtInStep kind profile).eases kind = false := by
  have hne := beq_eq_false_iff_ne.mpr (builtInStep_ruleId_ne kind profile)
  rw [PolicyStep.eases, hne, Bool.and_false]

variable (attribution : Attribution)

theorem structuralStep_unlowered
    (profile : Profile) : (structuralStep kind attribution profile).lowers kind = false := by
  unfold structuralStep
  split
  · rfl
  · rw [PolicyStep.lowers, builtInStep_eases]
    rfl

theorem structuralStep_lawful
    (profile : Profile) : (structuralStep kind attribution profile).Lawful kind := by
  have hlow := structuralStep_unlowered kind attribution profile
  simp only [PolicyStep.lowers, Bool.or_eq_false_iff, beq_eq_false_iff_ne, ne_eq] at hlow
  refine ⟨?_, ?_, fun h => absurd h hlow.1.2⟩
  · intro hraise
    unfold structuralStep at hraise
    split at hraise <;> exact absurd hraise Bool.false_ne_true
  · rintro (h | h)
    · exact absurd h (by rw [hlow.1.1]; exact Bool.false_ne_true)
    · exact absurd h hlow.2

theorem structuralStep_before
    (profile : Profile) : (structuralStep kind attribution profile).before = .record := by
  unfold structuralStep
  split <;> rfl

theorem Finding.Fresh.level {codec : Codec} {profile : Profile} {finding : Finding}
    (h : finding.Fresh codec profile) : finding.Level where
  trace := by
    rw [h.steps, h.configured]
    exact IsTrace.single (structuralStep_before _ _ _) (structuralStep_lawful _ _ _)
  unlowered := by
    intro step hstep
    rw [h.steps, mem_singleton] at hstep
    rw [hstep]
    exact structuralStep_unlowered _ _ _
  agrees := h.effective

section Shells

variable {codec : Codec} {profile : Profile} {finding : Finding} {kind : FindingKind}
  {scope : KeyScope} {location : Location}

theorem simple_spec {attribution : Attribution} {ids : List Digest}
    (hattribution : attribution ≠ .resolved)
    (h : simple codec kind scope attribution ids location profile = .ok finding) :
    finding.Fresh codec profile ∧ finding.kind = kind ∧ finding.attribution = attribution ∧
      finding.candidateFact = none ∧ finding.observationIds = ids ∧
      finding.location = location := by
  simp only [simple, bind_eq_ok, pure_eq_ok, ok.injEq] at h
  rcases h with ⟨key, hkey, rfl⟩
  refine ⟨⟨hkey, ?_, ?_, rfl⟩, rfl, rfl, rfl, rfl, rfl⟩
  · simp only [structuralStep, if_neg hattribution]
    rfl
  · simp only [structuralStep, if_neg hattribution]
    rfl

theorem candidateFactFinding_spec {evidence : Evidence} {memberCount : Nat}
    (h : candidateFactFinding codec kind scope evidence memberCount location profile =
      .ok finding) :
    finding.Fresh codec profile ∧ finding.kind = kind ∧
      finding.attribution = .notApplicable ∧ finding.candidateFact ≠ none ∧
      finding.observationIds = [] ∧ finding.location = location := by
  simp only [candidateFactFinding, bind_eq_ok, pure_eq_ok, ok.injEq] at h
  rcases h with ⟨shell, hshell, fact, _, rfl⟩
  rcases simple_spec (by decide) hshell with ⟨⟨hk, hs, hc, he⟩, hkind, hattr, _, hids, hloc⟩
  exact ⟨⟨hk, hs, hc, he⟩, hkind, hattr, Option.some_ne_none fact, hids, hloc⟩

end Shells

/-- The two kinds that are grouped by key across both sides. -/
def FindingKind.IsStructural (kind : FindingKind) : Prop :=
  kind = .explicitTargetMissing ∨ kind = .explicitTargetTypeMismatch

/-- The other kinds whose findings rest on a candidate fact before the
    exceptions are applied. -/
def FindingKind.HasFact (kind : FindingKind) : Prop :=
  kind = .siteBuildDefect ∨ kind = .unsupportedCapability ∨ kind.IsClaim ∨ kind = .projectionDrift

instance (kind : FindingKind) : Decidable kind.IsStructural :=
  inferInstanceAs (Decidable (_ ∨ _))

instance (kind : FindingKind) : Decidable kind.IsClaim := inferInstanceAs (Decidable (_ ∨ _))

instance (kind : FindingKind) : Decidable kind.HasFact := inferInstanceAs (Decidable (_ ∨ _))

/-- A finding that states an observation and rests on no fact. -/
structure Finding.Plain (finding : Finding) : Prop where
  factless : finding.candidateFact = none
  unresolved : finding.attribution ≠ .resolved
  notStructural : ¬ finding.kind.IsStructural
  notFact : ¬ finding.kind.HasFact

/-- A finding that rests on a candidate fact and names no occurrence. -/
structure Finding.Proven (finding : Finding) : Prop where
  hasFact : finding.candidateFact ≠ none
  attributed : finding.attribution = .notApplicable
  ofKind : finding.kind.HasFact
  noIds : finding.observationIds = []

/-- A structural finding and the group it reports. -/
def FromGroup (codec : Codec) (comparisons : List Comparison) (profile : Profile)
    (finding : Finding) : Prop :=
  ∃ (groups : KeyGroups) (group : KeyGroup), structuralGroups codec comparisons = .ok groups ∧
    groups[finding.findingKey]? = some group ∧
    structuralFinding codec profile finding.findingKey group = .ok (some finding)

section Groups

variable (codec : Codec)

/-- Every group is filed under the digest of its key, and its kind is
    structural. -/
def GroupsKeyed (groups : KeyGroups) : Prop :=
  ∀ (digest : Digest) (group : KeyGroup), groups[digest]? = some group →
    keyDigest codec group.key = .ok digest ∧ group.key.findingKind.IsStructural

variable {codec}

theorem structural_isStructural {resolution : Resolution RepoPath} {kind : FindingKind}
    (h : (resolutionKinds resolution).structural = some kind) : kind.IsStructural := by
  cases resolution <;> simp only [resolutionKinds, reduceCtorEq, Option.some.injEq] at h
  · exact Or.inl h.symm
  · exact Or.inr h.symm

@[simp] theorem KeyGroup.push_key (group : KeyGroup) (observation : Observation)
    (isBase : Bool) : (group.push observation isBase).key = group.key := by
  unfold KeyGroup.push
  split <;> rfl

variable {groups : KeyGroups}

theorem collectStructural_keyed {observation : Observation} {isBase : Bool}
    {result : KeyGroups × Option Digest} (hkeyed : GroupsKeyed codec groups)
    (h : collectStructural codec groups observation isBase = .ok result) :
    GroupsKeyed codec result.1 := by
  unfold collectStructural at h
  split at h
  · rw [ok.injEq] at h
    exact h ▸ hkeyed
  rename_i kind hkind
  simp only [bind_eq_ok, pure_eq_ok, ok.injEq] at h
  rcases h with ⟨digest, hdigest, rfl⟩
  intro other group hgroup
  rw [getElem?_upsert] at hgroup
  split at hgroup
  · rename_i heq
    subst heq
    rw [Option.some.injEq] at hgroup
    rw [← hgroup, KeyGroup.push_key]
    -- An existing group keeps its key, a new one takes the occurrence's.
    cases hentry : groups[digest]? with
    | none => exact ⟨hdigest, structural_isStructural hkind⟩
    | some entry => exact hkeyed digest entry hentry
  · exact hkeyed other group hgroup

variable {result : KeyGroups}

theorem collectAll_keyed {isBase : Bool} {observations : List Observation}
    (hkeyed : GroupsKeyed codec groups)
    (h : collectAll codec isBase groups observations = .ok result) : GroupsKeyed codec result := by
  refine foldlM_invariant (fun observation _ s t hs hstep => ?_) hkeyed h
  simp only [bind_eq_ok, pure_eq_ok, ok.injEq] at hstep
  rcases hstep with ⟨collected, hcollected, rfl⟩
  exact collectStructural_keyed hs hcollected

theorem joinBase_keyed {continued : Option Digest} {base : Observation}
    (hkeyed : GroupsKeyed codec groups) (h : joinBase codec groups continued base = .ok result) :
    GroupsKeyed codec result := by
  unfold joinBase at h
  simp only at h
  split at h
  · rename_i digest group hjoined
    rw [Option.bind_eq_some_iff] at hjoined
    rcases hjoined with ⟨other, _, hmap⟩
    rw [Option.map_eq_some_iff] at hmap
    rcases hmap with ⟨found, hfilter, hpair⟩
    cases hpair
    rw [Option.filter_eq_some_iff] at hfilter
    cases h
    intro key entry hentry
    rw [Std.ExtTreeMap.getElem?_insert] at hentry
    split at hentry
    · rename_i heq
      rw [Std.LawfulEqCmp.compare_eq_iff_eq] at heq
      subst heq
      rw [Option.some.injEq] at hentry
      rw [← hentry, KeyGroup.push_key]
      exact hkeyed _ _ hfilter.1
    · exact hkeyed key entry hentry
  · simp only [bind_eq_ok, pure_eq_ok, ok.injEq] at h
    rcases h with ⟨collected, hcollected, rfl⟩
    exact collectStructural_keyed hkeyed hcollected

theorem collectCandidate_keyed {comparison : Comparison} {result : KeyGroups × Option Digest}
    (hkeyed : GroupsKeyed codec groups)
    (h : collectCandidate codec groups comparison = .ok result) : GroupsKeyed codec result.1 := by
  unfold collectCandidate at h
  split at h
  · rw [ok.injEq] at h
    exact h ▸ hkeyed
  rw [bind_eq_ok] at h
  rcases h with ⟨collected, hcollected, hrest⟩
  have hfirst : result.1 = collected.1 := by
    cases houtcome : comparison.outcome <;>
      simp only [houtcome, pure_eq_ok, ok.injEq] at hrest <;> rw [← hrest]
  rw [hfirst]
  exact collectStructural_keyed hkeyed hcollected

theorem joinComparison_keyed {comparison : Comparison} (hkeyed : GroupsKeyed codec groups)
    (h : joinComparison codec groups comparison = .ok result) : GroupsKeyed codec result := by
  simp only [joinComparison, bind_eq_ok] at h
  rcases h with ⟨collected, hcandidate, alternatives, halternatives, based, hbase, hrest⟩
  have h1 := collectCandidate_keyed hkeyed hcandidate
  have h2 := collectAll_keyed h1 halternatives
  have h3 : GroupsKeyed codec based := by
    unfold collectBase at hbase
    split at hbase
    · cases hbase
      exact h2
    · exact joinBase_keyed h2 hbase
  exact collectAll_keyed h3 hrest

theorem structuralGroups_keyed {comparisons : List Comparison}
    (h : structuralGroups codec comparisons = .ok groups) : GroupsKeyed codec groups := by
  refine foldlM_invariant (fun comparison _ s t hs hstep => joinComparison_keyed hs hstep) ?_ h
  intro digest group hgroup
  rw [Std.ExtTreeMap.getElem?_empty] at hgroup
  cases hgroup

theorem sideFact_eq_ok {key : KeyInput} {members : List Observation}
    {fact : Option FindingFact} (h : sideFact codec key members = .ok fact) :
    fact = none ↔ members = [] := by
  cases members with
  | nil =>
    rw [sideFact, ok.injEq] at h
    simp only [← h]
  | cons first rest =>
    simp only [sideFact, bind_eq_ok, pure_eq_ok, ok.injEq] at h
    rcases h with ⟨_, _, rfl⟩
    simp

/-- A group reports where it has an occurrence, the candidate side first. -/
theorem reportedMembers_side (group : KeyGroup) :
    (reportedMembers group).2.2.side = .candidate ↔ group.candidate ≠ [] := by
  have hside : (reportedMembers group).2.2.side = group.reported.2 := by
    unfold reportedMembers
    simp only
    split <;> rfl
  rw [hside, KeyGroup.reported]
  cases group.candidate with
  | nil => simp
  | cons first rest =>
    simp

/-- What a group reports. Its candidate fact, its side and its attribution all
    say whether a candidate occurrence is left. -/
theorem structuralFinding_spec {profile : Profile} {digest : Digest} {group : KeyGroup}
    {finding : Finding} (hkey : keyDigest codec group.key = .ok digest)
    (h : structuralFinding codec profile digest group = .ok (some finding)) :
    finding.Fresh codec profile ∧ finding.keyInput = group.key ∧ finding.findingKey = digest ∧
      (finding.candidateFact = none ↔ finding.attribution = .resolved) ∧
      (finding.location.side = .candidate ↔ finding.candidateFact ≠ none) := by
  simp only [structuralFinding, bind_eq_ok, pure_eq_ok] at h
  rcases h with ⟨baseFact, hbase, candidateFact, hcandidate, h⟩
  split at h
  · cases h
  rename_i happlicable
  cases h
  have hside := reportedMembers_side group
  refine ⟨⟨hkey, rfl, ?_, rfl⟩, rfl, rfl, ?_, ?_⟩
  · simp only [structuralStep, Finding.kind]
    split <;> rfl
  · -- A group that is reported has a fact on one of its sides.
    simp only [structuralAttribution] at happlicable ⊢
    cases baseFact <;> cases candidateFact <;>
      simp only [reduceCtorEq, not_true_eq_false] at happlicable ⊢
    split <;> simp
  · simp only [hside, ne_eq, sideFact_eq_ok hcandidate]

end Groups

section Produced

variable (codec : Codec) (documents : List DocumentInput) (comparisons : List Comparison)
  (profile : Profile) (inputs : GovernedInputs)

/-- The builder of a finding. -/
inductive Produced (finding : Finding) : Prop where
  | document (document : DocumentInput) (findings : List Finding)
      (hmem : document ∈ documents)
      (hrun : documentFindings codec profile inputs.site.navigation document = .ok findings)
      (hfinding : finding ∈ findings)
  | defect (defect : SiteDefect) (hmem : defect ∈ inputs.site.defects)
      (hrun : defectFinding codec profile defect = .ok finding)
  | boundary (entry : FindingKind × Observation) (hmem : entry ∈ boundaries comparisons)
      (hfold : foldsByDocument entry = false)
      (hrun : boundaryFinding codec profile (invalidAttributions comparisons) entry = .ok finding)
  | folded (entry : (FindingKind ×ₗ RepoPath) × List Observation)
      (hmem : entry ∈ (foldedBoundaries comparisons).toList)
      (hrun : foldedFinding codec profile entry = .ok finding)
  | structural (hgroup : FromGroup codec comparisons profile finding)
  | compared (comparison : Comparison) (hmem : comparison ∈ comparisons)
      (hrun : comparisonFinding codec profile comparison = .ok (some finding))
  | governed (seed : GovernedSeed) (hmem : seed ∈ inputs.governed)
      (hrun : governedFinding codec profile seed = .ok finding)
  | claim (group : ClaimGroup) (hmem : group ∈ inputs.claims)
      (hrun : claimFinding codec profile group = .ok finding)
  | projection (outcome : ProjectionOutcome) (hmem : outcome ∈ inputs.projections)
      (hrun : projectionFinding codec profile outcome = .ok (some finding))
  | translation (entry : RepoPath × LocationSide) (hmem : entry ∈ inputs.translations)
      (hrun : translationFinding codec profile entry = .ok finding)

variable {codec documents comparisons profile inputs}

variable {findings : List Finding}

theorem mem_structuralFindings (h : structuralFindings codec comparisons profile = .ok findings)
    (finding : Finding) : finding ∈ findings ↔ FromGroup codec comparisons profile finding := by
  simp only [structuralFindings, bind_eq_ok, pure_eq_ok, ok.injEq] at h
  rcases h with ⟨groups, hgroups, results, hresults, rfl⟩
  have hkeyed := structuralGroups_keyed hgroups
  rw [reduceOption_mem_iff, mem_of_mapM hresults]
  constructor
  · rintro ⟨⟨digest, group⟩, hmem, hrun⟩
    rw [mem_toList] at hmem
    have hdigest := (structuralFinding_spec (hkeyed digest group hmem).1 hrun).2.2.1
    exact ⟨groups, group, hgroups, hdigest ▸ hmem, hdigest ▸ hrun⟩
  · rintro ⟨groups', group, hgroups', hmem, hrun⟩
    cases hgroups.symm.trans hgroups'
    exact ⟨(finding.findingKey, group), (mem_toList _ _ _).mpr hmem, hrun⟩

theorem mem_constructed (h : constructed codec documents comparisons profile inputs = .ok findings)
    (finding : Finding) :
    finding ∈ findings ↔ Produced codec documents comparisons profile inputs finding := by
  simp only [constructed, ordinary, bind_eq_ok, pure_eq_ok, ok.injEq] at h
  rcases h with ⟨ordinaries, ⟨documented, hdocumented, defects, hdefects, occurrences,
    hoccurrences, folded, hfolded, structural, hstructural, compared, hcompared, rfl⟩,
    governed, hgoverned, claims, hclaims, projections, hprojections, translations,
    htranslations, rfl⟩
  simp only [mem_append, mem_sortBy, mem_flatten, reduceOption_mem_iff,
    mem_of_mapM hdocumented, mem_of_mapM hdefects, mem_of_mapM hoccurrences,
    mem_of_mapM hfolded, mem_structuralFindings hstructural, mem_of_mapM hcompared,
    mem_of_mapM hgoverned, mem_of_mapM hclaims, mem_of_mapM hprojections,
    mem_of_mapM htranslations, mem_filter, Bool.not_eq_true', or_assoc]
  constructor
  · rintro (⟨findings, ⟨document, hmem, hrun⟩, hfinding⟩ | ⟨defect, hmem, hrun⟩ |
      ⟨entry, ⟨hmem, hfold⟩, hrun⟩ | ⟨entry, hmem, hrun⟩ | hgroup | ⟨comparison, hmem, hrun⟩ |
      ⟨seed, hmem, hrun⟩ | ⟨group, hmem, hrun⟩ | ⟨outcome, hmem, hrun⟩ | ⟨entry, hmem, hrun⟩)
    · exact .document document findings hmem hrun hfinding
    · exact .defect defect hmem hrun
    · exact .boundary entry hmem hfold hrun
    · exact .folded entry hmem hrun
    · exact .structural hgroup
    · exact .compared comparison hmem hrun
    · exact .governed seed hmem hrun
    · exact .claim group hmem hrun
    · exact .projection outcome hmem hrun
    · exact .translation entry hmem hrun
  · intro hproduced
    cases hproduced with
    | document document findings hmem hrun hfinding =>
      exact .inl ⟨findings, ⟨document, hmem, hrun⟩, hfinding⟩
    | defect defect hmem hrun => exact .inr (.inl ⟨defect, hmem, hrun⟩)
    | boundary entry hmem hfold hrun => exact .inr (.inr (.inl ⟨entry, ⟨hmem, hfold⟩, hrun⟩))
    | folded entry hmem hrun => exact .inr (.inr (.inr (.inl ⟨entry, hmem, hrun⟩)))
    | structural hgroup => exact .inr (.inr (.inr (.inr (.inl hgroup))))
    | compared comparison hmem hrun =>
      exact .inr (.inr (.inr (.inr (.inr (.inl ⟨comparison, hmem, hrun⟩)))))
    | governed seed hmem hrun =>
      exact .inr (.inr (.inr (.inr (.inr (.inr (.inl ⟨seed, hmem, hrun⟩))))))
    | claim group hmem hrun =>
      exact .inr (.inr (.inr (.inr (.inr (.inr (.inr (.inl ⟨group, hmem, hrun⟩)))))))
    | projection outcome hmem hrun =>
      exact .inr (.inr (.inr (.inr (.inr (.inr (.inr (.inr (.inl ⟨outcome, hmem, hrun⟩))))))))
    | translation entry hmem hrun =>
      exact .inr (.inr (.inr (.inr (.inr (.inr (.inr (.inr (.inr (⟨entry, hmem, hrun⟩)))))))))

theorem invalidAttributions_ne_resolved {id : Digest} {attribution : Attribution}
    (h : (invalidAttributions comparisons)[id]? = some attribution) : attribution ≠ .resolved := by
  rcases of_getElem?_foldl_insert Prod.fst Prod.snd h with ⟨entry, hmem, _, rfl⟩
  rcases mem_flatMap.mp hmem with ⟨comparison, _, hrow⟩
  rcases mem_append.mp hrow with h | h
  · rcases mem_map.mp h with ⟨candidate, _, rfl⟩
    simp only [invalidAttribution]
    split
    · decide
    · split
      · decide
      · split <;> decide
  · rcases mem_map.mp h with ⟨candidate, _, rfl⟩
    exact Attribution.noConfusion

variable {observation : Observation} {kind : FindingKind}

/-- The boundary kinds are neither structural nor do they rest on a fact. -/
theorem boundaryKinds_plain (h : kind ∈ boundaryKinds observation) :
    ¬ kind.IsStructural ∧ ¬ kind.HasFact := by
  unfold boundaryKinds at h
  rcases mem_append.mp h with h | h
  · rw [Option.mem_toList] at h
    cases hresolution : observation.resolution <;>
      simp only [hresolution, resolutionKinds, reduceCtorEq,
        Option.some.injEq] at h <;> subst h <;> decide
  · split at h
    · rw [mem_singleton] at h
      subst h
      decide
    · cases h

theorem mem_boundaries {entry : FindingKind × Observation} (h : entry ∈ boundaries comparisons) :
    entry.2 ∈ candidateObservations comparisons ∧ entry.1 ∈ boundaryKinds entry.2 := by
  rcases mem_flatMap.mp h with ⟨observation, hobservation, hentry⟩
  rcases mem_map.mp hentry with ⟨kind, hkind, rfl⟩
  exact ⟨hobservation, hkind⟩

theorem invalid_of_mem_boundaryKinds
    (h : FindingKind.invalidReference ∈ boundaryKinds observation) :
    observation.resolution.isInvalid = true := by
  unfold boundaryKinds at h
  rcases mem_append.mp h with h | h
  · rw [Option.mem_toList] at h
    cases hresolution : observation.resolution <;>
      simp only [hresolution, resolutionKinds, reduceCtorEq, Option.some.injEq] at h
    rfl
  · split at h <;> simp only [mem_singleton, not_mem_nil, reduceCtorEq] at h

theorem mem_foldedBoundaries {entry : (FindingKind ×ₗ RepoPath) × List Observation}
    (h : entry ∈ (foldedBoundaries comparisons).toList) :
    ∃ source ∈ boundaries comparisons, foldsByDocument source = true ∧
      source.1 = (ofLex entry.1).1 := by
  rw [show entry = (entry.1, entry.2) from rfl, mem_toList, foldedBoundaries,
    getElem?_collect_eq_some] at h
  rcases h with ⟨⟨source, hsource, hkey⟩, _⟩
  rw [mem_filter] at hsource
  exact ⟨source, hsource.1, hsource.2, by rw [← hkey, ofLex_toLex]⟩

variable {finding : Finding}

/-- What a builder that attaches a fact leaves. -/
theorem proven_of_spec {location : Location} (hkind : kind.HasFact)
    (h : finding.Fresh codec profile ∧ finding.kind = kind ∧
      finding.attribution = .notApplicable ∧ finding.candidateFact ≠ none ∧
      finding.observationIds = [] ∧ finding.location = location) :
    finding.Fresh codec profile ∧ finding.Proven := by
  rcases h with ⟨hfresh, rfl, hattribution, hfact, hids, _⟩
  exact ⟨hfresh, hfact, hattribution, hkind, hids⟩

/-- What a builder that attaches no fact leaves. -/
theorem plain_of_spec {attribution : Attribution}
    {ids : List Digest} {location : Location} (hattribution : attribution ≠ .resolved)
    (hstructural : ¬ kind.IsStructural) (hnofact : ¬ kind.HasFact)
    (h : finding.Fresh codec profile ∧ finding.kind = kind ∧ finding.attribution = attribution ∧
      finding.candidateFact = none ∧ finding.observationIds = ids ∧
      finding.location = location) :
    finding.Fresh codec profile ∧ finding.Plain := by
  rcases h with ⟨hfresh, rfl, rfl, hfact, _, _⟩
  exact ⟨hfresh, hfact, hattribution, hstructural, hnofact⟩

theorem candidateDocumentKinds_plain {navigation : Option SiteNavigation} {path : RepoPath}
    {side : Option DocumentSide} (h : kind ∈ candidateDocumentKinds navigation path side) :
    ¬ kind.IsStructural ∧ ¬ kind.HasFact ∧ kind ≠ .invalidReference := by
  have hmem : kind ∈ [FindingKind.unsupportedDocumentFormat, .opaqueMdxRegion,
      .opaqueHtmlRegion, .unlinkedDocument] := by
    unfold candidateDocumentKinds at h
    split at h
    · cases h
    · cases h
    · exact mem_cons.mpr (Or.inl (mem_singleton.mp h))
    · simp only [mem_append, mem_ite_nil_right, mem_singleton] at h
      simp only [mem_cons, not_mem_nil, or_false]
      tauto
  simp only [mem_cons, not_mem_nil, or_false] at hmem
  rcases hmem with rfl | rfl | rfl | rfl <;> decide

theorem documentFindings_plain {navigation : Option SiteNavigation} {document : DocumentInput}
    (hrun : documentFindings codec profile navigation document = .ok findings)
    (hfinding : finding ∈ findings) :
    finding.Fresh codec profile ∧ finding.Plain ∧ finding.kind ≠ .invalidReference := by
  unfold documentFindings at hrun
  split at hrun
  · rcases (mem_of_mapM hrun finding).mp hfinding with ⟨kind, hkind, hsimple⟩
    rw [mem_singleton] at hkind
    subst hkind
    have hspec := simple_spec (by decide) hsimple
    have hplain := plain_of_spec (by decide) (by decide) (by decide) hspec
    exact ⟨hplain.1, hplain.2, by rw [hspec.2.1]; decide⟩
  · rcases (mem_of_mapM hrun finding).mp hfinding with ⟨kind, hkind, hsimple⟩
    have hkinds := candidateDocumentKinds_plain hkind
    have hspec := simple_spec (by decide) hsimple
    have hplain := plain_of_spec (by decide) hkinds.1 hkinds.2.1 hspec
    exact ⟨hplain.1, hplain.2, by rw [hspec.2.1]; exact hkinds.2.2⟩

theorem comparisonKind_plain {comparison : Comparison} (h : comparisonKind comparison = some kind) :
    ¬ kind.IsStructural ∧ ¬ kind.HasFact ∧ kind ≠ .invalidReference := by
  unfold comparisonKind at h
  split at h
  · cases h
    decide
  · split at h
    · cases h
      decide
    · split at h <;> simp only [reduceCtorEq, Option.some.injEq] at h <;> subst h <;> decide

theorem comparisonFinding_plain {comparison : Comparison}
    (h : comparisonFinding codec profile comparison = .ok (some finding)) :
    finding.Fresh codec profile ∧ finding.Plain ∧ finding.kind ≠ .invalidReference := by
  unfold comparisonFinding at h
  split at h
  · rename_i primary side kind _ hkind
    simp only [bind_eq_ok, pure_eq_ok, ok.injEq, Option.some.injEq] at h
    rcases h with ⟨built, hsimple, rfl⟩
    have hkinds := comparisonKind_plain hkind
    have hspec := simple_spec (by decide) hsimple
    have hplain := plain_of_spec (by decide) hkinds.1 hkinds.2.1 hspec
    exact ⟨hplain.1, hplain.2, by rw [hspec.2.1]; exact hkinds.2.2⟩
  · cases h

theorem foldedFinding_plain {entry : (FindingKind ×ₗ RepoPath) × List Observation}
    (hmem : entry ∈ (foldedBoundaries comparisons).toList)
    (h : foldedFinding codec profile entry = .ok finding) :
    finding.Fresh codec profile ∧ finding.Plain ∧ finding.kind ≠ .invalidReference := by
  rcases mem_foldedBoundaries hmem with ⟨source, hsource, hfolds, hkind⟩
  simp only [foldedFinding, bind_eq_ok, pure_eq_ok, ok.injEq] at h
  rcases h with ⟨_, _, built, hsimple, rfl⟩
  have hkinds := boundaryKinds_plain (mem_boundaries hsource).2
  rw [hkind] at hkinds
  have hspec := simple_spec (by decide) hsimple
  have hplain := plain_of_spec (by decide) hkinds.1 hkinds.2 hspec
  refine ⟨⟨hplain.1.1, hplain.1.2, hplain.1.3, hplain.1.4⟩,
    ⟨hplain.2.1, hplain.2.2, hplain.2.3, hplain.2.4⟩, ?_⟩
  -- Invalid references are not folded: their scope is the occurrence.
  intro hinvalid
  rw [show Finding.kind { built with memberCount := countU64 entry.2.length } = built.kind
    from rfl, hspec.2.1, ← hkind] at hinvalid
  rw [foldsByDocument, hinvalid] at hfolds
  exact absurd hfolds (by decide)

theorem boundaryFinding_spec {entry : FindingKind × Observation}
    (h : boundaryFinding codec profile (invalidAttributions comparisons) entry = .ok finding) :
    ∃ attribution, attribution ≠ .resolved ∧ finding.Fresh codec profile ∧
      finding.kind = entry.1 ∧ finding.attribution = attribution ∧
      finding.candidateFact = none ∧ finding.observationIds = [entry.2.id] ∧
      finding.location = observationLocation entry.2 .candidate := by
  unfold boundaryFinding at h
  refine ⟨_, ?_, simple_spec ?_ h⟩ <;>
  · split
    · cases hentry : (invalidAttributions comparisons)[entry.2.id]? with
      | none => decide
      | some attribution => exact invalidAttributions_ne_resolved hentry
    · decide

/-- The standing of every produced finding: plain, resting on a fact, or
    structural. An invalid-reference finding has an invalid candidate
    occurrence. -/
theorem Produced.standing (h : Produced codec documents comparisons profile inputs finding) :
    finding.Fresh codec profile ∧
      ((finding.Plain ∧ (finding.kind = .invalidReference →
          ∃ observation ∈ candidateObservations comparisons,
            observation.resolution.isInvalid = true)) ∨
        finding.Proven ∨
        (finding.kind.IsStructural ∧ FromGroup codec comparisons profile finding)) := by
  cases h with
  | document document findings hmem hrun hfinding =>
    have hspec := documentFindings_plain hrun hfinding
    exact ⟨hspec.1, Or.inl ⟨hspec.2.1, fun h => absurd h hspec.2.2⟩⟩
  | defect defect hmem hrun =>
    have hspec := proven_of_spec (by decide) (candidateFactFinding_spec hrun)
    exact ⟨hspec.1, Or.inr (Or.inl hspec.2)⟩
  | boundary entry hmem hfold hrun =>
    rcases boundaryFinding_spec hrun with ⟨attribution, hattribution, hspec⟩
    have hentry := mem_boundaries hmem
    have hkinds := boundaryKinds_plain hentry.2
    have hplain := plain_of_spec hattribution hkinds.1 hkinds.2 hspec
    refine ⟨hplain.1, Or.inl ⟨hplain.2, fun hinvalid => ⟨entry.2, hentry.1, ?_⟩⟩⟩
    rw [hspec.2.1] at hinvalid
    exact invalid_of_mem_boundaryKinds (hinvalid ▸ hentry.2)
  | folded entry hmem hrun =>
    have hspec := foldedFinding_plain hmem hrun
    exact ⟨hspec.1, Or.inl ⟨hspec.2.1, fun h => absurd h hspec.2.2⟩⟩
  | structural hgroup =>
    rcases hgroup with ⟨groups, group, hgroups, hmem, hrun⟩
    have hkeyed := structuralGroups_keyed hgroups _ _ hmem
    have hspec := structuralFinding_spec hkeyed.1 hrun
    refine ⟨hspec.1, Or.inr (Or.inr ⟨?_, groups, group, hgroups, hmem, hrun⟩)⟩
    rw [Finding.kind, hspec.2.1]
    exact hkeyed.2
  | compared comparison hmem hrun =>
    have hspec := comparisonFinding_plain hrun
    exact ⟨hspec.1, Or.inl ⟨hspec.2.1, fun h => absurd h hspec.2.2⟩⟩
  | governed seed hmem hrun =>
    simp only [governedFinding, bind_eq_ok] at hrun
    rcases hrun with ⟨_, _, hrun⟩
    have hspec := proven_of_spec (by decide) (candidateFactFinding_spec hrun)
    exact ⟨hspec.1, Or.inr (Or.inl hspec.2)⟩
  | claim group hmem hrun =>
    simp only [claimFinding, bind_eq_ok, pure_eq_ok, ok.injEq] at hrun
    rcases hrun with ⟨_, _, built, hbuilt, rfl⟩
    have hspec := proven_of_spec (Or.inr (Or.inr (Or.inl group.isClaim)))
      (candidateFactFinding_spec hbuilt)
    exact ⟨⟨hspec.1.1, hspec.1.2, hspec.1.3, hspec.1.4⟩,
      Or.inr (Or.inl ⟨hspec.2.1, hspec.2.2, hspec.2.3, hspec.2.4⟩)⟩
  | projection outcome hmem hrun =>
    unfold projectionFinding at hrun
    split at hrun
    · cases hrun
    · simp only [bind_eq_ok, pure_eq_ok, ok.injEq, Option.some.injEq] at hrun
      rcases hrun with ⟨built, hbuilt, rfl⟩
      have hspec := proven_of_spec (by decide) (candidateFactFinding_spec hbuilt)
      exact ⟨hspec.1, Or.inr (Or.inl hspec.2)⟩
  | translation entry hmem hrun =>
    have hspec := simple_spec (by decide) hrun
    have hplain := plain_of_spec (by decide) (by decide) (by decide) hspec
    exact ⟨hplain.1, Or.inl ⟨hplain.2, fun h => absurd h (by rw [hspec.2.1]; decide)⟩⟩

/-- A structural finding says by its side and by its attribution whether it
    rests on a candidate fact. -/
theorem FromGroup.spec (h : FromGroup codec comparisons profile finding) :
    (finding.candidateFact = none ↔ finding.attribution = .resolved) ∧
      (finding.location.side = .candidate ↔ finding.candidateFact ≠ none) := by
  rcases h with ⟨groups, group, hgroups, hmem, hrun⟩
  have hspec := structuralFinding_spec (structuralGroups_keyed hgroups _ _ hmem).1 hrun
  exact ⟨hspec.2.2.2.1, hspec.2.2.2.2⟩

/-- Two structural findings with one key are one finding. -/
theorem FromGroup.eq_of_key {other : Finding} (h : FromGroup codec comparisons profile finding)
    (h' : FromGroup codec comparisons profile other)
    (hkey : finding.findingKey = other.findingKey) : finding = other := by
  rcases h with ⟨groups, group, hgroups, hmem, hrun⟩
  rcases h' with ⟨groups', group', hgroups', hmem', hrun'⟩
  cases hgroups.symm.trans hgroups'
  rw [← hkey, hmem, Option.some.injEq] at hmem'
  subst hmem'
  rw [← hkey, hrun, ok.injEq, Option.some.injEq] at hrun'
  exact hrun'

/-- Every finding of a structural kind reports a group. -/
theorem Produced.fromGroup (h : Produced codec documents comparisons profile inputs finding)
    (hstructural : finding.kind.IsStructural) : FromGroup codec comparisons profile finding := by
  rcases h.standing.2 with ⟨hplain, _⟩ | hproven | ⟨_, hgroup⟩
  · exact absurd hstructural hplain.notStructural
  · have hfact := hproven.ofKind
    rcases hstructural with h | h <;> rw [h] at hfact <;> exact absurd hfact (by decide)
  · exact hgroup

/-- Findings with one key input agree on whether they rest on a fact. -/
theorem Produced.candidateFact_iff {other : Finding}
    (h : Produced codec documents comparisons profile inputs finding)
    (h' : Produced codec documents comparisons profile inputs other)
    (hinput : finding.keyInput = other.keyInput) :
    finding.candidateFact = none ↔ other.candidateFact = none := by
  have hkind : finding.kind = other.kind := by
    rw [Finding.kind, Finding.kind, hinput]
  have hkey : finding.findingKey = other.findingKey := by
    have hdigest := h.standing.1.keyed
    rw [hinput, h'.standing.1.keyed, ok.injEq] at hdigest
    exact hdigest.symm
  rcases h.standing.2 with ⟨hplain, _⟩ | hproven | ⟨hstructural, hgroup⟩ <;>
    rcases h'.standing.2 with ⟨hplain', _⟩ | hproven' | ⟨hstructural', hgroup'⟩
  · exact iff_of_true hplain.factless hplain'.factless
  · exact absurd (hkind ▸ hproven'.ofKind) hplain.notFact
  · exact absurd (hkind ▸ hstructural') hplain.notStructural
  · exact absurd (hkind ▸ hproven.ofKind) hplain'.notFact
  · exact iff_of_false hproven.hasFact hproven'.hasFact
  · have hfact := hkind ▸ hproven.ofKind
    rcases hstructural' with h | h <;> rw [h] at hfact <;> exact absurd hfact (by decide)
  · exact absurd (hkind ▸ hstructural) hplain'.notStructural
  · have hfact := hkind ▸ hproven'.ofKind
    rcases hstructural with h | h <;> rw [h] at hfact <;> exact absurd hfact (by decide)
  · rw [hgroup.eq_of_key hgroup' hkey]

/-- An invalid candidate occurrence has its finding, when the run succeeds. -/
theorem produced_of_invalid
    (h : constructed codec documents comparisons profile inputs = .ok findings)
    (hmem : observation ∈ candidateObservations comparisons)
    (hinvalid : observation.resolution.isInvalid = true) :
    ∃ finding ∈ findings, finding.kind = .invalidReference ∧ finding.candidateFact = none ∧
      finding.Fresh codec profile ∧ finding.attribution ≠ .resolved ∧
      finding.observationIds = [observation.id] ∧ finding.location.side = .candidate := by
  have hkind : FindingKind.invalidReference ∈ boundaryKinds observation := by
    cases hresolution : observation.resolution <;> rw [hresolution] at hinvalid <;>
      simp only [Resolution.isInvalid, Bool.false_eq_true] at hinvalid
    simp [boundaryKinds, hresolution, resolutionKinds]
  have hentry : (FindingKind.invalidReference, observation) ∈ boundaries comparisons :=
    mem_flatMap.mpr ⟨observation, hmem, mem_map_of_mem hkind⟩
  have hfold : foldsByDocument (FindingKind.invalidReference, observation) = false := rfl
  -- The loop over the occurrences reached this one, since the run succeeded.
  have hran : ∃ finding, boundaryFinding codec profile (invalidAttributions comparisons)
      (FindingKind.invalidReference, observation) = .ok finding := by
    simp only [constructed, ordinary, bind_eq_ok, pure_eq_ok, ok.injEq] at h
    rcases h with ⟨_, ⟨_, _, _, _, occurrences, hoccurrences, _⟩, _⟩
    have hfiltered : (FindingKind.invalidReference, observation) ∈
        (boundaries comparisons).filter (fun entry => !foldsByDocument entry) :=
      mem_filter.mpr ⟨hentry, by rw [hfold]; rfl⟩
    exact exists_of_mapM hoccurrences hfiltered
  rcases hran with ⟨finding, hfinding⟩
  rcases boundaryFinding_spec hfinding with
    ⟨attribution, hattribution, hfresh, hk, hattr, hfact, hids, hlocation⟩
  refine ⟨finding, (mem_constructed h finding).mpr (.boundary _ hentry hfold hfinding), hk,
    hfact, hfresh, hattr ▸ hattribution, hids, ?_⟩
  rw [hlocation]
  rfl

end Produced

end Amiss
