import Amiss.Core.Controls

/-!
# Evaluation

The full projection of a run into findings: the ordinary findings, the raising
steps of the repository policy and the organization floor, the easing of
pre-existing failures under the introduced-only profile, and debt and waivers
with their defect findings.

The loops of the sources that rewrite each finding in place are maps here. The
maps of valid debt and waiver items are filled from all items first and applied
to the findings afterwards, by key.

## Main definitions

* `Effects`: What the verified controls contribute.
* `ordinary`: The findings before any policy.
* `applyRaises`: The raise-only repository and floor steps.
* `easeIntroduced`: The step of the introduced-only profile.
* `debtPass`, `waiverPass`, `applyExceptions`: Exceptions and their defects.
* `evaluateWithSite`: The whole run.
-/

namespace Amiss

structure DebtItem where
  debtId : ArtifactId
  findingKey : Digest
  acceptedFactDigest : Digest
  owner : OwnerId
  reason : String
  createdAt : UtcInstant
  expiresAt : UtcInstant
  deriving DecidableEq

structure DebtContext where
  digest : Digest
  adoptionTree : TreeIdentity
  items : List DebtItem
  deriving DecidableEq

/-- A waiver item; of the fact it authorizes only the kind is read. -/
structure WaiverItem where
  waiverId : ArtifactId
  findingKey : Digest
  authorizedFactKind : EligibleFindingKind
  authorizedFactDigest : Digest
  candidateTree : TreeIdentity
  owner : OwnerId
  issuer : OwnerId
  reason : String
  createdAt : UtcInstant
  notBefore : UtcInstant
  expiresAt : UtcInstant
  deriving DecidableEq

structure WaiverContext where
  digest : Digest
  candidateTree : TreeIdentity
  items : List WaiverItem
  authorizedIssuers : List OwnerId
  waivableKinds : List EligibleFindingKind
  deriving DecidableEq

/-- The kind of finding a resolution is a structural fact of. -/
def Resolution.eligibleKind : Resolution RepoPath → Option EligibleFindingKind
  | .missing _ => some .explicitTargetMissing
  | .typeMismatch _ => some .explicitTargetTypeMismatch
  | _ => none

/-- The fact an exception names is one occurrence of an eligible kind, and its
    kind, its key and its resolution agree. -/
def FactInput.validate (fact : FactInput) : Bool :=
  match fact.evidence with
  | .reference multiplicity resolution =>
    match resolution.eligibleKind with
    | some kind =>
      decide (fact.findingKind = fact.keyInput.findingKind ∧ fact.findingKind = kind.kind) &&
        decide (multiplicity = 1)
    | none => false
  | _ => false

variable (codec : Codec)

/-- The key digest and the fact digest of a fact an exception may name. -/
def factDigests (fact : FactInput) : Option (Digest × Digest) :=
  if fact.validate then do
    let key ← (keyDigest codec fact.keyInput).toOption
    let digest ← (factDigest codec fact).toOption
    pure (key, digest)
  else none

/-- The checks of a debt item and the fact it records. -/
def validateDebtItem (fact : FactInput) (item : DebtItem) : Bool :=
  decide (factDigests codec fact = some (item.findingKey, item.acceptedFactDigest)) &&
    decide (item.createdAt < item.expiresAt)

/-- The checks of a waiver item and the fact it records. -/
def validateWaiverItem (fact : FactInput) (item : WaiverItem) : Bool :=
  decide (fact.findingKind = item.authorizedFactKind.kind) &&
    decide (factDigests codec fact = some (item.findingKey, item.authorizedFactDigest)) &&
    decide (item.createdAt ≤ item.notBefore ∧ item.notBefore < item.expiresAt)

/-- The items of a validated snapshot. -/
structure DebtContext.Validated (codec : Codec) (context : DebtContext) : Prop where
  items : ∀ item ∈ context.items, ∃ fact, validateDebtItem codec fact item = true
  distinct : (context.items.map DebtItem.findingKey).Nodup

/-- The items of a validated bundle. -/
structure WaiverContext.Validated (codec : Codec) (context : WaiverContext) : Prop where
  items : ∀ item ∈ context.items, ∃ fact, validateWaiverItem codec fact item = true
  distinct : (context.items.map (fun item => (item.candidateTree, item.findingKey))).Nodup

/-- What the verified controls contribute to an evaluation. -/
structure Effects where
  raised : RaiseTable
  floorRaised : RaiseTable
  controls : List ControlSeed
  baseDigest : Option Digest
  candidateDigest : Option Digest
  debt : Option DebtContext
  waiver : Option WaiverContext
  time : Option UtcInstant

def Effects.default : Effects :=
  ⟨RaiseTable.empty, RaiseTable.empty, [], none, none, none, none, none⟩

structure SiteDefect where
  id : Digest
  evidence : Evidence
  source : Option RepoPath
  memberCount : Nat

structure SiteEvaluation where
  navigation : Option SiteNavigation
  defects : List SiteDefect

def SiteEvaluation.default : SiteEvaluation := ⟨none, []⟩

structure GovernedInputs where
  site : SiteEvaluation
  governed : List GovernedSeed
  claims : List ClaimGroup
  projections : List ProjectionOutcome
  translations : List (RepoPath × LocationSide)

/-- The analysis error the evaluation itself can report. -/
inductive AnalysisErrorCode where
  | exceptionOverlap
  deriving DecidableEq

def Resolution.isInvalid : Resolution RepoPath → Bool
  | .invalid _ => true
  | _ => false

/-- The attribution of the primary candidate of a row, where it is invalid. -/
def invalidAttribution (comparison : Comparison) (candidate : Observation) : Attribution :=
  if comparison.outcome = .ambiguous then .unknown
  else
    match comparison.base with
    | none => .introduced
    | some base =>
      if base.resolution.isInvalid ∧
          base.rawDestinationDigest = candidate.rawDestinationDigest then .preExisting
      else .introduced

/-- The attributions a row assigns to its invalid candidates, in order. -/
def rowAttributions (comparison : Comparison) : List (Digest × Attribution) :=
  (comparison.candidate.toList.filter (fun candidate => candidate.resolution.isInvalid)).map
      (fun candidate => (candidate.id, invalidAttribution comparison candidate)) ++
    (comparison.alternativesCandidate.filter (fun candidate => candidate.resolution.isInvalid)).map
      (fun candidate => (candidate.id, .unknown))

variable (comparisons : List Comparison)

def invalidAttributions : BTreeMap Digest Attribution :=
  (comparisons.flatMap rowAttributions).foldl
    (fun rows entry => rows.insert entry.1 entry.2) ∅

/-- Every candidate occurrence of the comparison, row by row. -/
def candidateObservations : List Observation :=
  comparisons.flatMap Comparison.candidateMembers

/-- The boundary kinds one candidate occurrence calls for. -/
def boundaryKinds (observation : Observation) : List FindingKind :=
  (resolutionKinds observation.resolution).boundary.toList ++
    (if observation.resolution.isLfsPointer then [.unsupportedTargetKind] else [])

/-- Every candidate occurrence with each of its boundary kinds. -/
def boundaries : List (FindingKind × Observation) :=
  (candidateObservations comparisons).flatMap (fun observation =>
    (boundaryKinds observation).map (fun kind => (kind, observation)))

/-- The boundary findings of a document are folded into one per kind. -/
def foldsByDocument (entry : FindingKind × Observation) : Bool :=
  entry.1.metadata.scope == .document

variable (profile : Profile)

/-- The boundary finding of one occurrence. -/
def boundaryFinding (invalid : BTreeMap Digest Attribution)
    (entry : FindingKind × Observation) : Except ScanError Finding :=
  let observation := entry.2
  let attribution : Attribution :=
    if observation.resolution.isInvalid then invalid[observation.id]?.getD .unknown
    else .notApplicable
  simple codec entry.1 (.observation observation.id) attribution [observation.id]
    (observationLocation observation .candidate) profile

/-- The folded boundary occurrences, by kind and document. -/
def foldedBoundaries :
    BTreeMap (FindingKind ×ₗ RepoPath) (List Observation) :=
  collect (fun entry => toLex (entry.1, entry.2.document)) []
    (fun members entry => members ++ [entry.2])
    ((boundaries comparisons).filter foldsByDocument)

/-- The finding of one document's occurrences of one kind. -/
def foldedFinding
    (entry : (FindingKind ×ₗ RepoPath) × List Observation) : Except ScanError Finding := do
  let kind := (ofLex entry.1).1
  let members := entry.2
  let representative ← okOrInternal
    (leastBy (fun o : Observation => toLex (spanOrder o.span, o.id)) members)
  let finding ← simple codec kind (.document (ofLex entry.1).2) .notApplicable
    (sortBy id (members.map Observation.id)) (observationLocation representative .candidate)
    profile
  pure { finding with memberCount := countU64 members.length }

/-- The finding of one site build defect. -/
def defectFinding (defect : SiteDefect) :
    Except ScanError Finding :=
  candidateFactFinding codec .siteBuildDefect (.observation defect.id) defect.evidence
    defect.memberCount ⟨.candidate, defect.source, none, none⟩ profile

variable (documents : List DocumentInput)

/-- The exact ordinary-finding projection, in finding-key order. -/
def ordinary (comparisons : List Comparison)
    (profile : Profile) (site : SiteEvaluation) : Except ScanError (List Finding) := do
  let documented ← documents.mapM (documentFindings codec profile site.navigation)
  let defects ← site.defects.mapM (defectFinding codec profile)
  let occurrences ← ((boundaries comparisons).filter (fun entry => !foldsByDocument entry)).mapM
    (boundaryFinding codec profile (invalidAttributions comparisons))
  let folded ← (foldedBoundaries comparisons).toList.mapM (foldedFinding codec profile)
  let structural ← structuralFindings codec comparisons profile
  let compared ← comparisons.mapM (comparisonFinding codec profile)
  pure (sortBy Finding.findingKey
    (documented.flatten ++ defects ++ occurrences ++ folded ++ structural ++ compared.reduceOption))

/-- A matching rule applies only when strictly raising. -/
def applyRaise (table : RaiseTable) (source : PolicySource) (label : String)
    (finding : Finding) : Finding :=
  match table.minimum finding.kind with
  | none => finding
  | some target =>
    if finding.current < target then
      { finding with steps := finding.steps ++
          [⟨source, label ++ "/" ++ finding.kind.name, finding.current, target⟩] }
    else finding

variable (policy : Effects)

/-- The raising steps of one finding. Only a finding with a candidate fact that
    is not resolved is raised. -/
def applyRaises (finding : Finding) : Finding :=
  if finding.attribution = .resolved ∨ finding.candidateFact = none then finding
  else
    let raised := applyRaise policy.floorRaised .organizationFloor "floor"
      (applyRaise policy.raised .repositoryPolicy "repository" finding)
    { raised with
      configuredDisposition := raised.current
      effectiveDisposition := raised.current }

/-- The rule of the step that eases a pre-existing failure. -/
def enforceIntroducedRule (kind : FindingKind) : String :=
  "scanner-policy-defaults/" ++ kind.name ++ "/" ++ Profile.enforceIntroduced.name

/-- Under the introduced-only profile a pre-existing failure only warns. -/
def easeIntroduced (finding : Finding) : Finding :=
  if profile = .enforceIntroduced ∧ finding.effectiveDisposition = .fail ∧
      finding.attribution = .preExisting then
    { finding with
      steps := finding.steps ++ [⟨.builtIn, enforceIntroducedRule finding.kind, .fail, .warn⟩]
      effectiveDisposition := .warn }
  else finding

/-- The first finding of each key that has a candidate fact. -/
def exceptionTargets (findings : List Finding) : BTreeMap Digest Finding :=
  (findings.filter (fun finding => finding.candidateFact.isSome)).foldl
    (fun targets finding => targets.insertIfNew finding.findingKey finding) ∅

/-- The digest of a finding's current candidate fact. -/
def Finding.factDigest (finding : Finding) : Option Digest :=
  finding.candidateFact.map FindingFact.digest

def debtDiagnostic (context : DebtContext) (item : DebtItem) (current : Digest) :
    ExceptionDiagnostic :=
  .debt item.debtId context.digest context.adoptionTree item.acceptedFactDigest current
    item.owner item.reason item.createdAt item.expiresAt

variable (targets : BTreeMap Digest Finding)

/-- The current fact a debt item is about, if a target has its key. -/
def debtCurrent (item : DebtItem) : Option Digest :=
  targets[item.findingKey]?.bind Finding.factDigest

variable (instant : UtcInstant)

/-- The defects of a debt item whose key names a target. -/
def debtDefects (item : DebtItem) (current : Digest) :
    List (FindingKind × String) :=
  (if item.expiresAt ≤ instant then [(.debtExpired, "expired")] else []) ++
    (if current = item.acceptedFactDigest then [] else [(.debtWorsened, "fact")])

/-- The findings of one debt item. -/
def debtFindings (context : DebtContext)
    (targets : BTreeMap Digest Finding) (instant : UtcInstant) (item : DebtItem) :
    Except ScanError (List Finding) :=
  match debtCurrent targets item with
  | none => .ok []
  | some current =>
    (debtDefects instant item current).mapM (fun defect =>
      controlRow codec profile defect.1 ("debt/" ++ item.debtId.raw ++ "/" ++ defect.2) none
        none (some context.digest) (some (debtDiagnostic context item current)))

/-- The debt item applies: its key names a target, and it has no defect. -/
def debtApplies (item : DebtItem) :
    Bool :=
  match debtCurrent targets item with
  | none => false
  | some current => (debtDefects instant item current).isEmpty

/-- The applying debt items by finding key, a later one over an earlier one. -/
def debtValid :
    BTreeMap Digest DebtItem :=
  match policy.debt with
  | none => ∅
  | some context =>
    (context.items.filter (debtApplies targets instant)).foldl
      (fun valid item => valid.insert item.findingKey item) ∅

/-- The findings of the debt pass. -/
def debtPass :
    Except ScanError (List Finding) :=
  match policy.debt with
  | none => .ok []
  | some context => do
    let findings ← context.items.mapM (debtFindings codec profile context targets instant)
    pure findings.flatten

variable (context : WaiverContext)

def waiverDiagnostic (item : WaiverItem) (current : Option Digest) :
    ExceptionDiagnostic :=
  .waiver item.waiverId context.digest item.candidateTree item.findingKey
    item.authorizedFactDigest item.issuer item.notBefore current item.owner item.reason
    item.createdAt item.expiresAt

/-- The defects of a selected waiver item, in their order. The last two apply
    only when the key names a target. -/
def waiverDefects (targets : BTreeMap Digest Finding)
    (instant : UtcInstant) (item : WaiverItem) : List String :=
  (if instant < item.notBefore then ["not-yet"] else []) ++
    (if item.expiresAt ≤ instant then ["expired"] else []) ++
    (if item.issuer ∈ context.authorizedIssuers then [] else ["issuer"]) ++
    (if item.authorizedFactKind ∈ context.waivableKinds then [] else ["kind"]) ++
    (if item.owner = item.issuer then ["same-owner"] else []) ++
    match targets[item.findingKey]? with
    | none => []
    | some target =>
      (if target.kind.name = item.authorizedFactKind.name then [] else ["key"]) ++
        (if target.factDigest = some item.authorizedFactDigest then [] else ["fact"])

/-- The items that name the selected candidate tree. -/
def WaiverContext.selected (context : WaiverContext) : List WaiverItem :=
  context.items.filter (fun item => item.candidateTree = context.candidateTree)

/-- The findings of one selected waiver item. -/
def waiverFindings (targets : BTreeMap Digest Finding) (instant : UtcInstant) (item : WaiverItem) :
    Except ScanError (List Finding) :=
  (waiverDefects context targets instant item).mapM (fun suffix =>
    controlRow codec profile .waiverInvalid ("waiver/" ++ item.waiverId.raw ++ "/" ++ suffix)
      none none (some context.digest)
      (some (waiverDiagnostic context item
        (targets[item.findingKey]?.bind Finding.factDigest))))

def waiverApplies (targets : BTreeMap Digest Finding)
    (instant : UtcInstant) (item : WaiverItem) : Bool :=
  (waiverDefects context targets instant item).isEmpty && targets[item.findingKey]?.isSome

/-- The applying waiver items by finding key. -/
def waiverValid :
    BTreeMap Digest WaiverItem :=
  match policy.waiver with
  | none => ∅
  | some context =>
    (context.selected.filter (waiverApplies context targets instant)).foldl
      (fun valid item => valid.insert item.findingKey item) ∅

/-- The findings of the waiver pass. -/
def waiverPass :
    Except ScanError (List Finding) :=
  match policy.waiver with
  | none => .ok []
  | some context => do
    let findings ← context.selected.mapM (waiverFindings codec profile context targets instant)
    pure findings.flatten

/-- A valid debt step is retained even as a no-op. -/
def applyDebt (context : DebtContext) (item : DebtItem) (finding : Finding) : Finding :=
  { finding with
    steps := finding.steps ++ [⟨.debtSnapshot, "debt/" ++ item.debtId.raw, finding.current, .warn⟩]
    effectiveDisposition := .warn
    debt := some {
      debtId := item.debtId
      debtSnapshotDigest := context.digest
      adoptionTree := context.adoptionTree
      acceptedFactDigest := item.acceptedFactDigest
      owner := item.owner
      reason := item.reason
      createdAt := item.createdAt
      expiresAt := item.expiresAt } }

/-- A waiver step is exactly from fail to warn. -/
def applyWaiver (item : WaiverItem) (finding : Finding) : Finding :=
  if finding.current = .fail then
    { finding with
      steps := finding.steps ++ [⟨.waiverBundle, "waiver/" ++ item.waiverId.raw, .fail, .warn⟩]
      effectiveDisposition := .warn
      waiver := some {
        waiverId := item.waiverId
        waiverBundleDigest := context.digest
        candidateTree := item.candidateTree
        authorizedFactDigest := item.authorizedFactDigest
        issuer := item.issuer
        notBefore := item.notBefore
        owner := item.owner
        reason := item.reason
        createdAt := item.createdAt
        expiresAt := item.expiresAt } }
  else finding

/-- The application law of one finding: a finding matched by both valid items
    applies neither. -/
def applyValidException (debts : BTreeMap Digest DebtItem)
    (waivers : BTreeMap Digest WaiverItem) (finding : Finding) : Finding :=
  match debts[finding.findingKey]?, waivers[finding.findingKey]? with
  | some item, none =>
    match policy.debt with
    | some context => applyDebt context item finding
    | none => finding
  | none, some item =>
    match policy.waiver with
    | some context => applyWaiver context item finding
    | none => finding
  | some _, some _ | none, none => finding

/-- Both kinds of exception are valid for one finding. -/
def overlaps (debts : BTreeMap Digest DebtItem) (waivers : BTreeMap Digest WaiverItem)
    (finding : Finding) : Bool :=
  debts[finding.findingKey]?.isSome && waivers[finding.findingKey]?.isSome

/-- The findings with their exceptions applied, the defect findings, and the
    overlap errors. -/
def applyExceptions (findings : List Finding) :
    Except ScanError (List Finding × List Finding × List AnalysisErrorCode) :=
  if policy.debt = none ∧ policy.waiver = none then .ok (findings, [], [])
  else
    match policy.time with
    | none => .ok (findings, [], [])
    | some instant => do
      let targets := exceptionTargets findings
      let debtDefects ← debtPass codec profile policy targets instant
      let waiverDefects ← waiverPass codec profile policy targets instant
      let debts := debtValid policy targets instant
      let waivers := waiverValid policy targets instant
      pure (findings.map (applyValidException policy debts waivers), debtDefects ++ waiverDefects,
        if findings.any (overlaps debts waivers) then [.exceptionOverlap] else [])

/-- The finding of one control seed. -/
def controlFinding (seed : ControlSeed) :
    Except ScanError Finding :=
  controlRow codec profile seed.kind seed.ruleId seed.controlPath policy.baseDigest
    policy.candidateDigest none

/-- The finding of a translation that fell behind. -/
def translationFinding (entry : RepoPath × LocationSide) :
    Except ScanError Finding :=
  simple codec .translationDrift (.document entry.1) .notApplicable []
    ⟨entry.2, some entry.1, none, none⟩ profile

/-- Every finding before a policy step is taken. -/
def constructed (comparisons : List Comparison)
    (profile : Profile) (inputs : GovernedInputs) : Except ScanError (List Finding) := do
  let ordinaries ← ordinary codec documents comparisons profile inputs.site
  let governed ← inputs.governed.mapM (governedFinding codec profile)
  let claims ← inputs.claims.mapM (claimFinding codec profile)
  let projections ← inputs.projections.mapM (projectionFinding codec profile)
  let translations ← inputs.translations.mapM (translationFinding codec profile)
  pure (ordinaries ++ governed ++ claims ++ projections.reduceOption ++ translations)

def evaluateWithSite (documents : List DocumentInput)
    (comparisons : List Comparison) (profile : Profile) (policy : Effects)
    (inputs : GovernedInputs) : Except ScanError (List Finding × List AnalysisErrorCode) := do
  let findings ← constructed codec documents comparisons profile inputs
  let leveled := (findings.map (applyRaises policy)).map (easeIntroduced profile)
  let excepted ← applyExceptions codec profile policy leveled
  let controls ← policy.controls.mapM (controlFinding codec profile policy)
  pure (sortBy Finding.findingKey (excepted.1 ++ excepted.2.1 ++ controls), excepted.2.2)

end Amiss
