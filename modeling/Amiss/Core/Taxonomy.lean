import Amiss.Core.Wire

/-!
# The Finding Taxonomy

The closed kinds a finding can have, the disposition the built-in table gives
each of them under each profile, and the rows by which a repository policy or
an organization floor raises some of them.

A `RaiseTable` is what a validated control contributes: at most one row for a
kind, and only for the kinds that can be promoted. `dispositionRows` builds it
from the control's sorted rows, so the two facts are proved once.

## Main definitions

* `FindingKind`, `FindingKind.metadata`: The kinds and their classification.
* `FindingKind.builtInDisposition`: The first policy step of a kind.
* `FindingDispositions`: The rows of a validated control.
* `RaiseTable`: The minimum dispositions a control declares.
* `dispositionRows`: The table a control declares.
-/

namespace Amiss

/-- The closed disposition values a policy step can produce. -/
inductive Disposition where
  | record
  | warn
  | fail
  deriving DecidableEq

instance : LinearOrder Disposition :=
  orderBy Disposition.ctorIdx (Function.LeftInverse.injective Disposition.ofNat_ctorIdx)

/-- How strictly a run treats its findings. -/
inductive Profile where
  | observe
  | enforceIntroduced
  | enforce
  deriving DecidableEq

def Profile.enforces : Profile → Bool
  | .observe => false
  | .enforceIntroduced | .enforce => true

/-- The profile whose built-in table applies. -/
def Profile.policyDefaults : Profile → Profile
  | .observe => .observe
  | .enforceIntroduced | .enforce => .enforce

def Profile.name : Profile → String
  | .observe => "observe"
  | .enforceIntroduced => "enforce-introduced"
  | .enforce => "enforce"

/-- The four finding scopes. -/
inductive FindingScope where
  | reference
  | observation
  | document
  | control
  deriving DecidableEq

/-- The complete closed finding taxonomy, in declaration order. -/
inductive FindingKind where
  | explicitTargetMissing
  | explicitTargetTypeMismatch
  | invalidReference
  | targetDeclaredUntracked
  | unsupportedReferenceSemantics
  | unsupportedDocumentFormat
  | unsupportedTargetKind
  | unsupportedVersionScope
  | unsupportedCapability
  | dependencyChangedSubjectUnchanged
  | dependencyAndSubjectCochanged
  | subjectChanged
  | translationDrift
  | explicitReferenceRemoved
  | documentRemoved
  | opaqueMdxRegion
  | opaqueHtmlRegion
  | observationCorrelationAmbiguous
  | unlinkedDocument
  | siteBuildDefect
  | policyWeakened
  | coverageReduced
  | controlPlaneChanged
  | debtWorsened
  | debtExpired
  | waiverInvalid
  | claimBroken
  | claimTargetMissing
  | projectionDrift
  deriving DecidableEq

instance : LinearOrder FindingKind :=
  orderBy FindingKind.ctorIdx (Function.LeftInverse.injective FindingKind.ofNat_ctorIdx)

/-- The kebab-case spelling. -/
def FindingKind.name : FindingKind → String
  | .explicitTargetMissing => "explicit-target-missing"
  | .explicitTargetTypeMismatch => "explicit-target-type-mismatch"
  | .invalidReference => "invalid-reference"
  | .targetDeclaredUntracked => "target-declared-untracked"
  | .unsupportedReferenceSemantics => "unsupported-reference-semantics"
  | .unsupportedDocumentFormat => "unsupported-document-format"
  | .unsupportedTargetKind => "unsupported-target-kind"
  | .unsupportedVersionScope => "unsupported-version-scope"
  | .unsupportedCapability => "unsupported-capability"
  | .dependencyChangedSubjectUnchanged => "dependency-changed-subject-unchanged"
  | .dependencyAndSubjectCochanged => "dependency-and-subject-cochanged"
  | .subjectChanged => "subject-changed"
  | .translationDrift => "translation-drift"
  | .explicitReferenceRemoved => "explicit-reference-removed"
  | .documentRemoved => "document-removed"
  | .opaqueMdxRegion => "opaque-mdx-region"
  | .opaqueHtmlRegion => "opaque-html-region"
  | .observationCorrelationAmbiguous => "observation-correlation-ambiguous"
  | .unlinkedDocument => "unlinked-document"
  | .siteBuildDefect => "site-build-defect"
  | .policyWeakened => "policy-weakened"
  | .coverageReduced => "coverage-reduced"
  | .controlPlaneChanged => "control-plane-changed"
  | .debtWorsened => "debt-worsened"
  | .debtExpired => "debt-expired"
  | .waiverInvalid => "waiver-invalid"
  | .claimBroken => "claim-broken"
  | .claimTargetMissing => "claim-target-missing"
  | .projectionDrift => "projection-drift"

/-- The policy classification assigned to one kind by the built-in taxonomy. -/
structure FindingMetadata where
  scope : FindingScope
  observeDisposition : Disposition
  enforceDisposition : Disposition
  deriving DecidableEq

def FindingKind.metadata : FindingKind → FindingMetadata
  | .explicitTargetMissing | .explicitTargetTypeMismatch => ⟨.reference, .warn, .fail⟩
  | .invalidReference | .siteBuildDefect => ⟨.observation, .warn, .fail⟩
  | .targetDeclaredUntracked | .documentRemoved | .opaqueMdxRegion | .opaqueHtmlRegion
  | .unlinkedDocument | .unsupportedReferenceSemantics | .unsupportedDocumentFormat
  | .unsupportedTargetKind | .unsupportedVersionScope => ⟨.document, .record, .record⟩
  | .unsupportedCapability => ⟨.control, .fail, .fail⟩
  | .dependencyChangedSubjectUnchanged => ⟨.observation, .warn, .warn⟩
  | .translationDrift => ⟨.document, .warn, .warn⟩
  | .dependencyAndSubjectCochanged | .subjectChanged | .explicitReferenceRemoved
  | .observationCorrelationAmbiguous => ⟨.observation, .record, .record⟩
  | .policyWeakened | .coverageReduced | .controlPlaneChanged | .debtWorsened | .debtExpired
  | .waiverInvalid => ⟨.control, .fail, .fail⟩
  | .claimBroken | .claimTargetMissing | .projectionDrift => ⟨.control, .warn, .fail⟩

/-- The first policy-step result of a kind, per profile. -/
def FindingKind.builtInDisposition (kind : FindingKind) (profile : Profile) : Disposition :=
  if profile.enforces then kind.metadata.enforceDisposition
  else kind.metadata.observeDisposition

/-- The kinds a control may raise. -/
inductive PromotableFindingKind where
  | explicitTargetMissing
  | explicitTargetTypeMismatch
  | invalidReference
  deriving DecidableEq

instance : LinearOrder PromotableFindingKind :=
  orderBy PromotableFindingKind.ctorIdx
    (Function.LeftInverse.injective PromotableFindingKind.ofNat_ctorIdx)

def PromotableFindingKind.kind : PromotableFindingKind → FindingKind
  | .explicitTargetMissing => .explicitTargetMissing
  | .explicitTargetTypeMismatch => .explicitTargetTypeMismatch
  | .invalidReference => .invalidReference

theorem PromotableFindingKind.kind_injective : Function.Injective PromotableFindingKind.kind := by
  intro a b h
  cases a <;> cases b <;> first | rfl | cases h

/-- The kinds debt and waivers may name. -/
inductive EligibleFindingKind where
  | explicitTargetMissing
  | explicitTargetTypeMismatch
  deriving DecidableEq

def EligibleFindingKind.name : EligibleFindingKind → String
  | .explicitTargetMissing => "explicit-target-missing"
  | .explicitTargetTypeMismatch => "explicit-target-type-mismatch"

def EligibleFindingKind.kind : EligibleFindingKind → FindingKind
  | .explicitTargetMissing => .explicitTargetMissing
  | .explicitTargetTypeMismatch => .explicitTargetTypeMismatch

/-- The dispositions a control may ask for. -/
inductive PolicyDisposition where
  | warn
  | fail
  deriving DecidableEq

def PolicyDisposition.disposition : PolicyDisposition → Disposition
  | .warn => .warn
  | .fail => .fail

/-- One row of a control: the least disposition of one kind. -/
structure FindingDisposition where
  findingKind : PromotableFindingKind
  disposition : PolicyDisposition
  deriving DecidableEq

/-- The rows of a validated control, strictly sorted by kind. -/
structure FindingDispositions where
  rows : List FindingDisposition
  sorted : (rows.map FindingDisposition.findingKind).Pairwise (· < ·)

/-- The minimum dispositions one control declares. -/
structure RaiseTable where
  rows : List (FindingKind × Disposition)
  unique : (rows.map Prod.fst).Nodup
  promotable : ∀ row ∈ rows, ∃ kind : PromotableFindingKind, row.1 = kind.kind
  deriving DecidableEq

/-- The table of a control that declares nothing. -/
def RaiseTable.empty : RaiseTable :=
  ⟨[], List.nodup_nil, fun _ h => absurd h List.not_mem_nil⟩

/-- The table a control declares. -/
def dispositionRows (dispositions : FindingDispositions) : RaiseTable where
  rows := dispositions.rows.map (fun row => (row.findingKind.kind, row.disposition.disposition))
  unique := by
    have hnodup : (dispositions.rows.map FindingDisposition.findingKind).Nodup :=
      dispositions.sorted.imp (fun h => ne_of_lt h)
    rw [List.map_map]
    simpa only [List.map_map, Function.comp_def] using
      hnodup.map PromotableFindingKind.kind_injective
  promotable := by
    intro row hrow
    rcases List.mem_map.mp hrow with ⟨source, _, rfl⟩
    exact ⟨source.findingKind, rfl⟩

/-- The minimum a table declares for a kind, if any. -/
def RaiseTable.minimum (table : RaiseTable) (kind : FindingKind) : Option Disposition :=
  (table.rows.find? (fun row => row.1 = kind)).map Prod.snd

/-- The first row of a kind is its only one. -/
theorem RaiseTable.minimum_eq_some_iff (table : RaiseTable) (kind : FindingKind)
    (disposition : Disposition) :
    table.minimum kind = some disposition ↔ (kind, disposition) ∈ table.rows := by
  unfold RaiseTable.minimum
  have hunique := table.unique
  generalize table.rows = rows at hunique
  induction rows with
  | nil => simp
  | cons row rows ih =>
    rw [List.map_cons, List.nodup_cons] at hunique
    rw [List.find?_cons, List.mem_cons]
    by_cases hkind : row.1 = kind
    · -- No later row has this kind.
      have hnone : (kind, disposition) ∉ rows := by
        intro hmem
        exact hunique.1 (hkind ▸ List.mem_map_of_mem hmem)
      simp only [hkind, decide_true, Option.map_some, Option.some.injEq, hnone, or_false]
      rw [← hkind, Prod.mk.injEq, eq_self_iff_true, true_and, eq_comm]
    · simp only [hkind, decide_false, ih hunique.2]
      refine ⟨Or.inr, fun h => h.resolve_left (fun heq => hkind ?_)⟩
      rw [← heq]

end Amiss
