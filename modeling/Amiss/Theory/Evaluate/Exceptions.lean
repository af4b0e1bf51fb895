import Amiss.Theory.Evaluate.Run

/-!
# Exceptions

What a debt item or a waiver item can do to the findings of a run.

The two passes check an item against one target, the first finding of its key
that has a fact, and the application goes by key to every finding. What makes
the target and the finding one is the fact the item recorded: a validated item
names a structural kind, so with a collision-free key digest the finding is
structural, and a structural finding is the only one of its key.

`Leveled` collects what the application needs to know of the list it is given,
and `constructed_leveled` says the run provides it. The rest of the module is
about any such list.

## Main definitions

* `DebtItem.Covers`, `WaiverItem.Covers`: What a valid item says of a finding.
* `ExceptionLaw`: How a finding may leave the exceptions.
* `Leveled`: A list of findings ready for the exceptions.

## Theorems

* `Leveled.debtValid_iff`, `Leveled.waiverValid_iff`: A finding's key is in the
  map of valid items exactly when an item covers the finding.
* `evaluateWithSite_exceptionLaw`: Every finding of a run keeps the law.
-/

namespace Amiss

open Option

open Fallible

/-- The debt item names the finding and its current fact, and has not expired. -/
structure DebtItem.Covers (context : DebtContext) (instant : UtcInstant) (finding : Finding)
    (item : DebtItem) : Prop where
  listed : item ∈ context.items
  key : item.findingKey = finding.findingKey
  fact : finding.factDigest = some item.acceptedFactDigest
  unexpired : instant < item.expiresAt

/-- The waiver item names the selected tree, the finding and its current fact,
    is in force, and comes from an authorized issuer other than its owner, for
    a waivable kind that is the finding's. -/
structure WaiverItem.Covers (context : WaiverContext) (instant : UtcInstant) (finding : Finding)
    (item : WaiverItem) : Prop where
  listed : item ∈ context.items
  tree : item.candidateTree = context.candidateTree
  key : item.findingKey = finding.findingKey
  fact : finding.factDigest = some item.authorizedFactDigest
  begun : item.notBefore ≤ instant
  unexpired : instant < item.expiresAt
  issued : item.issuer ∈ context.authorizedIssuers
  separate : item.owner ≠ item.issuer
  waivable : item.authorizedFactKind ∈ context.waivableKinds
  kind : finding.kind = item.authorizedFactKind.kind

/-- How a finding may leave the exceptions of a policy. -/
structure ExceptionLaw (policy : Effects) (errors : List AnalysisErrorCode)
    (before after : Finding) : Prop where
  outcome : after = before ∨
    (∃ context instant item, policy.debt = some context ∧ policy.time = some instant ∧
      item.Covers context instant before ∧ after = applyDebt context item before) ∨
    ∃ context instant item, policy.waiver = some context ∧ policy.time = some instant ∧
      item.Covers context instant before ∧ after = applyWaiver context item before
  overlap : ∀ debts waivers instant, policy.debt = some debts → policy.waiver = some waivers →
    policy.time = some instant →
    (∃ item : DebtItem, item.Covers debts instant before) →
    (∃ item : WaiverItem, item.Covers waivers instant before) →
    after = before ∧ .exceptionOverlap ∈ errors
  timeless : policy.time = none → after = before
  lowered : after.effectiveDisposition ≤ before.effectiveDisposition

/-- Findings as the exceptions find them. -/
structure Leveled (codec : Codec) (findings : List Finding) : Prop where
  keyed : ∀ finding ∈ findings, keyDigest codec finding.keyInput = .ok finding.findingKey
  unique : ∀ finding ∈ findings, ∀ other ∈ findings, finding.kind.IsStructural →
    finding.findingKey = other.findingKey → finding = other
  warns : ∀ finding ∈ findings, finding.candidateFact ≠ none →
    Disposition.warn ≤ finding.effectiveDisposition
  current : ∀ finding ∈ findings, finding.current = finding.effectiveDisposition

section Facts

variable {codec : Codec} {fact : FactInput} {key digest : Digest}

theorem FactInput.validate_kind (h : fact.validate = true) :
    ∃ kind : EligibleFindingKind, fact.findingKind = fact.keyInput.findingKind ∧
      fact.findingKind = kind.kind := by
  unfold FactInput.validate at h
  split at h
  · split at h
    · next kind _ =>
      rw [Bool.and_eq_true, decide_eq_true_eq] at h
      exact ⟨kind, h.1⟩
    · exact absurd h Bool.false_ne_true
  · exact absurd h Bool.false_ne_true

/-- The digests of a recorded fact are the engine's, and its kind is
    structural. -/
theorem factDigests_eq_some (h : factDigests codec fact = some (key, digest)) :
    keyDigest codec fact.keyInput = .ok key ∧
      fact.keyInput.findingKind = fact.findingKind ∧ fact.findingKind.IsStructural := by
  unfold factDigests at h
  split at h
  · next hvalid =>
    rcases FactInput.validate_kind hvalid with ⟨kind, hagree, hkind⟩
    simp only [bind_eq_bind, bind_eq_some_iff, pure_def, some.injEq, Prod.mk.injEq] at h
    rcases h with ⟨found, hfound, _, _, rfl, _⟩
    refine ⟨?_, hagree.symm, ?_⟩
    · cases hrun : keyDigest codec fact.keyInput with
      | error error =>
        rw [hrun] at hfound
        cases hfound
      | ok value =>
        rw [hrun] at hfound
        rw [some.inj hfound]
    · rw [hkind]
      cases kind
      · exact Or.inl rfl
      · exact Or.inr rfl
  · cases h

end Facts

namespace Leveled

variable {codec : Codec} {policy : Effects} {findings : List Finding} {finding : Finding}
  {instant : UtcInstant}

theorem hasFact_of_factDigest {digest : Digest} (h : finding.factDigest = some digest) :
    finding.candidateFact ≠ none := by
  intro hnone
  rw [Finding.factDigest, hnone] at h
  cases h

theorem eligible_name (kind : EligibleFindingKind) : kind.kind.name = kind.name := by
  cases kind <;> rfl

variable {errors : List AnalysisErrorCode}

/-- A finding that no exception touches keeps the law where none is in force. -/
theorem law_idle (hidle : policy.debt = none ∧ policy.waiver = none ∨ policy.time = none) :
    ExceptionLaw policy errors finding finding where
  outcome := Or.inl rfl
  overlap := by
    intro debts waivers instant hdebts _ htime
    rcases hidle with ⟨hnone, _⟩ | hnone
    · rw [hnone] at hdebts
      cases hdebts
    · rw [hnone] at htime
      cases htime
  timeless := fun _ => rfl
  lowered := le_refl _

variable (hleveled : Leveled codec findings) (hfinding : finding ∈ findings)

include hleveled hfinding

/-- The target of a structural finding's key is the finding. -/
theorem target_eq (hstructural : finding.kind.IsStructural) {target : Finding}
    (htarget : (exceptionTargets findings)[finding.findingKey]? = some target) :
    target = finding := by
  have hspec := exceptionTargets_spec htarget
  exact (hleveled.unique finding hfinding target hspec.1 hstructural hspec.2.2.symm).symm

/-- A structural finding with a fact is the target of its key. -/
theorem getElem?_targets (hstructural : finding.kind.IsStructural)
    (hfact : finding.candidateFact ≠ none) :
    (exceptionTargets findings)[finding.findingKey]? = some finding := by
  have hsome : (exceptionTargets findings)[finding.findingKey]?.isSome := by
    refine isSome_getElem?_foldl_insertIfNew Finding.findingKey id ⟨finding, ?_, rfl⟩
    exact List.mem_filter.mpr ⟨hfinding, isSome_iff_ne_none.mpr hfact⟩
  rcases isSome_iff_exists.mp hsome with ⟨target, htarget⟩
  rw [htarget, hleveled.target_eq hfinding hstructural htarget]

/-- A debt step ends at warn, where every finding with a fact is or above. -/
theorem applyDebt_le (hfact : finding.candidateFact ≠ none) (context : DebtContext)
    (item : DebtItem) :
    (applyDebt context item finding).effectiveDisposition ≤ finding.effectiveDisposition :=
  hleveled.warns finding hfinding hfact

theorem applyWaiver_le (context : WaiverContext) (item : WaiverItem) :
    (applyWaiver context item finding).effectiveDisposition ≤ finding.effectiveDisposition := by
  unfold applyWaiver
  split
  · next hfail =>
    have hwarn : Disposition.warn ≤ .fail := by decide
    rw [← hleveled.current finding hfinding, hfail]
    exact hwarn
  · exact le_refl _

variable (hfree : codec.CollisionFree)

include hfree

/-- A finding whose key is that of a recorded fact has the fact's kind. -/
theorem kind_of_digests {fact : FactInput} {digest : Digest}
    (hdigests : factDigests codec fact = some (finding.findingKey, digest)) :
    finding.kind = fact.findingKind ∧ finding.kind.IsStructural := by
  have hspec := factDigests_eq_some hdigests
  have hinput : finding.keyInput = fact.keyInput :=
    hfree _ _ _ (hleveled.keyed finding hfinding) hspec.1
  have hkind : finding.kind = fact.findingKind := by
    rw [Finding.kind, hinput, hspec.2.1]
  exact ⟨hkind, hkind ▸ hspec.2.2⟩

section Debt

variable {context : DebtContext} (hvalid : context.Validated codec)

include hvalid

theorem structural_of_debt {item : DebtItem} (hitem : item ∈ context.items)
    (hkey : item.findingKey = finding.findingKey) : finding.kind.IsStructural := by
  rcases hvalid.items item hitem with ⟨fact, hfact⟩
  rw [validateDebtItem, Bool.and_eq_true, decide_eq_true_eq, hkey] at hfact
  exact (hleveled.kind_of_digests hfinding hfree hfact.1).2

/-- The valid debt items of a finding's key are those that cover the finding. -/
theorem debtValid_iff (hpolicy : policy.debt = some context) (item : DebtItem) :
    (debtValid policy (exceptionTargets findings) instant)[finding.findingKey]? = some item ↔
      item.Covers context instant finding := by
  constructor
  · intro h
    rcases debtValid_spec h with
      ⟨found, target, hfound, hitem, hkey, htarget, hfact, hexpiry⟩
    cases hpolicy.symm.trans hfound
    have hstructural := hleveled.structural_of_debt hfinding hfree hvalid hitem hkey
    rw [hleveled.target_eq hfinding hstructural htarget] at hfact
    exact ⟨hitem, hkey, hfact, hexpiry⟩
  · intro hcovers
    have hstructural :=
      hleveled.structural_of_debt hfinding hfree hvalid hcovers.listed hcovers.key
    have htarget := hleveled.getElem?_targets hfinding hstructural
      (hasFact_of_factDigest hcovers.fact)
    have happlies : debtApplies (exceptionTargets findings) instant item = true := by
      rw [debtApplies, debtCurrent, hcovers.key, htarget, bind_some, hcovers.fact]
      simp [debtDefects, if_neg (not_le.mpr hcovers.unexpired)]
    have hsome : (debtValid policy (exceptionTargets findings) instant)[
        finding.findingKey]?.isSome := by
      simp only [debtValid, hpolicy]
      exact isSome_getElem?_foldl_insert DebtItem.findingKey id
        ⟨item, List.mem_filter.mpr ⟨hcovers.listed, happlies⟩, hcovers.key⟩
    rcases isSome_iff_exists.mp hsome with ⟨other, hother⟩
    -- The snapshot has one item of the key.
    rcases debtValid_spec hother with ⟨found, _, hfound, hmem, hkey, _⟩
    cases hpolicy.symm.trans hfound
    rw [hother, List.inj_on_of_nodup_map hvalid.distinct hmem hcovers.listed
      (hkey.trans hcovers.key.symm)]

end Debt

section Waiver

variable {context : WaiverContext} (hvalid : context.Validated codec)

include hvalid

theorem kind_of_waiver {item : WaiverItem} (hitem : item ∈ context.items)
    (hkey : item.findingKey = finding.findingKey) :
    finding.kind = item.authorizedFactKind.kind ∧ finding.kind.IsStructural := by
  rcases hvalid.items item hitem with ⟨fact, hfact⟩
  rw [validateWaiverItem, Bool.and_eq_true, Bool.and_eq_true, decide_eq_true_eq,
    decide_eq_true_eq, hkey] at hfact
  have hkind := hleveled.kind_of_digests hfinding hfree hfact.1.2
  exact ⟨hkind.1.trans hfact.1.1, hkind.2⟩

/-- The valid waiver items of a finding's key are those that cover the
    finding. -/
theorem waiverValid_iff (hpolicy : policy.waiver = some context) (item : WaiverItem) :
    (waiverValid policy (exceptionTargets findings) instant)[finding.findingKey]? = some item ↔
      item.Covers context instant finding := by
  constructor
  · intro h
    rcases waiverValid_spec h with ⟨found, target, hfound, hitem, htree, hkey, htarget, _, hfact,
      hbegun, hexpiry, hissuer, howner, hwaivable⟩
    cases hpolicy.symm.trans hfound
    have hkind := hleveled.kind_of_waiver hfinding hfree hvalid hitem hkey
    rw [hleveled.target_eq hfinding hkind.2 htarget] at hfact
    exact ⟨hitem, htree, hkey, hfact, hbegun, hexpiry, hissuer, howner, hwaivable, hkind.1⟩
  · intro hcovers
    have hkind := hleveled.kind_of_waiver hfinding hfree hvalid hcovers.listed hcovers.key
    have htarget := hleveled.getElem?_targets hfinding hkind.2
      (hasFact_of_factDigest hcovers.fact)
    have hname : finding.kind.name = item.authorizedFactKind.name := by
      rw [hcovers.kind, eligible_name]
    have happlies : waiverApplies context (exceptionTargets findings) instant item = true := by
      simp [waiverApplies, waiverDefects, hcovers.key, htarget, if_neg (not_lt.mpr hcovers.begun),
        if_neg (not_le.mpr hcovers.unexpired), if_pos hcovers.issued, if_pos hcovers.waivable,
        if_neg hcovers.separate, if_pos hname, if_pos hcovers.fact]
    have hselected : item ∈ context.selected :=
      List.mem_filter.mpr ⟨hcovers.listed, decide_eq_true hcovers.tree⟩
    have hsome : (waiverValid policy (exceptionTargets findings) instant)[
        finding.findingKey]?.isSome := by
      simp only [waiverValid, hpolicy]
      exact isSome_getElem?_foldl_insert WaiverItem.findingKey id
        ⟨item, List.mem_filter.mpr ⟨hselected, happlies⟩, hcovers.key⟩
    rcases isSome_iff_exists.mp hsome with ⟨other, hother⟩
    -- The bundle has one item of the tree and the key.
    rcases waiverValid_spec hother with ⟨found, _, hfound, hmem, htree, hkey, _⟩
    cases hpolicy.symm.trans hfound
    rw [hother, List.inj_on_of_nodup_map hvalid.distinct hmem hcovers.listed
      (Prod.ext (htree.trans hcovers.tree.symm) (hkey.trans hcovers.key.symm))]

end Waiver

/-- The application at a trusted instant keeps the law. -/
theorem law_applied
    (hdebt : ∀ context, policy.debt = some context → context.Validated codec)
    (hwaiver : ∀ context, policy.waiver = some context → context.Validated codec)
    (htime : policy.time = some instant)
    (herrors : findings.any (overlaps (debtValid policy (exceptionTargets findings) instant)
      (waiverValid policy (exceptionTargets findings) instant)) = true →
        .exceptionOverlap ∈ errors) :
    ExceptionLaw policy errors finding
      (applyValidException policy (debtValid policy (exceptionTargets findings) instant)
        (waiverValid policy (exceptionTargets findings) instant) finding) := by
  have hdebts := fun context h =>
    @hleveled.debtValid_iff _ policy _ finding instant hfinding hfree context (hdebt context h) h
  have hwaivers := fun context h => @hleveled.waiverValid_iff _ policy _ finding instant
    hfinding hfree context (hwaiver context h) h
  generalize debtValid policy (exceptionTargets findings) instant = debts at hdebts herrors ⊢
  generalize waiverValid policy (exceptionTargets findings) instant = waivers
    at hwaivers herrors ⊢
  have hcases := applyValidException_cases policy debts waivers finding
  constructor
  · rcases hcases with
      ⟨context, item, hcontext, hitem, heq⟩ | ⟨context, item, hcontext, hitem, heq⟩ | heq
    · have hcovers := (hdebts context hcontext item).mp hitem
      exact Or.inr (Or.inl ⟨context, instant, item, hcontext, htime, hcovers, heq⟩)
    · have hcovers := (hwaivers context hcontext item).mp hitem
      exact Or.inr (Or.inr ⟨context, instant, item, hcontext, htime, hcovers, heq⟩)
    · exact Or.inl heq
  · rintro owed waived other howed hwaived hother ⟨item, hitem⟩ ⟨waiver, hcovers⟩
    cases htime.symm.trans hother
    have hleft := (hdebts owed howed item).mpr hitem
    have hright := (hwaivers waived hwaived waiver).mpr hcovers
    refine ⟨?_, herrors (List.any_eq_true.mpr ⟨finding, hfinding, ?_⟩)⟩
    · simp only [applyValidException, hleft, hright]
    · simp [overlaps, hleft, hright]
  · intro hnone
    rw [hnone] at htime
    cases htime
  · rcases hcases with
      ⟨context, item, hcontext, hitem, heq⟩ | ⟨context, item, _, _, heq⟩ | heq <;> rw [heq]
    · have hcovers := (hdebts context hcontext item).mp hitem
      exact hleveled.applyDebt_le hfinding (hasFact_of_factDigest hcovers.fact) context item
    · exact hleveled.applyWaiver_le hfinding context item

end Leveled

section Run

variable {codec : Codec} {documents : List DocumentInput} {comparisons : List Comparison}
  {profile : Profile} {policy : Effects} {inputs : GovernedInputs}

/-- The findings a run takes to its exceptions. -/
theorem constructed_leveled {built : List Finding} (hfree : codec.CollisionFree)
    (hbuilt : constructed codec documents comparisons profile inputs = .ok built) :
    Leveled codec (built.map (leveled policy profile)) where
  keyed := by
    intro stage hstage
    rcases List.mem_map.mp hstage with ⟨source, hsource, rfl⟩
    have hsubject := leveled_sameSubject profile policy source
    rw [hsubject.keyInput, hsubject.findingKey]
    exact ((mem_constructed hbuilt source).mp hsource).standing.1.keyed
  unique := by
    intro stage hstage other hother hstructural hkey
    rcases List.mem_map.mp hstage with ⟨source, hsource, rfl⟩
    rcases List.mem_map.mp hother with ⟨second, hsecond, rfl⟩
    have hsubject := leveled_sameSubject profile policy source
    have hsubject' := leveled_sameSubject profile policy second
    rw [hsubject.findingKey, hsubject'.findingKey] at hkey
    rw [hsubject.kind] at hstructural
    have hproduced := (mem_constructed hbuilt source).mp hsource
    have hproduced' := (mem_constructed hbuilt second).mp hsecond
    have hinput : source.keyInput = second.keyInput :=
      hfree _ _ _ hproduced.standing.1.keyed (hkey ▸ hproduced'.standing.1.keyed)
    have hstructural' : second.kind.IsStructural := by
      rw [Finding.kind, ← hinput]
      exact hstructural
    rw [(hproduced.fromGroup hstructural).eq_of_key (hproduced'.fromGroup hstructural') hkey]
  warns := by
    intro stage hstage hfact
    rcases List.mem_map.mp hstage with ⟨source, hsource, rfl⟩
    rw [(leveled_sameSubject profile policy source).candidateFact] at hfact
    exact warn_le_leveled ((mem_constructed hbuilt source).mp hsource) hfact
  current := by
    intro stage hstage
    rcases List.mem_map.mp hstage with ⟨source, hsource, rfl⟩
    exact (leveled_traced policy ((mem_constructed hbuilt source).mp hsource).standing.1).current_eq

/-- With validated exceptions and a collision-free key digest, every finding of
    a run leaves the exceptions by the law. What else the run returns are rows
    of the control plane. -/
theorem evaluateWithSite_exceptionLaw (hfree : codec.CollisionFree)
    (hdebt : ∀ context, policy.debt = some context → context.Validated codec)
    (hwaiver : ∀ context, policy.waiver = some context → context.Validated codec)
    {findings : List Finding} {errors : List AnalysisErrorCode}
    (h : evaluateWithSite codec documents comparisons profile policy inputs =
      .ok (findings, errors)) :
    ∃ (built rows : List Finding) (excepted : Finding → Finding),
      constructed codec documents comparisons profile inputs = .ok built ∧
      findings.Perm ((built.map (leveled policy profile)).map excepted ++ rows) ∧
      (∀ row ∈ rows, row.ControlRow codec profile) ∧
      ∀ finding ∈ built.map (leveled policy profile),
        ExceptionLaw policy errors finding (excepted finding) := by
  simp only [evaluateWithSite, bind_eq_ok, pure_eq_ok, Except.ok.injEq, Prod.mk.injEq] at h
  rcases h with ⟨built, hbuilt, ⟨applied, defects, codes⟩, hexceptions, controls, hcontrols,
    rfl, rfl⟩
  have hleveled : Leveled codec (built.map (leveled policy profile)) :=
    constructed_leveled hfree hbuilt
  have hrows : ∀ row ∈ controls, row.ControlRow codec profile := by
    intro row hrow
    rcases (mem_of_mapM hcontrols row).mp hrow with ⟨seed, _, hseed⟩
    exact controlRow_spec hseed
  rw [List.map_map] at hexceptions
  rcases applyExceptions_cases hexceptions with
    ⟨hidle, rfl, rfl⟩ | ⟨instant, htime, rfl, hdefects, hcodes⟩
  · refine ⟨built, controls, id, hbuilt, ?_, hrows, fun finding _ => Leveled.law_idle hidle⟩
    rw [List.map_id, List.append_nil]
    exact sortBy_perm _ _
  · refine ⟨built, defects ++ controls, _, hbuilt, ?_, ?_, fun finding hfinding =>
      hleveled.law_applied hfinding hfree hdebt hwaiver htime hcodes⟩
    · rw [← List.append_assoc]
      exact sortBy_perm _ _
    · intro row hrow
      rcases List.mem_append.mp hrow with hrow | hrow
      · exact hdefects row hrow
      · exact hrows row hrow

/-- The fact of the missing sample. -/
def sampleMissingFact : FactInput :=
  ⟨.reference 1 sampleMissing, .explicitTargetMissing, sampleMissingKey⟩

theorem sampleDebt_validated (context : DebtContext) (h : sampleDebt.debt = some context) :
    context.Validated (codecOf sampleMissingKey) := by
  cases h
  refine ⟨fun item hitem => ⟨sampleMissingFact, ?_⟩, by decide⟩
  rw [List.mem_singleton] at hitem
  rw [hitem]
  decide

/-- The accepted missing reference is lowered to warn by its debt item. -/
theorem evaluateWithSite_exceptionLaw_sample :
    ∃ findings errors, evaluateWithSite (codecOf sampleMissingKey) []
        [sampleComparison sampleMissing] .enforce sampleDebt noInputs = .ok (findings, errors) ∧
      findings.map Finding.effectiveDisposition = [.warn] ∧
      ∃ (built rows : List Finding) (excepted : Finding → Finding),
        constructed (codecOf sampleMissingKey) [] [sampleComparison sampleMissing] .enforce
          noInputs = .ok built ∧
        findings.Perm ((built.map (leveled sampleDebt .enforce)).map excepted ++ rows) ∧
        (∀ row ∈ rows, row.ControlRow (codecOf sampleMissingKey) .enforce) ∧
        ∀ finding ∈ built.map (leveled sampleDebt .enforce),
          ExceptionLaw sampleDebt errors finding (excepted finding) := by
  have hwarned : (evaluateWithSite (codecOf sampleMissingKey) []
      [sampleComparison sampleMissing] .enforce sampleDebt noInputs).toOption.map (fun result =>
        result.1.map Finding.effectiveDisposition) = some [.warn] := by
    decide
  rcases toOption_map_eq_some.mp hwarned with ⟨⟨findings, errors⟩, hrun, hwarn⟩
  have hwaiver : ∀ context, sampleDebt.waiver = some context →
      context.Validated (codecOf sampleMissingKey) := by
    intro context hsome
    cases hsome
  exact ⟨findings, errors, hrun, hwarn,
    evaluateWithSite_exceptionLaw (codecOf_collisionFree sampleMissingKey)
      sampleDebt_validated hwaiver hrun⟩

end Run

end Amiss
