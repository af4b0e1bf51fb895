import Amiss.Core.Feedback
import Amiss.Theory.Evaluate.Run

/-!
# Feedback

What the projection keeps of the findings, and that a run fails exactly when its
feedback shows a failure.

A finding is placed under at most one key, and the group of a key is the fold of
the findings placed under it. `getElem?_feedbackGroups` says so, and the closed
form of a group, the independence of the order and the coverage of the findings
are all read off the fold.

Two limits of the projection are part of the statement. Counts saturate at the
largest 64-bit number. Annotations are compared by path, span and finding key,
so the order of two findings with one key can show in the display of the
annotation; the order does not matter where a key names one finding.

## Main definitions

* `placed`: The key a finding is counted under.
* `ItemLaw`: An item and the findings counted in it.
* `Finding.Acted`: A finding the projection has to show.

## Theorems

* `feedbackGroups_perm`: The order of the findings does not matter.
* `placed_of_acted`: No such finding is lost.
* `acted_of_fail`: Every failing finding of a run is one.
* `project_shows_findings`: The projection, and the exit code of a run.
-/

namespace Amiss

open Std.ExtTreeMap

open Except

open List

open Fallible

/-- The key a finding is counted under. -/
def placed (candidates : BTreeMap Digest Candidate) (finding : Finding) : Option ItemKey :=
  if finding.effectiveDisposition = .record then none
  else
    match classify candidates finding with
    | .item action subject _ => some (toLex (action, subject))
    | .ignore => none

/-- The findings counted under a key, in order. -/
def members (findings : List Finding) (comparisons : List Comparison) (key : ItemKey) :
    List Finding :=
  findings.filter (fun finding => placed (candidateIndex comparisons) finding = some key)

/-- An item, against its key and the findings counted in it. -/
structure ItemLaw (counted : List Finding) (key : ItemKey) (item : FeedbackItem) : Prop where
  action : item.action = (ofLex key).1
  target : item.target = (ofLex key).2.path
  kinds : ∀ kind, kind ∈ item.findingKinds ↔ ∃ finding ∈ counted, finding.kind = kind
  count : item.locationCount = min (counted.map Finding.memberCount).sum u64Max
  bounded : ∀ finding ∈ counted, finding.effectiveDisposition ≤ item.effectiveDisposition
  attained : ∃ finding ∈ counted, finding.effectiveDisposition = item.effectiveDisposition

/-- A finding above record that is not resolved, nor a base-side finding without
    attribution, unless that one is a document-scoped impact warning. -/
structure Finding.Acted (finding : Finding) : Prop where
  above : finding.effectiveDisposition ≠ .record
  unresolved : finding.attribution ≠ .resolved
  standing : finding.attribution = .notApplicable → finding.location.side = .base →
    finding.kind.isDocumentImpact = true

section Groups

variable {candidates : BTreeMap Digest Candidate}

theorem Subject.path_of (target : Option RepoPath) : (Subject.of target).path = target := by
  cases target <;> rfl

variable {finding : Finding}

theorem classify_target {action : FeedbackAction} {subject : Subject} {target : Option RepoPath}
    (h : classify candidates finding = .item action subject target) : target = subject.path := by
  have hof : ∀ {found : Option RepoPath} {chosen : FeedbackAction},
      Decision.item chosen (Subject.of found) found = .item action subject target →
      target = subject.path := by
    intro found chosen heq
    cases heq
    exact (Subject.path_of _).symm
  unfold classify at h
  split at h
  · exact hof h
  simp only at h
  split at h
  · exact hof h
  unfold attributed at h
  split at h
  · exact hof h
  · exact hof h
  · exact hof h
  · exact absurd h Decision.noConfusion
  split at h
  · exact hof h
  · exact hof h
  · exact hof h
  · exact absurd h Decision.noConfusion

theorem projectFinding_of_placed {key : ItemKey} (h : placed candidates finding = some key)
    (groups : BTreeMap ItemKey FeedbackGroup) :
    projectFinding candidates groups finding =
      upsert groups key (addFinding (ofLex key).1 (ofLex key).2.path finding) := by
  unfold placed at h
  split at h
  · cases h
  · next habove =>
    split at h
    · next action subject target hclass =>
      cases h
      rw [projectFinding, if_neg habove, hclass, classify_target hclass]
      rfl
    · cases h

theorem projectFinding_of_unplaced (h : placed candidates finding = none)
    (groups : BTreeMap ItemKey FeedbackGroup) :
    projectFinding candidates groups finding = groups := by
  unfold placed at h
  unfold projectFinding
  split at h
  · next hrecord => rw [if_pos hrecord]
  · next habove =>
    rw [if_neg habove]
    cases hclass : classify candidates finding with
    | ignore => rfl
    | item action subject target =>
      rw [hclass] at h
      cases h

/-- The group of a key is the fold of the findings placed under it. -/
theorem getElem?_foldl_projectFinding (key : ItemKey) (findings : List Finding)
    (groups : BTreeMap ItemKey FeedbackGroup) :
    (findings.foldl (projectFinding candidates) groups)[key]? =
      (findings.filter (fun finding => placed candidates finding = some key)).foldl
        (fun entry finding =>
          some (addFinding (ofLex key).1 (ofLex key).2.path finding entry)) groups[key]? := by
  induction findings generalizing groups with
  | nil => rfl
  | cons finding findings ih =>
    rw [foldl_cons, ih, filter_cons]
    cases hplaced : placed candidates finding with
    | none =>
      simp [projectFinding_of_unplaced hplaced]
    | some other =>
      rw [projectFinding_of_placed hplaced, getElem?_upsert]
      by_cases heq : other = key
      · simp [heq]
      · simp [heq]

theorem getElem?_feedbackGroups (findings : List Finding) (comparisons : List Comparison)
    (key : ItemKey) :
    (feedbackGroups findings comparisons)[key]? =
      (members findings comparisons key).foldl (fun entry finding =>
        some (addFinding (ofLex key).1 (ofLex key).2.path finding entry)) none := by
  rw [feedbackGroups, getElem?_foldl_projectFinding, getElem?_empty]
  rfl

end Groups

section Fold

variable (action : FeedbackAction) (target : Option RepoPath)

/-- Take findings into one group, in order. -/
def gather (findings : List Finding) (entry : Option FeedbackGroup) : Option FeedbackGroup :=
  findings.foldl (fun entry finding => some (addFinding action target finding entry)) entry

theorem better_swap {current first second : Option AnnotationItem}
    (hkeys : ∀ left ∈ first, ∀ right ∈ second, left.key ≠ right.key) :
    AnnotationItem.better (AnnotationItem.better current first) second =
      AnnotationItem.better (AnnotationItem.better current second) first := by
  cases first with
  | none => cases second <;> rfl
  | some left =>
    cases second with
    | none => rfl
    | some right =>
      have hne : left.key ≠ right.key := hkeys left rfl right rfl
      cases current with
      | none =>
        rcases lt_or_gt_of_ne hne with hlt | hgt
        · simp only [AnnotationItem.better, if_pos hlt, if_neg (not_lt_of_gt hlt)]
        · simp only [AnnotationItem.better, if_pos hgt, if_neg (not_lt_of_gt hgt)]
      | some held =>
        simp only [AnnotationItem.better]
        by_cases hleft : left.key < held.key <;> by_cases hright : right.key < held.key <;>
          simp only [hleft, hright, if_true, if_false]
        · -- Both are better than the one held, and the two differ.
          rcases lt_or_gt_of_ne hne with hlt | hgt
          · rw [if_neg (not_lt_of_gt hlt), if_pos hlt]
          · rw [if_pos hgt, if_neg (not_lt_of_gt hgt)]
        · rw [if_neg (fun hlt => hright (hlt.trans hleft))]
        · rw [if_neg (fun hlt => hleft (hlt.trans hright))]

theorem annotationCandidate_tie {finding : Finding} {annotated : AnnotationItem}
    (h : annotationCandidate finding = some annotated) : annotated.tie = finding.findingKey := by
  unfold annotationCandidate at h
  split at h
  · cases h
  · simp only [Option.bind_eq_bind, Option.bind_eq_some_iff, Option.pure_def,
      Option.some.injEq] at h
    rcases h with ⟨_, _, _, _, _, _, _, _, rfl⟩
    rfl

theorem saturatingAdd_swap (count left right : Nat) :
    saturatingAdd (saturatingAdd count left) right =
      saturatingAdd (saturatingAdd count right) left := by
  unfold saturatingAdd
  omega

theorem addFinding_swap {first second : Finding} (hne : first.findingKey ≠ second.findingKey)
    (entry : Option FeedbackGroup) :
    addFinding action target second (some (addFinding action target first entry)) =
      addFinding action target first (some (addFinding action target second entry)) := by
  have hannotations : ∀ left ∈ annotationCandidate first, ∀ right ∈ annotationCandidate second,
      left.key ≠ right.key := by
    intro left hleft right hright heq
    have htie := congrArg (fun key => (ofLex (ofLex key).2).2) heq
    simp only [AnnotationItem.key, ofLex_toLex] at htie
    rw [annotationCandidate_tie hleft, annotationCandidate_tie hright] at htie
    exact hne htie
  have hkinds : ∀ kinds : BTreeSet FindingKind,
      (kinds.insert first.kind).insert second.kind =
        (kinds.insert second.kind).insert first.kind := by
    intro kinds
    refine Std.ExtTreeSet.ext_mem (fun kind => ?_)
    rw [mem_inserted, mem_inserted, mem_inserted, mem_inserted, or_left_comm]
  have hfields : ∀ (held : Option RepoPath) (kinds : BTreeSet FindingKind) (count : Nat)
      (initial initial' : Disposition) (annotated : Option AnnotationItem),
      max (max initial first.effectiveDisposition) second.effectiveDisposition =
        max (max initial' second.effectiveDisposition) first.effectiveDisposition →
      addFinding action target second
          (some (addFinding action target first
            (some ⟨held, kinds, count, initial, annotated⟩))) =
        addFinding action target first
          (some (addFinding action target second
            (some ⟨held, kinds, count, initial', annotated⟩))) := by
    intro held kinds count initial initial' annotated hmax
    simp only [addFinding, Option.getD_some, FeedbackGroup.mk.injEq, true_and]
    refine ⟨hkinds kinds, saturatingAdd_swap _ _ _, hmax, ?_⟩
    split
    · exact better_swap hannotations
    · rfl
  cases entry with
  | none =>
    refine hfields target ∅ 0 first.effectiveDisposition second.effectiveDisposition none ?_
    rw [max_self, max_self, max_comm]
  | some group =>
    refine hfields group.target group.findingKinds group.locationCount
      group.effectiveDisposition group.effectiveDisposition group.annotated ?_
    rw [max_right_comm]

/-- The order of the findings of a group does not matter where a key names one
    finding. -/
theorem gather_perm {left right : List Finding} (hperm : left.Perm right)
    (hkeys : ∀ first ∈ left, ∀ second ∈ left, first.findingKey = second.findingKey →
      first = second) (entry : Option FeedbackGroup) :
    gather action target left entry = gather action target right entry := by
  refine hperm.foldl_eq' (fun first hfirst second hsecond held => ?_) entry
  by_cases hkey : first.findingKey = second.findingKey
  · rw [hkeys first hfirst second hsecond hkey]
  · exact congrArg some (addFinding_swap action target hkey held)

/-- What findings add to a group that is there. -/
theorem gather_some (findings : List Finding) (group : FeedbackGroup)
    (hcount : group.locationCount ≤ u64Max) :
    ∃ final, gather action target findings (some group) = some final ∧ final.target = group.target ∧
      (∀ kind, kind ∈ final.findingKinds ↔
        kind ∈ group.findingKinds ∨ ∃ finding ∈ findings, finding.kind = kind) ∧
      final.locationCount =
        min (group.locationCount + (findings.map Finding.memberCount).sum) u64Max ∧
      (∀ finding ∈ findings, finding.effectiveDisposition ≤ final.effectiveDisposition) ∧
      group.effectiveDisposition ≤ final.effectiveDisposition ∧
      (final.effectiveDisposition = group.effectiveDisposition ∨
        ∃ finding ∈ findings, finding.effectiveDisposition = final.effectiveDisposition) := by
  induction findings generalizing group with
  | nil =>
    refine ⟨group, rfl, rfl, fun kind => ?_, ?_, ?_, le_refl _, Or.inl rfl⟩
    · simp
    · simp [min_eq_left hcount]
    · exact fun finding h => absurd h not_mem_nil
  | cons finding findings ih =>
    have hbound : (addFinding action target finding (some group)).locationCount ≤ u64Max :=
      min_le_right _ _
    rcases ih _ hbound with
      ⟨final, hfinal, htarget, hkinds, hsum, hmembers, hold, hattained⟩
    have hstep : (addFinding action target finding (some group)).effectiveDisposition =
        max group.effectiveDisposition finding.effectiveDisposition := rfl
    rw [hstep] at hold hattained
    refine ⟨final, hfinal, htarget, fun kind => ?_, ?_, ?_, (le_max_left _ _).trans hold, ?_⟩
    · rw [hkinds]
      simp only [addFinding, Option.getD_some, mem_inserted, mem_cons, exists_eq_or_imp]
      rw [or_assoc, or_left_comm]
    · rw [hsum, map_cons, sum_cons]
      simp only [addFinding, Option.getD_some, saturatingAdd]
      omega
    · intro other hother
      rcases mem_cons.mp hother with rfl | hother
      · exact (le_max_right _ _).trans hold
      · exact hmembers other hother
    · rcases hattained with heq | ⟨other, hother, heq⟩
      · rcases max_choice group.effectiveDisposition finding.effectiveDisposition with h | h
        · exact Or.inl (heq.trans h)
        · exact Or.inr ⟨finding, mem_cons_self, (heq.trans h).symm⟩
      · exact Or.inr ⟨other, mem_cons_of_mem _ hother, heq⟩

/-- The group of findings that are there is an item about them. -/
theorem gather_law (key : ItemKey) {findings : List Finding} (hne : findings ≠ []) :
    ∃ group, gather (ofLex key).1 (ofLex key).2.path findings none = some group ∧
      ItemLaw findings key (group.item key) := by
  cases findings with
  | nil => exact absurd rfl hne
  | cons finding findings =>
    have hbound : (addFinding (ofLex key).1 (ofLex key).2.path finding none).locationCount ≤
        u64Max := min_le_right _ _
    rcases gather_some (ofLex key).1 (ofLex key).2.path findings _ hbound with
      ⟨final, hfinal, htarget, hkinds, hsum, hmembers, hold, hattained⟩
    have hstep : (addFinding (ofLex key).1 (ofLex key).2.path finding
        none).effectiveDisposition = finding.effectiveDisposition := max_self _
    rw [hstep] at hold hattained
    refine ⟨final, hfinal, rfl, htarget, fun kind => ?_, ?_, ?_, ?_⟩
    · rw [FeedbackGroup.item, Std.ExtTreeSet.mem_toList, hkinds]
      simp [addFinding]
    · simp only [FeedbackGroup.item, hsum, map_cons, sum_cons]
      simp only [addFinding, Option.getD_none, saturatingAdd]
      omega
    · intro other hother
      rcases mem_cons.mp hother with rfl | hother
      · exact hold
      · exact hmembers other hother
    · rcases hattained with heq | ⟨other, hother, heq⟩
      · exact ⟨finding, mem_cons_self, heq.symm⟩
      · exact ⟨other, mem_cons_of_mem _ hother, heq⟩

end Fold

section Project

variable (findings : List Finding) (comparisons : List Comparison)

theorem getElem?_feedbackGroups_eq_gather (key : ItemKey) :
    (feedbackGroups findings comparisons)[key]? =
      gather (ofLex key).1 (ofLex key).2.path (members findings comparisons key) none :=
  getElem?_feedbackGroups findings comparisons key

theorem mem_keys_feedbackGroups (key : ItemKey) :
    key ∈ (feedbackGroups findings comparisons).keys ↔ members findings comparisons key ≠ [] := by
  rw [mem_keys, mem_iff_isSome_getElem?, getElem?_feedbackGroups_eq_gather]
  constructor
  · intro hsome hnil
    rw [hnil] at hsome
    exact absurd hsome Bool.false_ne_true
  · intro hne
    rcases gather_law key hne with ⟨group, hgroup, _⟩
    rw [hgroup]
    rfl

theorem feedbackGroups_perm {other : List Finding} (hperm : findings.Perm other)
    (hkeys : ∀ first ∈ findings, ∀ second ∈ findings,
      first.findingKey = second.findingKey → first = second) :
    feedbackGroups findings comparisons = feedbackGroups other comparisons := by
  refine ext_entries (fun key => ?_)
  rw [getElem?_feedbackGroups_eq_gather, getElem?_feedbackGroups_eq_gather]
  refine gather_perm _ _ (hperm.filter _) (fun first hfirst second hsecond => ?_) none
  exact hkeys first (mem_of_mem_filter hfirst) second (mem_of_mem_filter hsecond)

/-- Each item is about the findings placed under its key. -/
theorem items_law :
    List.Forall₂ (fun key item => ItemLaw (members findings comparisons key) key item)
      (feedbackGroups findings comparisons).keys (project findings comparisons).items := by
  rw [← map_fst_toList_eq_keys, project, forall₂_map_left_iff,
    forall₂_map_right_iff, forall₂_same]
  intro entry hentry
  have hget := (mem_toList _ entry.1 entry.2).mp hentry
  have hne : members findings comparisons entry.1 ≠ [] := by
    rw [← mem_keys_feedbackGroups, mem_keys, mem_iff_isSome_getElem?, hget]
    rfl
  rcases gather_law entry.1 hne with ⟨group, hgroup, hlaw⟩
  rw [getElem?_feedbackGroups_eq_gather, hgroup, Option.some.injEq] at hget
  rw [← hget]
  exact hlaw

/-- A finding the projection has to show is an item. -/
theorem classify_of_acted {candidates : BTreeMap Digest Candidate} {finding : Finding}
    (h : finding.Acted) :
    ∃ action subject target, classify candidates finding = .item action subject target := by
  unfold classify
  split
  · exact ⟨_, _, _, rfl⟩
  · next himpact =>
    simp only
    split
    · exact ⟨_, _, _, rfl⟩
    · cases hattribution : finding.attribution with
      | introduced => exact ⟨_, _, _, rfl⟩
      | unknown => exact ⟨_, _, _, rfl⟩
      | preExisting => exact ⟨_, _, _, rfl⟩
      | resolved => exact absurd hattribution h.unresolved
      | notApplicable =>
        cases hside : finding.location.side with
        | candidate => exact ⟨_, _, _, rfl⟩
        | control => exact ⟨_, _, _, rfl⟩
        | global => exact ⟨_, _, _, rfl⟩
        | base => exact absurd (h.standing hattribution hside) himpact

theorem placed_of_acted {candidates : BTreeMap Digest Candidate} {finding : Finding}
    (h : finding.Acted) : ∃ key, placed candidates finding = some key := by
  rcases @classify_of_acted candidates finding h with ⟨action, subject, target, hclass⟩
  refine ⟨toLex (action, subject), ?_⟩
  rw [placed, if_neg h.above, hclass]

/-- Where every failing finding has to be shown, a failing item stands for a
    failing finding. -/
theorem failing_item_iff
    (hacted : ∀ finding ∈ findings, finding.effectiveDisposition = .fail → finding.Acted) :
    (∃ item ∈ (project findings comparisons).items, item.effectiveDisposition = .fail) ↔
      ∃ finding ∈ findings, finding.effectiveDisposition = .fail := by
  have hlaw := items_law findings comparisons
  constructor
  · rintro ⟨item, hitem, hfail⟩
    rcases forall₂_iff_get.mp hlaw with ⟨hlength, hget⟩
    rcases get_of_mem hitem with ⟨place, rfl⟩
    have hplace : place.1 < (feedbackGroups findings comparisons).keys.length := by
      rw [hlength]
      exact place.2
    rcases (hget place.1 hplace place.2).attained with ⟨finding, hfinding, heq⟩
    exact ⟨finding, mem_of_mem_filter hfinding, heq.trans hfail⟩
  · rintro ⟨finding, hfinding, hfail⟩
    rcases @placed_of_acted (candidateIndex comparisons) finding
      (hacted finding hfinding hfail) with ⟨key, hplaced⟩
    have hmember : finding ∈ members findings comparisons key :=
      mem_filter.mpr ⟨hfinding, decide_eq_true hplaced⟩
    have hkey := (mem_keys_feedbackGroups findings comparisons key).mpr
      (ne_nil_of_mem hmember)
    rcases forall₂_iff_get.mp hlaw with ⟨hlength, hget⟩
    rcases get_of_mem hkey with ⟨place, rfl⟩
    have hplace : place.1 < (project findings comparisons).items.length := by
      rw [← hlength]
      exact place.2
    have hbound := (hget place.1 place.2 hplace).bounded finding hmember
    refine ⟨_, get_mem _ ⟨place.1, hplace⟩, ?_⟩
    rw [hfail] at hbound
    exact le_antisymm (by cases FeedbackItem.effectiveDisposition _ <;> decide) hbound

end Project

section Run

variable {codec : Codec} {documents : List DocumentInput} {comparisons : List Comparison}
  {profile : Profile} {policy : Effects} {inputs : GovernedInputs}

/-- No row calls for a kind that fails. -/
theorem comparisonKind_quiet {comparison : Comparison} {kind : FindingKind}
    (h : comparisonKind comparison = some kind) (profile : Profile) :
    kind.builtInDisposition profile ≠ .fail := by
  unfold comparisonKind at h
  split at h
  · cases h
    cases profile <;> decide
  · split at h
    · cases h
      cases profile <;> decide
    · split at h <;> simp only [reduceCtorEq, Option.some.injEq] at h <;> subst h <;>
        cases profile <;> decide

theorem simple_place {kind : FindingKind} {scope : KeyScope} {attribution : Attribution}
    {ids : List Digest} {location : Location} {finding : Finding}
    (h : simple codec kind scope attribution ids location profile = .ok finding) :
    finding.kind = kind ∧ finding.location = location ∧ finding.candidateFact = none := by
  simp only [simple, bind_eq_ok, pure_eq_ok, ok.injEq] at h
  rcases h with ⟨_, _, rfl⟩
  exact ⟨rfl, rfl, rfl⟩

/-- A produced finding of the base side is resolved, or rests on no fact and has
    a kind that does not fail. -/
theorem Produced.base_quiet {finding : Finding}
    (h : Produced codec documents comparisons profile inputs finding)
    (hside : finding.location.side = .base) :
    finding.attribution = .resolved ∨
      finding.candidateFact = none ∧ finding.kind.builtInDisposition profile ≠ .fail := by
  cases h with
  | document document findings hmem hrun hfinding =>
    unfold documentFindings at hrun
    split at hrun
    · rcases (mem_of_mapM hrun finding).mp hfinding with ⟨kind, hkind, hbuilt⟩
      have hplace := simple_place hbuilt
      rw [mem_singleton] at hkind
      refine Or.inr ⟨hplace.2.2, ?_⟩
      rw [hplace.1, hkind]
      cases profile <;> decide
    · rcases (mem_of_mapM hrun finding).mp hfinding with ⟨kind, _, hbuilt⟩
      rw [(simple_place hbuilt).2.1] at hside
      cases hside
  | defect defect hmem hrun =>
    rw [(candidateFactFinding_spec hrun).2.2.2.2.2] at hside
    cases hside
  | boundary entry hmem hfold hrun =>
    rcases boundaryFinding_spec hrun with ⟨_, _, _, _, _, _, _, hlocation⟩
    rw [hlocation] at hside
    cases hside
  | folded entry hmem hrun =>
    simp only [foldedFinding, bind_eq_ok, pure_eq_ok, ok.injEq] at hrun
    rcases hrun with ⟨_, _, built, hbuilt, rfl⟩
    simp only [(simple_place hbuilt).2.1] at hside
    cases hside
  | structural hgroup =>
    have hspec := hgroup.spec
    refine Or.inl (hspec.1.mp ?_)
    by_contra hfact
    rw [hspec.2.mpr hfact] at hside
    exact absurd hside (by decide)
  | compared comparison hmem hrun =>
    unfold comparisonFinding at hrun
    split at hrun
    · next primary side kind _ hkind =>
      simp only [bind_eq_ok, pure_eq_ok, ok.injEq, Option.some.injEq] at hrun
      rcases hrun with ⟨built, hbuilt, rfl⟩
      have hplace := simple_place hbuilt
      exact Or.inr ⟨hplace.2.2, hplace.1 ▸ comparisonKind_quiet hkind profile⟩
    · cases hrun
  | governed seed hmem hrun =>
    simp only [governedFinding, bind_eq_ok] at hrun
    rcases hrun with ⟨_, _, hrun⟩
    rw [(candidateFactFinding_spec hrun).2.2.2.2.2] at hside
    cases hside
  | claim group hmem hrun =>
    simp only [claimFinding, bind_eq_ok, pure_eq_ok, ok.injEq] at hrun
    rcases hrun with ⟨_, _, built, hbuilt, rfl⟩
    simp only [(candidateFactFinding_spec hbuilt).2.2.2.2.2] at hside
    cases hside
  | projection outcome hmem hrun =>
    unfold projectionFinding at hrun
    split at hrun
    · cases hrun
    · simp only [bind_eq_ok, pure_eq_ok, ok.injEq, Option.some.injEq] at hrun
      rcases hrun with ⟨built, hbuilt, rfl⟩
      rw [(candidateFactFinding_spec hbuilt).2.2.2.2.2] at hside
      cases hside
  | translation entry hmem hrun =>
    have hplace := simple_place hrun
    refine Or.inr ⟨hplace.2.2, ?_⟩
    rw [hplace.1]
    cases profile <;> decide

/-- No pass after the raises makes a finding fail. -/
theorem fail_of_passes {debts : BTreeMap Digest DebtItem} {waivers : BTreeMap Digest WaiverItem}
    {source : Finding} (h : (applyValidException policy debts waivers
      (leveled policy profile source)).effectiveDisposition = .fail) :
    (applyRaises policy source).effectiveDisposition = .fail := by
  have hleveled : (leveled policy profile source).effectiveDisposition = .fail := by
    rcases applyValidException_cases policy debts waivers (leveled policy profile source) with
      ⟨_, _, _, _, heq⟩ | ⟨_, _, _, _, heq⟩ | heq <;> rw [heq] at h
    · cases h
    · unfold applyWaiver at h
      split at h
      · cases h
      · exact h
    · exact h
  unfold leveled easeIntroduced at hleveled
  split at hleveled
  · cases hleveled
  · exact hleveled

/-- Every failing finding of a run has to be shown. -/
theorem acted_of_fail {findings : List Finding} {errors : List AnalysisErrorCode}
    (h : evaluateWithSite codec documents comparisons profile policy inputs =
      .ok (findings, errors)) :
    ∀ finding ∈ findings, finding.effectiveDisposition = .fail → finding.Acted := by
  rcases evaluateWithSite_spec h with ⟨built, debts, waivers, hbuilt, _, _, _, hall⟩
  intro finding hfinding hfail
  have habove : finding.effectiveDisposition ≠ .record := by
    rw [hfail]
    decide
  rcases hall finding hfinding with hrow | ⟨source, hsource, rfl⟩
  · refine ⟨habove, ?_, fun _ hbase => absurd hbase hrow.offBase⟩
    rw [hrow.attributed]
    decide
  · have hproduced := (mem_constructed hbuilt source).mp hsource
    have hfresh := hproduced.standing.1
    have hraised := fail_of_passes hfail
    have hsubject := (leveled_sameSubject profile policy source).trans
      (applyValidException_eased policy debts waivers _).subject
    have hunresolved : source.attribution ≠ .resolved := by
      intro hresolved
      rw [applyRaises_skip policy (Or.inl hresolved), (hfresh.atRecord hresolved).effective]
        at hraised
      exact absurd hraised (by decide)
    refine ⟨habove, hsubject.attribution ▸ hunresolved, fun _ hbase => ?_⟩
    rw [hsubject.location] at hbase
    rcases hproduced.base_quiet hbase with hresolved | ⟨hfact, hquiet⟩
    · exact absurd hresolved hunresolved
    · rw [applyRaises_skip policy (Or.inr hfact), hfresh.effective, hfresh.configured,
        structuralStep, if_neg hunresolved] at hraised
      exact absurd hraised hquiet

section Construct

variable {limits : ReportLimits}
  {spelled : List Comparison → List Finding → RunResult → Option Feedback →
    Except ScanError Nat} {built : Built}

/-- A report is that of an incomplete run, or it carries the result and the
    feedback of an evaluation. -/
theorem construct_cases
    (h : construct codec limits spelled documents comparisons profile policy inputs = .ok built) :
    built = constructIncomplete ∨ ∃ findings exceptions feedback,
      evaluateWithSite codec documents comparisons profile policy inputs =
        .ok (findings, exceptions) ∧
      reportFeedback (runResult findings (logicalErrorSet inputs.governed exceptions)).complete
        findings comparisons = .ok feedback ∧
      built = ⟨(runResult findings (logicalErrorSet inputs.governed exceptions)).status,
        (runResult findings (logicalErrorSet inputs.governed exceptions)).exitCode, feedback⟩ := by
  unfold construct at h
  split at h
  · rw [ok.injEq] at h
    exact Or.inl h.symm
  · next findings exceptions hrun =>
    split at h
    · rw [ok.injEq] at h
      exact Or.inl h.symm
    simp only at h
    split at h
    · rw [ok.injEq] at h
      exact Or.inl h.symm
    simp only [bind_eq_ok] at h
    rcases h with ⟨feedback, hfeedback, length, _, h⟩
    split at h <;> rw [pure_eq_ok, ok.injEq] at h
    · exact Or.inl h.symm
    · exact Or.inr ⟨findings, exceptions, feedback, hrun, hfeedback, h.symm⟩

theorem reportFeedback_eq_ok {complete : Bool} {findings : List Finding}
    {feedback : Option Feedback} (h : reportFeedback complete findings comparisons = .ok feedback) :
    feedback = if complete then some (project findings comparisons) else none := by
  unfold reportFeedback at h
  cases complete with
  | false =>
    rw [if_neg Bool.false_ne_true, ok.injEq] at h
    rw [if_neg Bool.false_ne_true, h]
  | true =>
    rw [if_pos rfl] at h
    simp only at h
    split at h
    · rw [ok.injEq] at h
      rw [if_pos rfl, h]
    · cases h

/-- A run exits with code one exactly when its feedback shows a failure. -/
theorem construct_exit
    (h : construct codec limits spelled documents comparisons profile policy inputs = .ok built) :
    built.exitCode = 1 ↔ ∃ feedback item, built.feedback = some feedback ∧
      item ∈ feedback.items ∧ item.effectiveDisposition = .fail := by
  rcases construct_cases h with rfl | ⟨findings, exceptions, feedback, hrun, hfeedback, rfl⟩
  · simp only [constructIncomplete, reduceCtorEq, false_and, exists_false, iff_false]
    decide
  have hshown := failing_item_iff findings comparisons (acted_of_fail hrun)
  rw [reportFeedback_eq_ok hfeedback]
  unfold runResult
  split
  · -- An incomplete run exits with code two and has no feedback.
    simp only [Bool.false_eq_true, if_false, reduceCtorEq, false_and, exists_false, iff_false]
    decide
  · split
    · next hany =>
      rw [any_eq_true] at hany
      rcases hany with ⟨finding, hfinding, hfail⟩
      rcases hshown.mpr ⟨finding, hfinding, of_decide_eq_true hfail⟩ with ⟨item, hitem, heq⟩
      exact iff_of_true rfl ⟨_, item, rfl, hitem, heq⟩
    · next hnone =>
      refine iff_of_false Nat.zero_ne_one ?_
      rintro ⟨shown, item, hsome, hitem, heq⟩
      rw [if_pos rfl, Option.some.injEq] at hsome
      rw [← hsome] at hitem
      rcases hshown.mp ⟨item, hitem, heq⟩ with ⟨finding, hfinding, hfail⟩
      exact hnone (any_eq_true.mpr ⟨finding, hfinding, decide_eq_true hfail⟩)

end Construct

/-- The projection does not depend on the order of findings with different keys,
    counts each finding it has to show in one item, and each item is the largest
    disposition and the count of its findings. A run exits with code one exactly
    when its feedback shows a failure. -/
theorem project_shows_findings :
    (∀ (findings other : List Finding) (comparisons : List Comparison), findings.Perm other →
      (∀ first ∈ findings, ∀ second ∈ findings,
        first.findingKey = second.findingKey → first = second) →
      project findings comparisons = project other comparisons) ∧
    (∀ (findings : List Finding) (comparisons : List Comparison), ∃ keys : List ItemKey,
      keys.Nodup ∧
      List.Forall₂ (fun key item => ItemLaw (members findings comparisons key) key item) keys
        (project findings comparisons).items ∧
      ∀ finding ∈ findings, finding.Acted →
        ∃ key ∈ keys, finding ∈ members findings comparisons key ∧
          ∀ other, finding ∈ members findings comparisons other → other = key) ∧
    ∀ (codec : Codec) (limits : ReportLimits)
      (spelled : List Comparison → List Finding → RunResult → Option Feedback →
        Except ScanError Nat) (documents : List DocumentInput) (comparisons : List Comparison)
      (profile : Profile) (policy : Effects) (inputs : GovernedInputs) (built : Built),
      construct codec limits spelled documents comparisons profile policy inputs = .ok built →
      (built.exitCode = 1 ↔ ∃ feedback item, built.feedback = some feedback ∧
        item ∈ feedback.items ∧ item.effectiveDisposition = .fail) := by
  refine ⟨?_, ?_, ?_⟩
  · intro findings other comparisons hperm hkeys
    rw [project, project, feedbackGroups_perm findings comparisons hperm hkeys]
  · intro findings comparisons
    refine ⟨(feedbackGroups findings comparisons).keys,
      nodup_keys, items_law findings comparisons, ?_⟩
    intro finding hfinding hacted
    rcases @placed_of_acted (candidateIndex comparisons) finding hacted with ⟨key, hplaced⟩
    have hmember : finding ∈ members findings comparisons key :=
      mem_filter.mpr ⟨hfinding, decide_eq_true hplaced⟩
    refine ⟨key, (mem_keys_feedbackGroups findings comparisons key).mpr
      (ne_nil_of_mem hmember), hmember, ?_⟩
    intro other hother
    have hsame := of_decide_eq_true (mem_filter.mp hother).2
    rw [hplaced, Option.some.injEq] at hsame
    exact hsame.symm
  · intro codec limits spelled documents comparisons profile policy inputs built h
    exact construct_exit h

/-- A failing finding with as many members as a count can hold. -/
def sampleFailing (display : SpanDisplay) : Finding where
  keyInput := sampleMissingKey
  findingKey := ⟨26⟩
  attribution := .introduced
  baseFact := none
  candidateFact := none
  memberCount := u64Max
  observationIds := []
  location := ⟨.candidate, some ⟨[97], pathBytesValid_a⟩, some (0, 1), some display⟩
  configuredDisposition := .fail
  effectiveDisposition := .fail
  steps := []
  debt := none
  waiver := none
  fix := none

/-- Two findings with one key and one place: the display shown is that of the
    first, and the counts saturate. -/
theorem project_shows_order_and_saturates :
    [sampleFailing ⟨1, 1, 1, 2⟩, sampleFailing ⟨2, 1, 2, 2⟩].Perm
        [sampleFailing ⟨2, 1, 2, 2⟩, sampleFailing ⟨1, 1, 1, 2⟩] ∧
      project [sampleFailing ⟨1, 1, 1, 2⟩, sampleFailing ⟨2, 1, 2, 2⟩] [] ≠
        project [sampleFailing ⟨2, 1, 2, 2⟩, sampleFailing ⟨1, 1, 1, 2⟩] [] ∧
      (project [sampleFailing ⟨1, 1, 1, 2⟩, sampleFailing ⟨2, 1, 2, 2⟩] []).items.map
        FeedbackItem.locationCount = [u64Max] ∧
      ([sampleFailing ⟨1, 1, 1, 2⟩, sampleFailing ⟨2, 1, 2, 2⟩].map Finding.memberCount).sum ≠
        u64Max :=
  ⟨List.Perm.swap _ _ [], by decide, by decide, by decide⟩

/-- A new missing reference fails the run, and the feedback shows it. -/
theorem project_shows_findings_missing :
    ∃ built, construct (codecOf sampleMissingKey) ⟨10, 10, 1000⟩ (fun _ _ _ _ => .ok 100) []
        [sampleComparison sampleMissing] .enforce Effects.default noInputs = .ok built ∧
      ∃ feedback item, built.feedback = some feedback ∧ item ∈ feedback.items ∧
        item.effectiveDisposition = .fail := by
  have hexit : (construct (codecOf sampleMissingKey) ⟨10, 10, 1000⟩ (fun _ _ _ _ => .ok 100) []
      [sampleComparison sampleMissing] .enforce Effects.default noInputs).toOption.map
        Built.exitCode = some 1 := by
    decide
  rcases toOption_map_eq_some.mp hexit with ⟨built, hrun, hcode⟩
  exact ⟨built, hrun, (project_shows_findings.2.2 _ _ _ _ _ _ _ _ _ hrun).mp hcode⟩

end Run

end Amiss
