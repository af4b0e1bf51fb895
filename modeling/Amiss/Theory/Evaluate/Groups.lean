import Amiss.Core.Correlate
import Amiss.Theory.Evaluate.Run

/-!
# Structural Groups

The groups the structural findings report, against the groups the adoption path
makes of the candidate side alone.

The evaluation files the rows of a comparison one by one: the candidates under
their own keys, the primary base occurrence with its candidate where the two are
paired and fail in one kind, the other base occurrences under their own keys.
`filings` writes that order down as a list, and `Filed` says what the map of
groups holds after a list of filings: under each digest the occurrences filed
under its key, in order. A base filing never touches the candidate members of a
group, so the candidate side of the groups is what `structuralFacts` collects
with no comparison at all.

Groups are told apart by digest, so two keys with one digest would share a
group. Every result assumes that the key digest is collision free.

## Main definitions

* `ownKey`: The structural key of an occurrence, if it fails structurally.
* `filings`: The filings of a comparison, in order.
* `Filed`: The groups of a list of filings.
* `GroupLaw`: What a finding says about its group.

## Theorems

* `Filed.push`: One more filing.
* `structuralGroups_filed`, `collectAll_filed`: Both collections are filings.
* `structuralFindings_groups`: The findings, their groups and the facts of the
  candidate side.
* `unchanged_sides_introduce_nothing`: The findings of equal sides.
-/

namespace Amiss

open Std.ExtTreeMap

open Except

open List

open Fallible

/-- One occurrence, filed under a structural key. -/
structure Filing where
  key : KeyInput
  observation : Observation
  isBase : Bool

variable (codec : Codec)

/-- The structural key of an occurrence, if it fails structurally. -/
def ownKey (observation : Observation) : Option KeyInput :=
  (resolutionKinds observation.resolution).structural.map
    (fun kind => structuralKey codec kind observation)

/-- Occurrences of one side, filed under their own keys. -/
def ownFilings (isBase : Bool) (observations : List Observation) : List Filing :=
  observations.filterMap (fun observation =>
    (ownKey codec observation).map (fun key => ⟨key, observation, isBase⟩))

variable (comparison : Comparison)

/-- The key of the primary candidate, where the pairing is decided. -/
def Comparison.continuedKey : Option KeyInput :=
  if comparison.outcome = .exact ∨ comparison.outcome = .candidate then
    comparison.candidate.bind (ownKey codec)
  else none

/-- The key of the primary base occurrence: its candidate's where that one fails
    in the same kind. -/
def Comparison.joinedKey (base : Observation) :
    Option KeyInput :=
  ((comparison.continuedKey codec).filter (fun key =>
    some key.findingKind = (resolutionKinds base.resolution).structural)).or (ownKey codec base)

/-- The primary base occurrence of a row, filed. -/
def Comparison.joinedFilings : List Filing :=
  comparison.base.toList.filterMap (fun base =>
    (comparison.joinedKey codec base).map (fun key => ⟨key, base, true⟩))

def Comparison.filings : List Filing :=
  ownFilings codec false comparison.candidateMembers ++ comparison.joinedFilings codec ++
    ownFilings codec true comparison.alternativesBase

variable (comparisons : List Comparison)

/-- The filings of a comparison, in order. -/
def filings : List Filing :=
  comparisons.flatMap (Comparison.filings codec)

/-- The group of a key among some filings. -/
def keyGroupOf (filed : List Filing) (key : KeyInput) : KeyGroup where
  key := key
  base := (filed.filter (fun filing => filing.isBase && filing.key = key)).map
    Filing.observation
  candidate := (filed.filter (fun filing => !filing.isBase && filing.key = key)).map
    Filing.observation

/-- A map of groups that holds exactly the given filings. -/
structure Filed (codec : Codec) (filed : List Filing) (groups : KeyGroups) : Prop where
  spelled : ∀ filing ∈ filed, ∃ digest, keyDigest codec filing.key = .ok digest
  group : ∀ digest group, groups[digest]? = some group ↔
    ∃ filing ∈ filed, keyDigest codec filing.key = .ok digest ∧ group = keyGroupOf filed filing.key

section Groups

theorem keyGroupOf_concat_self (filed : List Filing) (filing : Filing) :
    keyGroupOf (filed ++ [filing]) filing.key =
      (keyGroupOf filed filing.key).push filing.observation filing.isBase := by
  cases hside : filing.isBase <;>
    simp [keyGroupOf, KeyGroup.push, hside]

variable {key : KeyInput}

theorem keyGroupOf_concat_of_ne (filed : List Filing) {filing : Filing} (hne : filing.key ≠ key) :
    keyGroupOf (filed ++ [filing]) key = keyGroupOf filed key := by
  simp [keyGroupOf, decide_eq_false hne]

variable {codec : Codec} {filed : List Filing} {groups : KeyGroups}

theorem filed_nil : Filed codec [] ∅ where
  spelled := fun filing h => absurd h List.not_mem_nil
  group := by
    intro digest group
    rw [getElem?_empty]
    simp

variable {isBase : Bool} {comparison : Comparison}

theorem ownFilings_cons (isBase : Bool) (observation : Observation)
    (observations : List Observation) :
    ownFilings codec isBase (observation :: observations) =
      ownFilings codec isBase [observation] ++ ownFilings codec isBase observations := by
  rw [ownFilings, ownFilings, ownFilings, ← filterMap_append, singleton_append]

theorem ownFilings_singleton (isBase : Bool) (observation : Observation) :
    ownFilings codec isBase [observation] =
      ((ownKey codec observation).map (fun key => ⟨key, observation, isBase⟩)).toList := by
  rw [ownFilings, filterMap_cons, filterMap_nil]
  cases ownKey codec observation <;> rfl

theorem ownFilings_append (isBase : Bool) (left right : List Observation) :
    ownFilings codec isBase (left ++ right) =
      ownFilings codec isBase left ++ ownFilings codec isBase right :=
  filterMap_append

/-- The continued key of a row is among its candidate filings. -/
theorem Comparison.continuedKey_filed (h : comparison.continuedKey codec = some key) :
    ∃ filing ∈ ownFilings codec false comparison.candidateMembers, filing.key = key := by
  unfold Comparison.continuedKey at h
  split at h
  · rw [Option.bind_eq_some_iff] at h
    rcases h with ⟨observation, hcandidate, hkey⟩
    refine ⟨⟨key, observation, false⟩, ?_, rfl⟩
    rw [ownFilings, mem_filterMap]
    refine ⟨observation, ?_, by rw [hkey, Option.map_some]⟩
    rw [Comparison.candidateMembers, hcandidate]
    exact mem_append_left _ (mem_singleton_self _)
  · cases h

theorem collectAll_runs {observations : List Observation}
    (hspelled : ∀ filing ∈ ownFilings codec isBase observations,
      ∃ digest, keyDigest codec filing.key = .ok digest) (groups : KeyGroups) :
    ∃ result, collectAll codec isBase groups observations = .ok result := by
  unfold collectAll
  induction observations generalizing groups with
  | nil => exact ⟨groups, rfl⟩
  | cons observation observations ih =>
    rw [ownFilings_cons] at hspelled
    have hrest := ih (fun filing hfiling => hspelled filing (mem_append_right _ hfiling))
    have hstep : ∃ collected,
        collectStructural codec groups observation isBase = .ok collected := by
      unfold collectStructural
      split
      · exact ⟨_, rfl⟩
      · next kind hkind =>
        have hmem : (⟨structuralKey codec kind observation, observation, isBase⟩ : Filing) ∈
            ownFilings codec isBase [observation] := by
          simp [ownFilings, ownKey, hkind]
        rcases hspelled _ (mem_append_left _ hmem) with ⟨digest, hdigest⟩
        refine ⟨_, bind_eq_ok.mpr ⟨digest, hdigest, rfl⟩⟩
    rcases hstep with ⟨collected, hcollected⟩
    rcases hrest collected.1 with ⟨result, hresult⟩
    refine ⟨result, ?_⟩
    rw [foldlM_cons, hcollected, ok_bind, pure_eq_ok, ok_bind]
    exact hresult

section

variable (h : Filed codec filed groups) (hfree : codec.CollisionFree)

include h hfree

/-- What the map holds for a key, filed before or not. -/
theorem Filed.getD_eq {digest : Digest} (hdigest : keyDigest codec key = .ok digest) :
    groups[digest]?.getD ⟨key, [], []⟩ = keyGroupOf filed key := by
  cases hentry : groups[digest]? with
  | some group =>
    rcases (h.group digest group).mp hentry with ⟨filing, _, hkey, rfl⟩
    rw [hfree _ _ _ hkey hdigest]
    rfl
  | none =>
    -- A filing under the key would have made the entry.
    have hnone : ∀ filing ∈ filed, filing.key ≠ key := by
      intro filing hfiling heq
      have hsome := (h.group digest (keyGroupOf filed filing.key)).mpr
        ⟨filing, hfiling, heq ▸ hdigest, rfl⟩
      rw [hentry] at hsome
      cases hsome
    have hempty : ∀ side : Filing → Bool,
        filed.filter (fun filing => side filing && filing.key = key) = [] := by
      intro side
      rw [filter_eq_nil_iff]
      intro filing hfiling htrue
      rw [Bool.and_eq_true, decide_eq_true_eq] at htrue
      exact hnone filing hfiling htrue.2
    simp only [Option.getD_none, keyGroupOf]
    rw [hempty (fun filing => filing.isBase), hempty (fun filing => !filing.isBase)]
    rfl

/-- One more filing goes to the group of its key. -/
theorem Filed.push {filing : Filing} {digest : Digest}
    (hdigest : keyDigest codec filing.key = .ok digest) :
    Filed codec (filed ++ [filing]) (upsert groups digest (fun entry =>
      (entry.getD ⟨filing.key, [], []⟩).push filing.observation filing.isBase)) where
  spelled := by
    intro other hother
    rcases mem_append.mp hother with hold | hnew
    · exact h.spelled other hold
    · rw [mem_singleton.mp hnew]
      exact ⟨digest, hdigest⟩
  group := by
    intro place group
    rw [getElem?_upsert]
    by_cases hplace : digest = place
    · subst hplace
      rw [if_pos rfl, h.getD_eq hfree hdigest, ← keyGroupOf_concat_self, Option.some.injEq]
      constructor
      · intro heq
        exact ⟨filing, mem_append_right _ (mem_singleton_self _), hdigest, heq.symm⟩
      · rintro ⟨other, _, hkey, rfl⟩
        rw [hfree _ _ _ hkey hdigest]
    · rw [if_neg hplace, h.group]
      -- The other keys see nothing of the new filing.
      have hother : ∀ other : Filing, keyDigest codec other.key = .ok place →
          keyGroupOf (filed ++ [filing]) other.key = keyGroupOf filed other.key := by
        intro other hkey
        refine keyGroupOf_concat_of_ne filed (fun heq => hplace ?_)
        rw [heq, hkey, ok.injEq] at hdigest
        exact hdigest.symm
      constructor
      · rintro ⟨other, hmem, hkey, rfl⟩
        exact ⟨other, mem_append_left _ hmem, hkey, (hother other hkey).symm⟩
      rintro ⟨other, hmem, hkey, rfl⟩
      rcases mem_append.mp hmem with hold | hnew
      · exact ⟨other, hold, hkey, hother other hkey⟩
      · rw [mem_singleton.mp hnew, hdigest, ok.injEq] at hkey
        exact absurd hkey hplace

/-- Filing one occurrence under its own key, and the digest it is filed at. -/
theorem collectStructural_filed {observation : Observation} {result : KeyGroups × Option Digest}
    (hrun : collectStructural codec groups observation isBase = .ok result) :
    Filed codec (filed ++ ownFilings codec isBase [observation]) result.1 ∧
      ∀ digest, result.2 = some digest ↔
        ∃ key, ownKey codec observation = some key ∧ keyDigest codec key = .ok digest := by
  unfold collectStructural at hrun
  split at hrun
  · next hkind =>
    cases hrun
    have hnone : ownKey codec observation = none := by
      rw [ownKey, hkind, Option.map_none]
    simp only [ownFilings, filterMap_cons, hnone, Option.map_none, filterMap_nil,
      append_nil, reduceCtorEq, false_and, exists_false, implies_true, and_true]
    exact h
  · next kind hkind =>
    simp only [bind_eq_ok, pure_eq_ok, ok.injEq] at hrun
    rcases hrun with ⟨digest, hdigest, rfl⟩
    have hown : ownKey codec observation = some (structuralKey codec kind observation) := by
      rw [ownKey, hkind, Option.map_some]
    have hpush := @Filed.push _ _ _ h hfree
      ⟨structuralKey codec kind observation, observation, isBase⟩ digest hdigest
    simp only [ownFilings, filterMap_cons, hown, Option.map_some, filterMap_nil]
    refine ⟨hpush, fun other => ?_⟩
    simp [hdigest]

variable {result : KeyGroups}

theorem collectAll_filed {observations : List Observation}
    (hrun : collectAll codec isBase groups observations = .ok result) :
    Filed codec (filed ++ ownFilings codec isBase observations) result := by
  unfold collectAll at hrun
  induction observations generalizing filed groups with
  | nil =>
    rw [foldlM_nil, pure_eq_ok, ok.injEq] at hrun
    subst hrun
    rw [ownFilings, filterMap_nil, append_nil]
    exact h
  | cons observation observations ih =>
    rw [foldlM_cons, bind_eq_ok] at hrun
    rcases hrun with ⟨next, hnext, hrest⟩
    simp only [bind_eq_ok, pure_eq_ok, ok.injEq] at hnext
    rcases hnext with ⟨collected, hcollected, rfl⟩
    rw [ownFilings_cons, ← append_assoc]
    exact ih (collectStructural_filed h hfree hcollected).1 hrest

/-- The primary candidate is filed like the others of its side; its digest
    stands for the continued key. -/
theorem collectCandidate_filed {result : KeyGroups × Option Digest}
    (hrun : collectCandidate codec groups comparison = .ok result) :
    Filed codec (filed ++ ownFilings codec false comparison.candidate.toList) result.1 ∧
      ∀ digest, result.2 = some digest ↔
        ∃ key, comparison.continuedKey codec = some key ∧ keyDigest codec key = .ok digest := by
  unfold collectCandidate at hrun
  split at hrun
  · next hcandidate =>
    cases hrun
    rw [hcandidate]
    refine ⟨?_, fun digest => ?_⟩
    · rw [Option.toList_none, ownFilings, filterMap_nil, append_nil]
      exact h
    · simp [Comparison.continuedKey, hcandidate]
  · next observation hcandidate =>
    rw [bind_eq_ok] at hrun
    rcases hrun with ⟨collected, hcollected, hrest⟩
    have hfiled := collectStructural_filed h hfree hcollected
    rw [hcandidate, Option.toList_some]
    cases houtcome : comparison.outcome <;>
      simp only [houtcome, pure_eq_ok, ok.injEq] at hrest <;> subst hrest <;>
      simp only [Comparison.continuedKey, houtcome, hcandidate, Option.bind_some, reduceCtorEq,
        or_self, or_true, true_or, if_true, if_false, false_and, exists_false, implies_true,
        and_true]
    · exact hfiled.1
    · exact hfiled
    · exact hfiled
    · exact hfiled.1

/-- An occurrence that joins a group already there is filed under its key. -/
theorem Filed.join {digest : Digest} (hdigest : keyDigest codec key = .ok digest)
    {group : KeyGroup} (hgroup : groups[digest]? = some group) (base : Observation) :
    Filed codec (filed ++ [⟨key, base, true⟩]) (groups.insert digest (group.push base true)) := by
  have hpush := @Filed.push _ _ _ h hfree ⟨key, base, true⟩ digest hdigest
  have hsame : groups.insert digest (group.push base true) =
      upsert groups digest (fun entry => (entry.getD ⟨key, [], []⟩).push base true) := by
    refine ext_getElem? (fun {place} => ?_)
    rw [getElem?_upsert, getElem?_inserted, hgroup, Option.getD_some]
  rw [hsame]
  exact hpush

/-- The primary base occurrence is filed under its joined key, once the
    candidates of its row are. -/
theorem joinBase_filed {continued : Option Digest} {base : Observation}
    (hcontinued : ∀ digest, continued = some digest ↔
      ∃ key, comparison.continuedKey codec = some key ∧ keyDigest codec key = .ok digest)
    (hfiled : ∀ key, comparison.continuedKey codec = some key → ∃ filing ∈ filed, filing.key = key)
    (hrun : joinBase codec groups continued base = .ok result) :
    Filed codec (filed ++ ((comparison.joinedKey codec base).map
      (fun key => ⟨key, base, true⟩)).toList) result := by
  -- Where it does not join, it is collected like any other.
  have hown : ∀ {collected : KeyGroups × Option Digest},
      collectStructural codec groups base true = .ok collected →
      Filed codec (filed ++ ((ownKey codec base).map (fun key => ⟨key, base, true⟩)).toList)
        collected.1 := by
    intro collected hcollected
    rw [← ownFilings_singleton]
    exact (collectStructural_filed h hfree hcollected).1
  unfold joinBase at hrun
  simp only at hrun
  unfold Comparison.joinedKey
  cases hkey : comparison.continuedKey codec with
  | none =>
    have hnone : continued = none := by
      cases continued with
      | none => rfl
      | some digest =>
        rcases (hcontinued digest).mp rfl with ⟨key, hsome, _⟩
        rw [hkey] at hsome
        cases hsome
    rw [hnone] at hrun
    simp only [Option.bind_none, bind_eq_ok, pure_eq_ok, ok.injEq] at hrun
    rcases hrun with ⟨collected, hcollected, rfl⟩
    rw [Option.filter_none, Option.none_or]
    exact hown hcollected
  | some key =>
    rcases hfiled key hkey with ⟨filing, hfiling, rfl⟩
    rcases h.spelled filing hfiling with ⟨digest, hdigest⟩
    have hgroup := (h.group digest _).mpr ⟨filing, hfiling, hdigest, rfl⟩
    rw [(hcontinued digest).mpr ⟨filing.key, hkey, hdigest⟩, Option.bind_some, hgroup] at hrun
    by_cases hkind : some filing.key.findingKind = (resolutionKinds base.resolution).structural
    · rw [Option.filter_some_pos (by exact decide_eq_true hkind), Option.map_some, ok.injEq] at hrun
      subst hrun
      rw [Option.filter_some_pos (by exact decide_eq_true hkind), Option.some_or,
        Option.map_some, Option.toList_some]
      exact h.join hfree hdigest hgroup base
    · rw [Option.filter_some_neg (by exact decide_eq_false hkind), Option.map_none] at hrun
      simp only [bind_eq_ok, pure_eq_ok, ok.injEq] at hrun
      rcases hrun with ⟨collected, hcollected, rfl⟩
      rw [Option.filter_some_neg (by exact decide_eq_false hkind), Option.none_or]
      exact hown hcollected

theorem joinComparison_filed (hrun : joinComparison codec groups comparison = .ok result) :
    Filed codec (filed ++ comparison.filings codec) result := by
  simp only [joinComparison, bind_eq_ok] at hrun
  rcases hrun with ⟨collected, hcandidate, candidates, hcandidates, based, hbase, hrest⟩
  have hprimary := collectCandidate_filed h hfree hcandidate
  have hside : Filed codec (filed ++ ownFilings codec false comparison.candidateMembers)
      candidates := by
    rw [Comparison.candidateMembers, ownFilings_append, ← append_assoc]
    exact collectAll_filed hprimary.1 hfree hcandidates
  have hjoined : Filed codec (filed ++ ownFilings codec false comparison.candidateMembers ++
      comparison.joinedFilings codec) based := by
    unfold Comparison.joinedFilings
    cases hprimaryBase : comparison.base with
    | none =>
      rw [hprimaryBase, collectBase, ok.injEq] at hbase
      subst hbase
      rw [Option.toList_none, filterMap_nil, append_nil]
      exact hside
    | some base =>
      rw [hprimaryBase, collectBase] at hbase
      have hfiled := joinBase_filed hside hfree hprimary.2 (fun key hkey => by
        rcases Comparison.continuedKey_filed hkey with ⟨filing, hmem, heq⟩
        exact ⟨filing, mem_append_right _ hmem, heq⟩) hbase
      rw [Option.toList_some, filterMap_cons, filterMap_nil]
      cases hkey : comparison.joinedKey codec base with
      | none =>
        rw [hkey] at hfiled
        exact hfiled
      | some key =>
        rw [hkey] at hfiled
        exact hfiled
  rw [Comparison.filings, ← append_assoc, ← append_assoc]
  exact collectAll_filed hjoined hfree hrest

end

theorem structuralGroups_filed (hfree : codec.CollisionFree) {comparisons : List Comparison}
    (hrun : structuralGroups codec comparisons = .ok result) :
    Filed codec (filings codec comparisons) result := by
  have hloop : ∀ (rows : List Comparison) (filed : List Filing) (groups : KeyGroups),
      Filed codec filed groups → rows.foldlM (joinComparison codec) groups = .ok result →
      Filed codec (filed ++ filings codec rows) result := by
    intro rows
    induction rows with
    | nil =>
      intro filed groups h hrun
      rw [foldlM_nil, pure_eq_ok, ok.injEq] at hrun
      subst hrun
      rw [filings, flatMap_nil, append_nil]
      exact h
    | cons comparison rows ih =>
      intro filed groups h hrun
      rw [foldlM_cons, bind_eq_ok] at hrun
      rcases hrun with ⟨next, hnext, hrest⟩
      rw [filings, flatMap_cons, ← append_assoc]
      exact ih _ _ (joinComparison_filed h hfree hnext) hrest
  have hall := hloop comparisons [] ∅ filed_nil hrun
  rw [nil_append] at hall
  exact hall

end Groups

section Members

variable {codec : Codec}

theorem isBase_of_ownFilings {isBase : Bool} {observations : List Observation} {filing : Filing}
    (h : filing ∈ ownFilings codec isBase observations) : filing.isBase = isBase := by
  rcases mem_filterMap.mp h with ⟨observation, _, hmap⟩
  rcases Option.map_eq_some_iff.mp hmap with ⟨key, _, rfl⟩
  rfl

theorem isBase_of_joinedFilings {comparison : Comparison} {filing : Filing}
    (h : filing ∈ comparison.joinedFilings codec) : filing.isBase = true := by
  rcases mem_filterMap.mp h with ⟨observation, _, hmap⟩
  rcases Option.map_eq_some_iff.mp hmap with ⟨key, _, rfl⟩
  rfl

/-- The candidate filings of a comparison are those of its candidate side. -/
theorem candidate_filings :
    (filings codec comparisons).filter (fun filing => !filing.isBase) =
      ownFilings codec false (candidateObservations comparisons) := by
  have hrow : ∀ comparison : Comparison,
      (comparison.filings codec).filter (fun filing => !filing.isBase) =
        ownFilings codec false comparison.candidateMembers := by
    intro comparison
    have hbases : (comparison.joinedFilings codec ++
        ownFilings codec true comparison.alternativesBase).filter
          (fun filing => !filing.isBase) = [] := by
      rw [filter_eq_nil_iff]
      intro filing hfiling
      have hbase : filing.isBase = true :=
        (mem_append.mp hfiling).elim isBase_of_joinedFilings isBase_of_ownFilings
      simp [hbase]
    rw [Comparison.filings, append_assoc, filter_append, hbases, append_nil, filter_eq_self]
    intro filing hfiling
    rw [isBase_of_ownFilings hfiling]
    rfl
  unfold filings candidateObservations
  induction comparisons with
  | nil => rfl
  | cons comparison comparisons ih =>
    rw [flatMap_cons, filter_append, hrow, ih, flatMap_cons, ownFilings_append]

theorem observations_of_ownFilings (isBase : Bool) (observations : List Observation)
    (key : KeyInput) :
    ((ownFilings codec isBase observations).filter (fun filing => filing.key = key)).map
      Filing.observation =
        observations.filter (fun observation => ownKey codec observation = some key) := by
  unfold ownFilings
  induction observations with
  | nil => rfl
  | cons observation observations ih =>
    rw [filterMap_cons, filter_cons]
    cases hown : ownKey codec observation with
    | none =>
      simp only [Option.map_none, reduceCtorEq, decide_false, Bool.false_eq_true, if_false]
      exact ih
    | some found =>
      simp only [Option.map_some, filter_cons, Option.some.injEq]
      by_cases heq : found = key
      · simp [heq, ih]
      · simp [heq, ih]

theorem keyGroupOf_candidate (key : KeyInput) :
    (keyGroupOf (filings codec comparisons) key).candidate =
      (candidateObservations comparisons).filter
        (fun observation => ownKey codec observation = some key) := by
  rw [← observations_of_ownFilings false, ← candidate_filings, filter_filter]
  simp only [keyGroupOf, Bool.and_comm]

theorem keyGroupOf_ownFilings (observations : List Observation) (key : KeyInput) :
    keyGroupOf (ownFilings codec false observations) key =
      ⟨key, [], observations.filter (fun observation => ownKey codec observation = some key)⟩ := by
  have hsides : ∀ filing ∈ ownFilings codec false observations, filing.isBase = false :=
    fun filing hfiling => isBase_of_ownFilings hfiling
  have hbase : (ownFilings codec false observations).filter
      (fun filing => filing.isBase && filing.key = key) = [] := by
    rw [filter_eq_nil_iff]
    intro filing hfiling
    simp [hsides filing hfiling]
  have hcandidate : (ownFilings codec false observations).filter
      (fun filing => !filing.isBase && filing.key = key) =
      (ownFilings codec false observations).filter (fun filing => filing.key = key) := by
    refine filter_congr (fun filing hfiling => ?_)
    rw [hsides filing hfiling, Bool.not_false, Bool.true_and]
  rw [keyGroupOf, hbase, hcandidate, observations_of_ownFilings, map_nil]

end Members

/-- What a finding says about the group it reports. -/
structure GroupLaw (codec : Codec) (comparisons : List Comparison) (group : KeyGroup)
    (finding : Finding) : Prop where
  key : finding.keyInput = group.key
  keyed : keyDigest codec group.key = .ok finding.findingKey
  candidates : group.candidate = (candidateObservations comparisons).filter
    (fun observation => ownKey codec observation = some finding.keyInput)
  baseFact : sideFact codec group.key group.base = .ok finding.baseFact
  candidateFact : sideFact codec group.key group.candidate = .ok finding.candidateFact
  present : finding.candidateFact ≠ none ↔ ∃ observation ∈ candidateObservations comparisons,
    ownKey codec observation = some finding.keyInput
  introduced : finding.attribution = .introduced ↔ group.base = []
  resolved : finding.attribution = .resolved ↔ group.candidate = []
  preExisting : finding.attribution = .preExisting ↔
    ∃ base bases candidate candidates, group.base = base :: bases ∧
      group.candidate = candidate :: candidates ∧
      group.base.length = group.candidate.length ∧
      failureShape base.resolution = failureShape candidate.resolution

section Findings

variable {codec : Codec} {comparisons : List Comparison} {profile : Profile}
  {groups : KeyGroups}

theorem sameFailure_iff (base candidate : List Observation) :
    sameFailure base candidate = true ↔
      ∃ left lefts right rights, base = left :: lefts ∧ candidate = right :: rights ∧
        base.length = candidate.length ∧
        failureShape left.resolution = failureShape right.resolution := by
  unfold sameFailure
  cases base with
  | nil => simp
  | cons left lefts =>
    cases candidate with
    | nil =>
      simp
    | cons right rights =>
      rw [Bool.and_eq_true, beq_iff_eq, beq_iff_eq]
      constructor
      · rintro ⟨hlength, hshape⟩
        exact ⟨left, lefts, right, rights, rfl, rfl, hlength, hshape⟩
      · rintro ⟨_, _, _, _, hleft, hright, hlength, hshape⟩
        cases hleft
        cases hright
        exact ⟨hlength, hshape⟩

variable {group : KeyGroup}

theorem Filed.inhabited {filed : List Filing} (h : Filed codec filed groups) {digest : Digest}
    (hgroup : groups[digest]? = some group) : group.base ≠ [] ∨ group.candidate ≠ [] := by
  rcases (h.group digest group).mp hgroup with ⟨filing, hfiling, _, rfl⟩
  cases hside : filing.isBase with
  | true =>
    refine Or.inl (ne_nil_of_mem (mem_map_of_mem (mem_filter.mpr ⟨hfiling, ?_⟩)))
    simp [hside]
  | false =>
    refine Or.inr (ne_nil_of_mem (mem_map_of_mem (mem_filter.mpr ⟨hfiling, ?_⟩)))
    simp [hside]

/-- The digests of the findings are the keys of the groups, in order. -/
theorem findingKeys_of_results {entries : List (Digest × KeyGroup)}
    {results : List (Option Finding)}
    (h : List.Forall₂ (fun entry result =>
      ∃ finding : Finding, result = some finding ∧ finding.findingKey = entry.1) entries results) :
    results.reduceOption.map Finding.findingKey = entries.map Prod.fst := by
  induction h with
  | nil => rfl
  | cons hhead _ ih =>
    rcases hhead with ⟨finding, rfl, hkey⟩
    rw [reduceOption_cons_of_some, map_cons, map_cons, ih, hkey]

/-- The row of the candidate side's facts for one group. -/
theorem factRow_eq (digest : Digest) {fact : FindingFact}
    (h : sideFact codec group.key group.candidate = .ok (some fact)) :
    (do
      let first ← okOrInternal group.candidate.head?
      let multiplicity := countU64 group.candidate.length
      let found ← factDigest codec
        ⟨.reference multiplicity first.resolution, group.key.findingKind, group.key⟩
      pure (digest, multiplicity, found) : Except ScanError (Digest × Nat × Digest)) =
      .ok (digest, countU64 group.candidate.length, fact.digest) ∧
      ∃ resolution, fact.input =
        ⟨.reference (countU64 group.candidate.length) resolution, group.key.findingKind,
          group.key⟩ := by
  cases hmembers : group.candidate with
  | nil =>
    rw [hmembers, sideFact, ok.injEq] at h
    cases h
  | cons first rest =>
    rw [hmembers] at h
    simp only [sideFact, Amiss.fact, bind_eq_ok, pure_eq_ok, ok.injEq, Option.some.injEq] at h
    rcases h with ⟨_, ⟨found, hfound, rfl⟩, rfl⟩
    simp only [head?_cons, okOrInternal, length_cons, ok_bind, hfound, pure_eq_ok]
    exact ⟨trivial, first.resolution, rfl⟩

section

variable (h : Filed codec (filings codec comparisons) groups)

include h

/-- The finding of a group, and what it says about it. -/
theorem Filed.law {digest : Digest} (hgroup : groups[digest]? = some group)
    {result : Option Finding}
    (hrun : structuralFinding codec profile digest group = .ok result) :
    ∃ finding, result = some finding ∧ finding.findingKey = digest ∧
      GroupLaw codec comparisons group finding := by
  have hinhabited := h.inhabited hgroup
  rcases (h.group digest group).mp hgroup with ⟨filing, hfiling, hdigest, hmembers⟩
  have hkey : group.key = filing.key := by rw [hmembers, keyGroupOf]
  have hcandidates : group.candidate = (candidateObservations comparisons).filter
      (fun observation => ownKey codec observation = some group.key) := by
    rw [hkey, hmembers]
    exact keyGroupOf_candidate comparisons filing.key
  simp only [structuralFinding, bind_eq_ok, pure_eq_ok] at hrun
  rcases hrun with ⟨baseFact, hbase, candidateFact, hcandidate, hrun⟩
  have hbaseless := sideFact_eq_ok hbase
  have hcandidateless := sideFact_eq_ok hcandidate
  have happlicable : structuralAttribution group baseFact candidateFact ≠ .notApplicable := by
    intro hnot
    unfold structuralAttribution at hnot
    split at hnot
    · exact absurd hnot (by decide)
    · exact absurd hnot (by decide)
    · split at hnot <;> exact absurd hnot (by decide)
    · rcases hinhabited with hb | hc
      · exact hb (hbaseless.mp rfl)
      · exact hc (hcandidateless.mp rfl)
  rw [if_neg happlicable, ok.injEq] at hrun
  refine ⟨_, hrun.symm, rfl, ⟨rfl, hkey ▸ hdigest, hcandidates, hbase, hcandidate, ?_, ?_, ?_, ?_⟩⟩
  · rw [ne_eq, hcandidateless, hcandidates, filter_eq_nil_iff]
    simp [not_forall]
  · rw [← hbaseless]
    cases baseFact <;> cases candidateFact <;>
      simp only [structuralAttribution, reduceCtorEq, ne_eq, not_true_eq_false] at happlicable ⊢
    split <;> simp
  · rw [← hcandidateless]
    cases baseFact <;> cases candidateFact <;>
      simp only [structuralAttribution, reduceCtorEq, ne_eq, not_true_eq_false] at happlicable ⊢
    split <;> simp
  · rw [← sameFailure_iff]
    cases hleft : baseFact with
    | none =>
      rw [hbaseless.mp hleft]
      cases candidateFact <;> simp [structuralAttribution, sameFailure]
    | some left =>
      cases hright : candidateFact with
      | none =>
        rw [hcandidateless.mp hright]
        cases group.base <;> simp [structuralAttribution, sameFailure]
      | some right =>
        simp only [structuralAttribution]
        split
        · next hsame => simp only [hsame]
        · next hsame => simp [hsame]

/-- The groups of the candidate side alone are the groups that have a candidate,
    without their base members. -/
theorem Filed.candidateSide {side : KeyGroups}
    (hside : Filed codec (ownFilings codec false (candidateObservations comparisons)) side)
    (digest : Digest) (group : KeyGroup) :
    side[digest]? = some group ↔ ∃ whole, groups[digest]? = some whole ∧
      whole.candidate ≠ [] ∧ group = ⟨whole.key, [], whole.candidate⟩ := by
  rw [hside.group]
  constructor
  · rintro ⟨filing, hfiling, hdigest, rfl⟩
    rw [← candidate_filings] at hfiling
    have hmem := (mem_filter.mp hfiling).1
    refine ⟨keyGroupOf (filings codec comparisons) filing.key,
      (h.group digest _).mpr ⟨filing, hmem, hdigest, rfl⟩, ?_, ?_⟩
    · refine ne_nil_of_mem (mem_map_of_mem (mem_filter.mpr ⟨hmem, ?_⟩))
      simp [(mem_filter.mp hfiling).2]
    · rw [keyGroupOf_ownFilings, keyGroupOf_candidate]
      rfl
  · rintro ⟨whole, hwhole, hne, rfl⟩
    rcases (h.group digest whole).mp hwhole with ⟨filing, _, hdigest, rfl⟩
    rcases exists_mem_of_ne_nil _ hne with ⟨observation, hobservation⟩
    rcases mem_map.mp hobservation with ⟨candidate, hcandidate, _⟩
    rw [mem_filter, Bool.and_eq_true, decide_eq_true_eq] at hcandidate
    refine ⟨candidate, ?_, hcandidate.2.2 ▸ hdigest, ?_⟩
    · rw [← candidate_filings]
      exact mem_filter.mpr ⟨hcandidate.1, hcandidate.2.1⟩
    · rw [keyGroupOf_ownFilings, keyGroupOf_candidate, hcandidate.2.2]
      rfl

/-- The findings report the groups: one finding for each, in order. -/
structure Reports (codec : Codec) (comparisons : List Comparison) (groups : KeyGroups)
    (findings : List Finding) : Prop where
  keys : findings.map Finding.findingKey = groups.keys
  law : ∀ finding ∈ findings, ∃ group, groups[finding.findingKey]? = some group ∧
    GroupLaw codec comparisons group finding
  reported : ∀ digest group, groups[digest]? = some group → ∃ finding ∈ findings,
    finding.findingKey = digest ∧ GroupLaw codec comparisons group finding

theorem Filed.reports {results : List (Option Finding)}
    (hresults : groups.toList.mapM (fun entry => structuralFinding codec profile entry.1 entry.2) =
      .ok results) : Reports codec comparisons groups results.reduceOption := by
  have hlaw : ∀ entry ∈ groups.toList, ∀ result,
      structuralFinding codec profile entry.1 entry.2 = .ok result →
      ∃ finding, result = some finding ∧ finding.findingKey = entry.1 ∧
        GroupLaw codec comparisons entry.2 finding := by
    intro entry hmem result hrun
    exact h.law ((mem_toList groups entry.1 entry.2).mp hmem) hrun
  refine ⟨?_, ?_, ?_⟩
  · rw [← map_fst_toList_eq_keys]
    refine findingKeys_of_results ?_
    have hall := (forall₂_and_left _ _).mpr ⟨hlaw, mapM_eq_ok.mp hresults⟩
    refine hall.imp (fun entry result hentry => ?_)
    rcases hentry.1 result hentry.2 with ⟨finding, hsome, hkey, _⟩
    exact ⟨finding, hsome, hkey⟩
  · intro finding hmem
    rw [reduceOption_mem_iff, mem_of_mapM hresults] at hmem
    rcases hmem with ⟨entry, hentry, hrun⟩
    rcases hlaw entry hentry _ hrun with ⟨found, hsome, hkey, hgroupLaw⟩
    cases hsome
    exact ⟨entry.2, hkey ▸ (mem_toList groups entry.1 entry.2).mp hentry, hgroupLaw⟩
  · intro digest group hgroup
    have hmem := (mem_toList groups digest group).mpr hgroup
    rcases exists_of_mapM hresults hmem with ⟨result, hrun⟩
    rcases hlaw _ hmem result hrun with ⟨finding, rfl, hkey, hgroupLaw⟩
    refine ⟨finding, reduceOption_mem_iff.mpr ?_, hkey, hgroupLaw⟩
    exact (mem_of_mapM hresults _).mpr ⟨_, hmem, hrun⟩

end

/-- The row of a finding that has a candidate fact. -/
def FactRow (finding : Finding) (digest : Digest) (multiplicity : Nat) (found : Digest) : Prop :=
  ∃ fact resolution, finding.findingKey = digest ∧ finding.candidateFact = some fact ∧
    fact.input = ⟨.reference multiplicity resolution, finding.kind, finding.keyInput⟩ ∧
    fact.digest = found

/-- The candidate side alone has the facts of the findings, and no others. -/
theorem Reports.facts (hfree : codec.CollisionFree)
    (hfiled : Filed codec (filings codec comparisons) groups) {findings : List Finding}
    (hreports : Reports codec comparisons groups findings) :
    ∃ facts, structuralFacts codec (candidateObservations comparisons) = .ok facts ∧
      ∀ digest multiplicity found, (digest, multiplicity, found) ∈ facts ↔
        ∃ finding ∈ findings, FactRow finding digest multiplicity found := by
  have hspelled : ∀ filing ∈ ownFilings codec false (candidateObservations comparisons),
      ∃ digest, keyDigest codec filing.key = .ok digest := by
    intro filing hfiling
    rw [← candidate_filings] at hfiling
    exact hfiled.spelled filing (mem_filter.mp hfiling).1
  rcases collectAll_runs hspelled ∅ with ⟨side, hside⟩
  have hsideFiled := collectAll_filed filed_nil hfree hside
  rw [nil_append] at hsideFiled
  have hentries := hfiled.candidateSide hsideFiled
  -- Each group of the side has its finding and its fact.
  have hrow : ∀ entry ∈ side.toList, ∃ finding ∈ findings, ∃ fact,
      finding.findingKey = entry.1 ∧ finding.candidateFact = some fact ∧
      finding.keyInput = entry.2.key ∧
      sideFact codec entry.2.key entry.2.candidate = .ok (some fact) := by
    intro entry hmem
    rcases (hentries entry.1 entry.2).mp ((mem_toList side entry.1 entry.2).mp hmem) with
      ⟨whole, hwhole, hne, heq⟩
    rcases hreports.reported entry.1 whole hwhole with ⟨finding, hfinding, hkey, hlaw⟩
    have hcandidate := hlaw.candidateFact
    cases hfact : finding.candidateFact with
    | none => exact absurd ((sideFact_eq_ok hcandidate).mp hfact) hne
    | some fact =>
      rw [hfact] at hcandidate
      refine ⟨finding, hfinding, fact, hkey, hfact, ?_, ?_⟩
      · rw [heq, hlaw.key]
      · rw [heq]
        exact hcandidate
  have hruns : ∃ facts, structuralFacts codec (candidateObservations comparisons) = .ok facts := by
    rw [structuralFacts, hside, ok_bind]
    refine mapM_runs (fun entry hmem => ?_)
    rcases hrow entry hmem with ⟨_, _, fact, _, _, _, hfact⟩
    exact ⟨_, (factRow_eq entry.1 hfact).1⟩
  rcases hruns with ⟨facts, hfacts⟩
  refine ⟨facts, hfacts, fun digest multiplicity found => ?_⟩
  rw [structuralFacts, hside, ok_bind] at hfacts
  rw [mem_of_mapM hfacts]
  constructor
  · rintro ⟨entry, hmem, hrun⟩
    rcases hrow entry hmem with ⟨finding, hfinding, fact, hkey, hcandidate, hinput, hfact⟩
    have hspec := factRow_eq entry.1 hfact
    rcases hspec.2 with ⟨resolution, hfactInput⟩
    cases hspec.1.symm.trans hrun
    refine ⟨finding, hfinding, fact, resolution, hkey, hcandidate, ?_, rfl⟩
    rw [hfactInput, Finding.kind, hinput]
  · rintro ⟨finding, hmem, fact, resolution, rfl, hcandidate, hinput, rfl⟩
    rcases hreports.law finding hmem with ⟨group, hgroup, hlaw⟩
    have hfact := hlaw.candidateFact
    rw [hcandidate] at hfact
    have hne : group.candidate ≠ [] := by
      intro hnil
      have hnone := (sideFact_eq_ok hfact).mpr hnil
      cases hnone
    have hentry := (hentries finding.findingKey _).mpr ⟨group, hgroup, hne, rfl⟩
    have hspec := factRow_eq finding.findingKey hfact
    rcases hspec.2 with ⟨_, hfactInput⟩
    rw [hinput, FactInput.mk.injEq, Evidence.reference.injEq] at hfactInput
    refine ⟨_, (mem_toList side _ _).mpr hentry, ?_⟩
    rw [hfactInput.1.1]
    exact hspec.1

end Findings

section Unchanged

variable {codec : Codec} {rows : List Comparison}

/-- A row that pairs an occurrence with itself files it once on each side. -/
theorem filings_exactComparison (observation : Observation) :
    (exactComparison observation observation).filings codec =
      ownFilings codec false [observation] ++ ownFilings codec true [observation] := by
  have hjoined : (exactComparison observation observation).joinedKey codec observation =
      ownKey codec observation := by
    change ((ownKey codec observation).filter _).or (ownKey codec observation) = _
    cases ownKey codec observation with
    | none => rfl
    | some key => rw [Option.filter_some]; split <;> rfl
  change _ ++ filterMap _ [observation] ++ [] = _
  rw [append_nil, filterMap_cons, hjoined]
  rfl

theorem keyGroupOf_unchanged
    (h : ∀ row ∈ rows, ∃ observation, row = exactComparison observation observation)
    (key : KeyInput) :
    (keyGroupOf (filings codec rows) key).base =
      (keyGroupOf (filings codec rows) key).candidate := by
  induction rows with
  | nil => rfl
  | cons row rows ih =>
    have hrest := ih (fun row hrow => h row (mem_cons_of_mem _ hrow))
    rcases h _ mem_cons_self with ⟨observation, rfl⟩
    simp only [keyGroupOf, filings, flatMap_cons, filter_append, map_append] at hrest ⊢
    rw [hrest, filings_exactComparison, ownFilings_singleton, ownFilings_singleton]
    cases ownKey codec observation with
    | none => rfl
    | some found => by_cases hkey : found = key <;> simp [hkey]

variable {base candidate : Side} {profile : Profile} {finding : Finding}

/-- Where both sides hold the same occurrences, every group was there before. -/
theorem FromGroup.unchanged (hfree : codec.CollisionFree)
    (hsame : base.observations = candidate.observations)
    (hrows : correlate codec.sha256 base candidate = .ok rows)
    (h : FromGroup codec rows profile finding) : finding.attribution = .preExisting := by
  have halign : aligned base candidate = true := by
    simp [aligned, hsame, zip, zipWith_self]
  simp only [correlate, halign, if_true, pure_eq_ok, ok_bind, bind_eq_ok, ok.injEq] at hrows
  rcases hrows with ⟨_, _, rfl⟩
  rcases h with ⟨groups, group, hgroups, hgroup, hrun⟩
  have hfiled := structuralGroups_filed hfree hgroups
  rcases hfiled.law hgroup hrun with ⟨_, hfound, _, hlaw⟩
  cases hfound
  have hexact : group.base = group.candidate := by
    rcases (hfiled.group _ _).mp hgroup with ⟨_, _, _, rfl⟩
    refine keyGroupOf_unchanged (fun row hrow => ?_) _
    rw [mem_sortBy, hsame, zipWith_self, mem_map] at hrow
    rcases hrow with ⟨observation, _, rfl⟩
    exact ⟨observation, rfl⟩
  rw [hlaw.preExisting]
  have hne := hfiled.inhabited hgroup
  rw [hexact, or_self] at hne
  rcases exists_cons_of_ne_nil hne with ⟨first, rest, hmembers⟩
  exact ⟨first, rest, first, rest, hexact.trans hmembers, hmembers, by rw [hexact], rfl⟩

theorem leveled_le_warn (policy : Effects) (hpre : finding.attribution = .preExisting) :
    (leveled policy .enforceIntroduced finding).effectiveDisposition ≤ .warn := by
  unfold leveled easeIntroduced
  split
  · exact le_refl _
  next hkept =>
    rw [(applyRaises_sameSubject policy finding).attribution] at hkept
    cases hlevel : (applyRaises policy finding).effectiveDisposition with
    | record | warn => decide
    | fail => exact absurd ⟨rfl, hlevel, hpre⟩ hkept

/-- An exception does not raise a finding over warn. -/
theorem applyValidException_le_warn {policy : Effects} {debts : BTreeMap Digest DebtItem}
    {waivers : BTreeMap Digest WaiverItem} (h : finding.effectiveDisposition ≤ .warn) :
    (applyValidException policy debts waivers finding).effectiveDisposition ≤ .warn := by
  rcases applyValidException_cases policy debts waivers finding with
    ⟨context, item, _, _, heq⟩ | ⟨context, item, _, _, heq⟩ | heq <;> rw [heq]
  · exact le_refl _
  · unfold applyWaiver
    split
    · exact le_refl _
    · exact h
  · exact h

/-- Where both sides hold the same occurrences, every structural finding was
    there before, and under enforce-introduced none of them fails, whatever the
    policy raises. So it is with the structural findings a run returns, its
    exceptions included; rows of the control plane have no before and after. -/
theorem unchanged_sides_introduce_nothing (hfree : codec.CollisionFree)
    (hsame : base.observations = candidate.observations)
    {findings : List Finding} (h : (correlate codec.sha256 base candidate >>= fun rows =>
      structuralFindings codec rows profile) = .ok findings) (policy : Effects) :
    (∀ finding ∈ findings, finding.attribution = .preExisting ∧
      (leveled policy .enforceIntroduced finding).effectiveDisposition ≤ .warn) ∧
    ∀ documents inputs returned errors, (correlate codec.sha256 base candidate >>= fun rows =>
        evaluateWithSite codec documents rows .enforceIntroduced policy inputs) =
          .ok (returned, errors) →
      ∀ finding ∈ returned, finding.kind.IsStructural → finding.attribution ≠ .notApplicable →
        finding.attribution = .preExisting ∧ finding.effectiveDisposition ≤ .warn := by
  constructor
  · rw [bind_eq_ok] at h
    rcases h with ⟨rows, hrows, h⟩
    intro finding hfinding
    have hpre := ((mem_structuralFindings h finding).mp hfinding).unchanged hfree hsame hrows
    exact ⟨hpre, leveled_le_warn policy hpre⟩
  · intro documents inputs returned errors hrun finding hfinding hstructural hframed
    rw [bind_eq_ok] at hrun
    rcases hrun with ⟨rows, hrows, hrun⟩
    rcases evaluateWithSite_spec hrun with ⟨built, debts, waivers, hbuilt, _, _, _, hreturned⟩
    rcases hreturned finding hfinding with hcontrol | ⟨source, hsource, rfl⟩
    · exact absurd hcontrol.attributed hframed
    have hsubject := (leveled_sameSubject .enforceIntroduced policy source).trans
      (applyValidException_eased policy debts waivers _).subject
    rw [hsubject.kind] at hstructural
    have hpre := (((mem_constructed hbuilt source).mp hsource).fromGroup hstructural).unchanged
      hfree hsame hrows
    exact ⟨hsubject.attribution.trans hpre,
      applyValidException_le_warn (leveled_le_warn policy hpre)⟩

/-- A missing reference on both sides. -/
def unchangedRun {α : Type} (next : List Comparison → Except ScanError α) : Except ScanError α :=
  let side : Side := ⟨[sampleOccurrence sampleMissing], ∅⟩
  correlate (codecOf sampleMissingKey).sha256 side side >>= next

theorem unchanged_sides_introduce_nothing_missing :
    ∃ findings returned errors,
      unchangedRun (structuralFindings (codecOf sampleMissingKey) · .enforce) = .ok findings ∧
      unchangedRun (evaluateWithSite (codecOf sampleMissingKey) [] · .enforceIntroduced sampleDebt
        noInputs) = .ok (returned, errors) ∧ findings.length = 1 ∧ returned.length = 1 ∧
      (∀ finding ∈ findings, finding.attribution = .preExisting ∧
        (leveled sampleDebt .enforceIntroduced finding).effectiveDisposition ≤ .warn) ∧
      ∀ finding ∈ returned, finding.kind.IsStructural → finding.attribution ≠ .notApplicable →
        finding.attribution = .preExisting ∧ finding.effectiveDisposition ≤ .warn := by
  have hone : (unchangedRun (structuralFindings (codecOf sampleMissingKey) ·
    .enforce)).toOption.map length = some 1 := rfl
  have hran : (unchangedRun (evaluateWithSite (codecOf sampleMissingKey) [] · .enforceIntroduced
    sampleDebt noInputs)).toOption.map (fun result => result.1.length) = some 1 := rfl
  rcases toOption_map_eq_some.mp hone with ⟨findings, hrun, hlength⟩
  rcases toOption_map_eq_some.mp hran with ⟨⟨returned, errors⟩, hreturned, hcount⟩
  rcases unchanged_sides_introduce_nothing (codecOf_collisionFree sampleMissingKey) rfl hrun
    sampleDebt with ⟨hfound, hwhole⟩
  exact ⟨findings, returned, errors, hrun, hreturned, hlength, hcount, hfound,
    hwhole [] noInputs returned errors hreturned⟩

end Unchanged

end Amiss
