import Amiss.Core.Components

/-!
# Renames

Which paths are paired as renames. The scan keeps one slot for each identity
and empties it at the second path, so what a slot holds at the end depends on
how many paths carry the identity and not on their order: `getElem?_pathByIdentity`
says so, and the pairing is read off the two tables.

The condition is the same from both sides, so the pairing of the swapped maps is
the inverse.

## Main definitions

* `SoleMover`: The one path of a map with an identity that another map lacks.

## Theorems

* `getElem?_pathByIdentity`: What a slot holds.
* `getElem?_uniquePathPairs`: Which paths are paired.
* `uniquePathPairs_iff_and_inverse`: The pairing, and that of the swapped maps.
-/

namespace Amiss

/-- A slot that was filled twice stays empty. -/
theorem foldl_slot_emptied {I : Type} (paths : List (RepoPath × I)) :
    paths.foldl (fun entry (path : RepoPath × I) => some (match entry with
      | none => some path.1
      | some _ => none)) (some (none : Option RepoPath)) = some none := by
  induction paths with
  | nil => rfl
  | cons path paths ih => exact ih

section Slots

variable {I : Type} [LinearOrder I]

/-- A slot holds a path when no other one carries the identity. -/
theorem getElem?_pathByIdentity (paths : List (RepoPath × I)) (identity : I) (path : RepoPath) :
    (pathByIdentity paths)[identity]? = some (some path) ↔
      paths.filter (fun entry => entry.2 = identity) = [(path, identity)] := by
  unfold pathByIdentity
  rw [getElem?_foldl_upsert (fun entry : RepoPath × I => entry.2), Std.ExtTreeMap.getElem?_empty]
  have hsame : ∀ entry ∈ paths.filter (fun entry => entry.2 = identity), entry.2 = identity :=
    fun entry hentry => of_decide_eq_true (List.mem_filter.mp hentry).2
  cases hcarried : paths.filter (fun entry => entry.2 = identity) with
  | nil => simp
  | cons first rest =>
    rw [hcarried, List.forall_mem_cons] at hsame
    cases rest with
    | nil =>
      rcases first with ⟨found, carried⟩
      have hcarries : carried = identity := hsame.1
      subst hcarries
      simp
    | cons second rest =>
      rw [List.foldl_cons, List.foldl_cons]
      simp only [List.cons.injEq, reduceCtorEq, and_false, iff_false]
      intro h
      exact absurd ((foldl_slot_emptied rest).symm.trans h)
        (by simp)

/-- The one path of a map with an identity among those another map lacks. -/
def SoleMover (own other : BTreeMap RepoPath I) (identity : I) (path : RepoPath) : Prop :=
  (own[path]? = some identity ∧ path ∉ other) ∧
    ∀ rival : RepoPath, own[rival]? = some identity → rival ∉ other → rival = path

theorem getElem?_pathByIdentity_moved (own other : BTreeMap RepoPath I) (identity : I)
    (path : RepoPath) :
    (pathByIdentity (own.toList.filter (fun entry => entry.1 ∉ other)))[identity]? =
        some (some path) ↔ SoleMover own other identity path := by
  have hnodup : own.toList.Nodup := nodup_toList own
  rw [getElem?_pathByIdentity, filter_eq_singleton_iff (hnodup.filter _)]
  simp only [List.mem_filter, mem_toList, decide_eq_true_eq, and_true, Prod.forall, SoleMover]
  refine and_congr_right (fun hpath => ⟨fun h rival hrival hmoved => ?_, ?_⟩)
  · exact congrArg Prod.fst (h rival identity ⟨hrival, hmoved⟩ rfl)
  · rintro h rival carried ⟨hrival, hmoved⟩ rfl
    rw [h rival hrival hmoved]

/-- The pair that one identity of the removed paths contributes. -/
def renamePair (added : BTreeMap I (Option RepoPath)) (slot : I × Option RepoPath) :
    Option (RepoPath × RepoPath) :=
  slot.2.bind (fun path => added[slot.1]?.join.map (fun target => (path, target)))

theorem renamePair_eq_some {added : BTreeMap I (Option RepoPath)} {slot : I × Option RepoPath}
    {pair : RepoPath × RepoPath} : renamePair added slot = some pair ↔
      slot.2 = some pair.1 ∧ added[slot.1]? = some (some pair.2) := by
  unfold renamePair
  simp only [Option.bind_eq_some_iff, Option.map_eq_some_iff, Option.join_eq_some_iff]
  constructor
  · rintro ⟨path, hpath, target, htarget, rfl⟩
    exact ⟨hpath, htarget⟩
  · rintro ⟨hpath, htarget⟩
    exact ⟨pair.1, hpath, pair.2, htarget, rfl⟩

theorem uniquePathPairs_eq_foldl (base candidate : BTreeMap RepoPath I) :
    uniquePathPairs base candidate =
      ((pathByIdentity (base.toList.filter (fun entry => entry.1 ∉ candidate))).toList.filterMap
        (renamePair (pathByIdentity (candidate.toList.filter (fun entry => entry.1 ∉ base))))).foldl
        (fun pairs pair => pairs.insert pair.1 pair.2) ∅ := by
  unfold uniquePathPairs
  rw [List.foldl_filterMap]
  refine List.foldl_ext _ _ _ (fun pairs slot _ => ?_)
  rcases slot with ⟨identity, slot⟩
  generalize pathByIdentity (candidate.toList.filter (fun entry => entry.1 ∉ base)) = added
  dsimp only [renamePair]
  rcases slot with _ | path
  · rfl
  · rcases added[identity]? with _ | _ | target <;> rfl

/-- Two paths are paired when each is the sole mover of one identity. -/
theorem getElem?_uniquePathPairs (base candidate : BTreeMap RepoPath I) (path target : RepoPath) :
    (uniquePathPairs base candidate)[path]? = some target ↔
      ∃ identity, SoleMover base candidate identity path ∧
        SoleMover candidate base identity target := by
  rw [uniquePathPairs_eq_foldl]
  have hslot : ∀ pair : RepoPath × RepoPath,
      pair ∈ (pathByIdentity (base.toList.filter (fun entry => entry.1 ∉ candidate))).toList.filterMap
        (renamePair (pathByIdentity (candidate.toList.filter (fun entry => entry.1 ∉ base)))) ↔
      ∃ identity, SoleMover base candidate identity pair.1 ∧
        SoleMover candidate base identity pair.2 := by
    intro pair
    simp only [List.mem_filterMap, Prod.exists, mem_toList, renamePair_eq_some,
      ← getElem?_pathByIdentity_moved]
    constructor
    · rintro ⟨identity, _, hslot, rfl, htarget⟩
      exact ⟨identity, hslot, htarget⟩
    · rintro ⟨identity, hslot, htarget⟩
      exact ⟨identity, _, hslot, rfl, htarget⟩
  rw [getElem?_foldl_insert_pairs, hslot]
  -- The path has one identity, and that identity one sole mover on the other side.
  intro pair hpair pair' hpair' hsame
  rcases (hslot pair).mp hpair with ⟨identity, hfrom, hto⟩
  rcases (hslot pair').mp hpair' with ⟨identity', hfrom', hto'⟩
  rw [hsame] at hfrom
  have hidentity : identity = identity' := Option.some.inj (hfrom.1.1.symm.trans hfrom'.1.1)
  subst hidentity
  exact hto'.2 pair.2 hto.1.1 hto.1.2

/-- The pairing in plain words, and the pairing of the swapped maps. -/
theorem uniquePathPairs_iff_and_inverse (base candidate : BTreeMap RepoPath I)
    (path target : RepoPath) :
    ((uniquePathPairs base candidate)[path]? = some target ↔
      (path ∈ base ∧ path ∉ candidate) ∧ (target ∈ candidate ∧ target ∉ base) ∧
        base[path]? = candidate[target]? ∧
        (∀ rival : RepoPath, rival ∉ candidate → base[rival]? = base[path]? → rival = path) ∧
        ∀ rival : RepoPath, rival ∉ base → candidate[rival]? = candidate[target]? →
          rival = target) ∧
    ((uniquePathPairs candidate base)[target]? = some path ↔
      (uniquePathPairs base candidate)[path]? = some target) := by
  refine ⟨?_, ?_⟩
  · rw [getElem?_uniquePathPairs]
    constructor
    · rintro ⟨identity, ⟨⟨hpath, hgone⟩, hsole⟩, ⟨htarget, hnew⟩, hsole'⟩
      refine ⟨⟨mem_of_getElem? hpath, hgone⟩, ⟨mem_of_getElem? htarget, hnew⟩,
        hpath.trans htarget.symm, fun rival hrival hsame => ?_, fun rival hrival hsame => ?_⟩
      · exact hsole rival (hsame.trans hpath) hrival
      · exact hsole' rival (hsame.trans htarget) hrival
    · rintro ⟨⟨hpath, hgone⟩, ⟨htarget, hnew⟩, hsame, hsole, hsole'⟩
      rcases Option.isSome_iff_exists.mp (Std.ExtTreeMap.mem_iff_isSome_getElem?.mp hpath) with
        ⟨identity, hidentity⟩
      refine ⟨identity, ⟨⟨hidentity, hgone⟩, fun rival hrival hmoved => ?_⟩,
        ⟨hsame.symm.trans hidentity, hnew⟩, fun rival hrival hmoved => ?_⟩
      · exact hsole rival hmoved (hrival.trans hidentity.symm)
      · exact hsole' rival hmoved (hrival.trans (hsame.symm.trans hidentity).symm)
  · rw [getElem?_uniquePathPairs, getElem?_uniquePathPairs]
    exact exists_congr (fun identity => and_comm)

end Slots

end Amiss
