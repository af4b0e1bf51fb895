import Amiss.Base.Fallible
import Amiss.Core.Components

/-!
# The Observation Pool

What the index over one side's observations is good for. `Indexes` is the
whole contract: the pool holds the side's observations, no identity repeats,
and a position under an identity is where the observation with that identity
stands. A pool that was built satisfies it, and a side with a repeated
identity has no pool.

Two facts follow for the callers. Listing the keys lists the observations in
identity order, so loops over identities can be read as loops over
observations. And any rearrangement of the side, given by its identities, is
realised exactly: `intoOrder` returns the observations in the asked order.

## Main definitions

* `byIdentity`: A side's observations in identity order.
* `ObservationPool.Indexes`: The contract of an index.

## Theorems

* `ObservationPool.new_of_nodup`: A side without repetition is indexed.
* `ObservationPool.new_of_not_nodup`: A repetition is refused.
* `ObservationPool.Indexes.keys_eq`: The keys are the identities in order.
* `ObservationPool.Indexes.observation_eq`: Looking up a member.
* `ObservationPool.Indexes.intoOrder_eq`: Any rearrangement is realised.
-/

namespace Amiss

open List

open Fallible

/-- A side's observations in identity order. -/
def byIdentity (observations : List Observation) : List Observation :=
  sortBy Observation.id observations

theorem byIdentity_perm (observations : List Observation) :
    (byIdentity observations).Perm observations :=
  sortBy_perm _ _

theorem byIdentity_strict {observations : List Observation}
    (hnodup : (observations.map Observation.id).Nodup) :
    ((byIdentity observations).map Observation.id).Pairwise (· < ·) :=
  sortBy_strict _ _ hnodup

/-- Numbering a list whose keys differ finds the number of every key. -/
theorem foldlM_insertNew_zipIdx {α : Type} (key : α → Digest) (xs : List α)
    (hnodup : (xs.map key).Nodup) :
    ∃ index : BTreeMap Digest Nat,
      xs.zipIdx.foldlM (fun index (entry : α × Nat) => insertNew index (key entry.1) entry.2) ∅ =
        some index ∧
      ∀ (k : Digest) (i : Nat), index[k]? = some i ↔ (xs.map key)[i]? = some k := by
  have hkeys : xs.zipIdx.map (fun entry => key entry.1) = xs.map key := by
    rw [show (fun entry : α × Nat => key entry.1) = key ∘ Prod.fst from rfl, ← map_map,
      zipIdx_map_fst]
  have hfresh : ∀ x ∈ xs.zipIdx, key x.1 ∉ (∅ : BTreeMap Digest Nat) :=
    fun _ _ => Std.ExtTreeMap.not_mem_empty
  rcases foldlM_insertNew (fun entry : α × Nat => key entry.1) Prod.snd xs.zipIdx ∅ hfresh with
    ⟨index, hrun, _, hget⟩ | ⟨_, hdup⟩
  · refine ⟨index, hrun, fun k i => ?_⟩
    rw [hget, Std.ExtTreeMap.getElem?_empty, getElem?_map]
    simp only [reduceCtorEq, false_or, Prod.exists, mk_mem_zipIdx_iff_getElem?,
      Option.map_eq_some_iff]
    constructor
    · rintro ⟨x, j, hx, hk, rfl⟩
      exact ⟨x, hx, hk⟩
    · rintro ⟨x, hx, hk⟩
      exact ⟨x, i, hx, hk, rfl⟩
  · exact absurd (hkeys ▸ hnodup) hdup

namespace ObservationPool

/-- The contract of the index over one side's observations. -/
structure Indexes (pool : ObservationPool) (observations : List Observation) : Prop where
  observations_eq : pool.observations = observations
  nodup : (observations.map Observation.id).Nodup
  getElem?_positions : ∀ (id : Digest) (i : Nat),
    pool.positions[id]? = some i ↔ (observations.map Observation.id)[i]? = some id

theorem new_of_nodup {observations : List Observation}
    (hnodup : (observations.map Observation.id).Nodup) :
    ∃ pool, new observations = .ok pool ∧ pool.Indexes observations := by
  rcases foldlM_insertNew_zipIdx Observation.id observations hnodup with ⟨index, hrun, hget⟩
  refine ⟨⟨observations, index⟩, ?_, rfl, hnodup, hget⟩
  simp only [new, hrun, okOrInternal, ok_bind, pure_eq_ok]

theorem new_of_not_nodup {observations : List Observation}
    (hdup : ¬ (observations.map Observation.id).Nodup) : new observations = .error .internal := by
  have hkeys : observations.zipIdx.map (fun entry => entry.1.id) =
      observations.map Observation.id := by
    rw [show (fun entry : Observation × Nat => entry.1.id) = Observation.id ∘ Prod.fst from rfl,
      ← map_map, zipIdx_map_fst]
  have hfresh : ∀ x ∈ observations.zipIdx, x.1.id ∉ (∅ : BTreeMap Digest Nat) :=
    fun _ _ => Std.ExtTreeMap.not_mem_empty
  rcases foldlM_insertNew (fun entry : Observation × Nat => entry.1.id) Prod.snd
    observations.zipIdx ∅ hfresh with ⟨_, _, hnodup, _⟩ | ⟨hrun, _⟩
  · exact absurd (hkeys ▸ hnodup) hdup
  · simp only [new, hrun, okOrInternal, error_bind]

namespace Indexes

variable {pool : ObservationPool} {observations : List Observation}

section

variable (h : pool.Indexes observations)

include h

theorem mem_positions (id : Digest) :
    id ∈ pool.positions ↔ id ∈ observations.map Observation.id := by
  rw [Std.ExtTreeMap.mem_iff_isSome_getElem?, Option.isSome_iff_exists, mem_iff_getElem?]
  simp only [h.getElem?_positions]

theorem keys_eq : pool.positions.keys = (byIdentity observations).map Observation.id := by
  refine sortedBy_eq_of_perm id ?_ ?_ ?_
  · refine (perm_ext_iff_of_nodup Std.ExtTreeMap.nodup_keys
      ((byIdentity_strict h.nodup).imp ne_of_lt)).mpr (fun key => ?_)
    rw [mem_keys, h.mem_positions, ((byIdentity_perm _).map _).mem_iff]
  · rw [map_id]
    exact keys_pairwise_lt _
  · rw [map_id]
    exact byIdentity_strict h.nodup

theorem observation_eq {member : Observation} (hmem : member ∈ observations) :
    pool.observation member.id = .ok member := by
  rcases mem_iff_getElem?.mp hmem with ⟨i, hi⟩
  have hpos : pool.positions[member.id]? = some i := by
    rw [h.getElem?_positions, getElem?_map, hi, Option.map_some]
  simp [observation, hpos, h.observations_eq, hi, okOrInternal, ok_bind, pure_eq_ok]

/-- Any rearrangement of the side is realised exactly. -/
theorem intoOrder_eq {order : List Observation} (hperm : order.Perm observations) :
    pool.intoOrder (order.map Observation.id) = .ok order := by
  have hnodup : (order.map Observation.id).Nodup := (hperm.map _).nodup_iff.mpr h.nodup
  rcases foldlM_insertNew_zipIdx (id : Digest → Digest) (order.map Observation.id)
    (by rwa [map_id]) with ⟨targets, hrun, hget⟩
  rw [map_id] at hget
  -- The sort key of the member at a position is the position.
  have htargets : order.map (fun o => targets[o.id]?.getD usizeMax) = List.range order.length := by
    refine ext_getElem (by rw [length_map, length_range]) (fun i hi _ => ?_)
    rw [length_map] at hi
    have hid : targets[(order[i]).id]? = some i := by
      rw [hget, getElem?_map, getElem?_eq_getElem hi, Option.map_some]
    rw [getElem_map, getElem_range, hid, Option.getD_some]
  have hstrict : (order.map (fun o => targets[o.id]?.getD usizeMax)).Pairwise (· < ·) := by
    rw [htargets]
    exact pairwise_lt_range
  have hall : observations.any (fun o => o.id ∉ targets) = false := by
    rw [any_eq_false]
    intro o ho
    have hmem : o.id ∈ order.map Observation.id := mem_map_of_mem (hperm.mem_iff.mpr ho)
    rcases mem_iff_getElem?.mp hmem with ⟨i, hi⟩
    have hin : o.id ∈ targets := by
      rw [Std.ExtTreeMap.mem_iff_isSome_getElem?, (hget o.id i).mpr hi]
      rfl
    simpa only [decide_eq_true_eq, not_not] using hin
  have hsort : sortBy (fun o : Observation => targets[o.id]?.getD usizeMax) observations =
      order := by
    refine sortedBy_eq_of_perm (fun o => targets[o.id]?.getD usizeMax)
      ((sortBy_perm _ _).trans hperm.symm) (sortBy_strict _ _ ?_) hstrict
    exact ((hperm.map _).nodup_iff).mp (hstrict.imp ne_of_lt)
  simp only [id] at hrun
  simp only [intoOrder, h.observations_eq, length_map, hperm.length_eq, ne_eq,
    not_true_eq_false, if_false, hrun, okOrInternal, ok_bind, hall, Bool.false_eq_true,
    pure_eq_ok, hsort]

end

end Indexes

end ObservationPool

end Amiss
