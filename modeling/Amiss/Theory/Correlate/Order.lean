import Amiss.Theory.Correlate.Rows

/-!
# The Order of Observations

The rows of a correlation do not depend on the order in which a side lists its
observations, nor on which of the two paths is taken.

Both follow from two facts. The rows are determined up to their order by the
components, and the components by the sides as sets: permuted sides have the
same vertices, in the order of their identities, and the same graph. And no two
rows share a sort key, because a row is named by its primaries and an
observation stands in one row only, so the final sort has a single outcome.

## Theorems

* `vertices_congr`: Permuted sides have the same vertices.
* `rowsOf_perm`: Permuted sides have the same rows up to their order.
* `sortKey_rowsOf_nodup`: No two rows share a sort key.
* `correlate_order_independent`: Every order and either path gives one list.
-/

namespace Amiss

open List

section Order

variable {bases bases' candidates candidates' own own' other other' : List Observation}

/-! ### Permuted sides -/

theorem byIdentity_congr (hnodup : (own.map Observation.id).Nodup) (hperm : own.Perm own') :
    byIdentity own = byIdentity own' := by
  refine sortedBy_eq_of_perm Observation.id ?_ (byIdentity_strict hnodup)
    (byIdentity_strict ((hperm.map _).nodup_iff.mp hnodup))
  exact (byIdentity_perm own).trans (hperm.trans (byIdentity_perm own').symm)

theorem unmatched_congr (hnodup : (own.map Observation.id).Nodup) (hperm : own.Perm own')
    (hother : other.Perm other') : unmatched own other = unmatched own' other' := by
  unfold unmatched
  rw [byIdentity_congr hnodup hperm]
  refine filter_congr (fun o _ => ?_)
  simp only [(hother.map Observation.id).mem_iff]

variable (sha256 : Bytes → Digest) (renames : BTreeMap RepoPath RepoPath)

section

variable (hb : (bases.map Observation.id).Nodup) (hc : (candidates.map Observation.id).Nodup)
  (hbases : bases.Perm bases') (hcandidates : candidates.Perm candidates')

include hb hc hbases hcandidates

theorem vertices_congr :
    vertices bases candidates = vertices bases' candidates' := by
  unfold vertices
  rw [unmatched_congr hb hbases hcandidates, unmatched_congr hc hcandidates hbases]

theorem counterpartGraph_congr :
    counterpartGraph sha256 renames bases candidates =
      counterpartGraph sha256 renames bases' candidates' := by
  unfold counterpartGraph
  rw [unmatched_congr hb hbases hcandidates, unmatched_congr hc hcandidates hbases]

theorem exactPairs_perm : (exactPairs bases candidates).Perm (exactPairs bases' candidates') := by
  refine (perm_ext_iff_of_nodup (exactPairs_nodup hb hc) (exactPairs_nodup
    ((hbases.map _).nodup_iff.mp hb) ((hcandidates.map _).nodup_iff.mp hc))).mpr (fun pair => ?_)
  rw [mem_exactPairs, mem_exactPairs, hbases.mem_iff, hcandidates.mem_iff]

/-- Labellings that tell the same vertices apart give the same rows. -/
theorem rowsOf_perm {label label' : Vertex → Nat}
    (hkernel : ∀ x ∈ vertices bases candidates, ∀ y ∈ vertices bases candidates,
      label x = label y ↔ label' x = label' y) :
    (rowsOf renames label bases candidates).Perm (rowsOf renames label' bases' candidates') := by
  have hvertices := vertices_congr hb hc hbases hcandidates
  refine List.Perm.append ((exactPairs_perm hb hc hbases hcandidates).map _) ?_
  have hclasses := classes_eq_of_same_kernel (vertices bases candidates) label label' hkernel
    (labels label bases candidates) (labels_nodup label) (mem_labels label)
  have hclasses' := classes_eq_of_same_kernel (vertices bases candidates) label' label'
    (fun x _ y _ => Iff.rfl) (labels label' bases' candidates') (labels_nodup label')
    (hvertices ▸ mem_labels label')
  have hperm := (Multiset.coe_eq_coe.mp (hclasses.trans hclasses'.symm)).map
    (fun members => rowOf renames (lefts members) (rights members))
  rw [map_map, map_map] at hperm
  simp only [labelClass, ← hvertices]
  exact hperm

end

/-! ### Sort keys -/

/-- A row is named by the first member of each side, and has a member. -/
structure Comparison.Named (row : Comparison) : Prop where
  base : row.base = row.baseMembers.head?
  candidate : row.candidate = row.candidateMembers.head?
  filled : row.baseMembers ≠ [] ∨ row.candidateMembers ≠ []

theorem exactComparison_named (left right : Observation) : (exactComparison left right).Named :=
  ⟨rfl, rfl, .inl (cons_ne_nil _ _)⟩

theorem rowOf_named
    (hfilled : bases ≠ [] ∨ candidates ≠ []) : (rowOf renames bases candidates).Named := by
  refine ⟨?_, ?_, ?_⟩
  · rw [rowOf_baseMembers]
    rcases bases with _ | ⟨b, _ | ⟨b', bases⟩⟩ <;>
      rcases candidates with _ | ⟨c, _ | ⟨c', candidates⟩⟩ <;> rfl
  · rw [rowOf_candidateMembers]
    rcases bases with _ | ⟨b, _ | ⟨b', bases⟩⟩ <;>
      rcases candidates with _ | ⟨c, _ | ⟨c', candidates⟩⟩ <;> rfl
  · rw [rowOf_baseMembers, rowOf_candidateMembers]
    exact hfilled

/-- Vertices stand on one of the sides. -/
theorem lefts_or_rights_ne_nil {members : List Vertex} (h : members ≠ []) :
    lefts members ≠ [] ∨ rights members ≠ [] := by
  rcases exists_mem_of_ne_nil members h with ⟨vertex, hvertex⟩
  cases vertex with
  | inl o => exact .inl (ne_nil_of_mem (mem_filterMap.mpr ⟨_, hvertex, rfl⟩))
  | inr o => exact .inr (ne_nil_of_mem (mem_filterMap.mpr ⟨_, hvertex, rfl⟩))

theorem rowsOf_named (label : Vertex → Nat) :
    ∀ row ∈ rowsOf renames label bases candidates, row.Named := by
  intro row hrow
  rcases mem_append.mp hrow with hexact | hlabel
  · rcases mem_map.mp hexact with ⟨pair, _, rfl⟩
    exact exactComparison_named pair.1 pair.2
  · rcases mem_map.mp hlabel with ⟨k, hk, rfl⟩
    refine rowOf_named renames (lefts_or_rights_ne_nil ?_)
    rcases mem_map.mp ((mem_labels label k).mp hk) with ⟨vertex, hvertex, hlabelled⟩
    exact ne_nil_of_mem (mem_filter.mpr ⟨hvertex, decide_eq_true hlabelled⟩)

/-- Rows whose members differ on each side have different keys. -/
theorem sortKey_ne {row row' : Comparison} (hnamed : row.Named) (hnamed' : row'.Named)
    (hbase : (row.baseMembers.map Observation.id).Disjoint (row'.baseMembers.map Observation.id))
    (hcandidate : (row.candidateMembers.map Observation.id).Disjoint
      (row'.candidateMembers.map Observation.id)) : row.sortKey ≠ row'.sortKey := by
  -- An identity that heads a side of both rows stands in both.
  have hshared : ∀ {members members' : List Observation},
      (members.map Observation.id).Disjoint (members'.map Observation.id) → members ≠ [] →
        members.head?.map Observation.id ≠ members'.head?.map Observation.id := by
    intro members members' hdisjoint hne hsame
    rcases members with _ | ⟨o, members⟩
    · exact hne rfl
    · rcases members' with _ | ⟨o', members'⟩
      · cases hsame
      · have hid : o.id = o'.id := Option.some.inj hsame
        exact hdisjoint mem_cons_self (hid ▸ mem_cons_self)
  intro hkey
  simp only [Comparison.sortKey, EmbeddingLike.apply_eq_iff_eq, hnamed.base, hnamed.candidate,
    hnamed'.base, hnamed'.candidate] at hkey
  rcases hnamed.filled with hfilled | hfilled
  · exact hshared hbase hfilled (congrArg Prod.snd hkey)
  · exact hshared hcandidate hfilled (congrArg Prod.fst hkey)

theorem sortKey_rowsOf_nodup (label : Vertex → Nat)
    (hb : (bases.map Observation.id).Nodup) (hc : (candidates.map Observation.id).Nodup) :
    ((rowsOf renames label bases candidates).map Comparison.sortKey).Nodup := by
  have hbases : ((rowsOf renames label bases candidates).flatMap
      (fun row => row.baseMembers.map Observation.id)).Nodup := by
    rw [← map_flatMap]
    exact ((flatMap_baseMembers_rowsOf renames label hb hc).map _).nodup_iff.mpr hb
  have hcandidates : ((rowsOf renames label bases candidates).flatMap
      (fun row => row.candidateMembers.map Observation.id)).Nodup := by
    rw [← map_flatMap]
    exact ((flatMap_candidateMembers_rowsOf renames label hb hc).map _).nodup_iff.mpr hc
  rw [nodup_flatMap] at hbases hcandidates
  refine pairwise_map.mpr ((hbases.2.and hcandidates.2).imp_of_mem ?_)
  intro row row' hrow hrow' hdisjoint
  exact sortKey_ne (rowsOf_named renames label row hrow) (rowsOf_named renames label row' hrow')
    hdisjoint.1 hdisjoint.2

theorem correlate_sorted {sha256 : Bytes → Digest} {base candidate : Side} {rows : List Comparison}
    (h : correlate sha256 base candidate = .ok rows) :
    rows.Pairwise (fun row row' => row.sortKey ≤ row'.sortKey) := by
  by_cases halign : aligned base candidate = true
  · simp only [correlate, halign, if_true, Fallible.pure_eq_ok, Fallible.ok_bind] at h
    rcases Fallible.bind_eq_ok.mp h with ⟨_, _, hrows⟩
    exact Except.ok.inj hrows ▸ sortBy_pairwise _ _
  · simp only [correlate, halign, if_false, Bool.false_eq_true] at h
    rcases Fallible.bind_eq_ok.mp h with ⟨unsorted, _, hrows⟩
    exact Except.ok.inj hrows ▸ sortBy_pairwise _ _

theorem correlate_congr (base candidate : Side)
    (hbases : bases.Perm base.observations) (hcandidates : candidates.Perm candidate.observations) :
    correlate sha256 { base with observations := bases }
        { candidate with observations := candidates } = correlate sha256 base candidate := by
  by_cases hnodup : (base.observations.map Observation.id).Nodup ∧
      (candidate.observations.map Observation.id).Nodup
  · rcases hnodup with ⟨hb, hc⟩
    have hb' := (hbases.map Observation.id).nodup_iff.mpr hb
    have hc' := (hcandidates.map Observation.id).nodup_iff.mpr hc
    rcases correlate_eq_ok sha256 base candidate hb hc with ⟨rows, label, hrun, hrows, hlabel⟩
    rcases correlate_eq_ok sha256 { base with observations := bases }
      { candidate with observations := candidates } hb' hc' with
      ⟨rows', label', hrun', hrows', hlabel'⟩
    rw [hrun, hrun', Except.ok.injEq]
    -- Both labellings name the components of one graph.
    have hkernel : ∀ x ∈ vertices bases candidates, ∀ y ∈ vertices bases candidates,
        label' x = label' y ↔ label x = label y := by
      intro x hx y hy
      rw [vertices_congr hb' hc' hbases hcandidates] at hx hy
      rw [hlabel x hx y hy]
      rw [← vertices_congr hb' hc' hbases hcandidates] at hx hy
      rw [hlabel' x hx y hy]
      exact (counterpartGraph_congr sha256 _ hb' hc' hbases hcandidates) ▸ Iff.rfl
    have hperm := hrows'.trans ((rowsOf_perm (uniquePathPairs base.documents candidate.documents)
      hb' hc' hbases hcandidates hkernel).trans hrows.symm)
    have hkeys := sortKey_rowsOf_nodup (uniquePathPairs base.documents candidate.documents) label
      hb hc
    exact sortedBy_eq_of_perm Comparison.sortKey hperm
      (strict_of_sorted _ (correlate_sorted hrun')
        (((hperm.trans hrows).map _).nodup_iff.mpr hkeys))
      (strict_of_sorted _ (correlate_sorted hrun) ((hrows.map _).nodup_iff.mpr hkeys))
  · rw [correlate_eq_error sha256 base candidate hnodup]
    refine correlate_eq_error sha256 _ _ (fun h => hnodup ?_)
    exact ⟨(hbases.map Observation.id).nodup_iff.mp h.1,
      (hcandidates.map Observation.id).nodup_iff.mp h.2⟩

/-- On aligned sides the long path finds what the short one zips. -/
theorem correlate_eq_unaligned (base candidate : Side) :
    correlate sha256 base candidate =
      (correlateUnaligned sha256 base candidate).map (sortBy Comparison.sortKey) := by
  by_cases hnodup : (base.observations.map Observation.id).Nodup ∧
      (candidate.observations.map Observation.id).Nodup
  · rcases hnodup with ⟨hb, hc⟩
    rcases correlateUnaligned_eq sha256 base candidate hb hc with ⟨label, hrun, hlabel⟩
    rcases correlate_eq_ok sha256 base candidate hb hc with ⟨rows, label', hrun', hrows, hlabel'⟩
    rw [hrun, hrun', Except.map, Except.ok.injEq]
    have hkernel : ∀ x ∈ vertices base.observations candidate.observations,
        ∀ y ∈ vertices base.observations candidate.observations,
          label' x = label' y ↔ label x = label y :=
      fun x hx y hy => (hlabel' x hx y hy).trans (hlabel x hx y hy).symm
    have hunaligned := unalignedRows_perm (uniquePathPairs base.documents candidate.documents) label
      hb hc
    have hperm := hrows.trans ((rowsOf_perm _ hb hc (List.Perm.refl _) (List.Perm.refl _)
      hkernel).trans hunaligned.symm)
    have hkeys := (hunaligned.map Comparison.sortKey).nodup_iff.mpr
      (sortKey_rowsOf_nodup _ label hb hc)
    exact sortedBy_eq_of_perm Comparison.sortKey (hperm.trans (sortBy_perm _ _).symm)
      (strict_of_sorted _ (correlate_sorted hrun') ((hperm.map _).nodup_iff.mpr hkeys))
      (sortBy_strict _ _ hkeys)
  · rw [correlate_eq_error sha256 base candidate hnodup, correlateUnaligned_eq_error sha256 hnodup]
    rfl

/-- Every order of the observations gives the same rows, and so does the long
    path where the short one is taken. -/
theorem correlate_order_independent (sha256 : Bytes → Digest) (base candidate : Side) :
    (∀ bases candidates : List Observation, bases.Perm base.observations →
      candidates.Perm candidate.observations →
        correlate sha256 { base with observations := bases }
          { candidate with observations := candidates } = correlate sha256 base candidate) ∧
    (aligned base candidate = true → correlate sha256 base candidate =
      (correlateUnaligned sha256 base candidate).map (sortBy Comparison.sortKey)) :=
  ⟨fun _ _ hbases hcandidates => correlate_congr sha256 base candidate hbases hcandidates,
    fun _ => correlate_eq_unaligned sha256 base candidate⟩

end Order

end Amiss
