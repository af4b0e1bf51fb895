import Amiss.Core.Correlate
import Amiss.Theory.Correlate.Components
import Amiss.Theory.Path

/-!
# The Rows of Correlation

Correlation loses nothing and invents nothing, and its rows are the exact
matches together with the components of the plausible graph.

The long path is settled by one equation, `correlateUnaligned_eq`. The orders
that the code asks of the two pools are rearrangements of the sides, so both
are realised, and the observations that the row loops then take are exactly
the members of the exact rows and of the components in turn. No error branch
on the way is taken.

The short path pairs the sides as they stand. Its rows are sorted by an
identity that both members share, so a repeated identity ends up in
neighbouring rows and is found there.

## Main definitions

* `lefts`, `rights`: The members of a list of vertices by side.
* `rowOf`: The row of one component.
* `componentOutcome`: The outcome a component's size determines.
* `exactPairs`: The exact matches.
* `correlationGraph`, `membersView`: The rows of the rest.

## Theorems

* `correlateUnaligned_eq`: What the long path returns.
* `correlate_ok_iff_and_conserves`: Correlation fails only on repetition and
  keeps every observation once.
* `correlate_rows_eq_components`: The rows are the exact matches and the
  components.
-/

namespace Amiss

open List

open Fallible

/-- The base members of a list of vertices. -/
def lefts (vs : List Vertex) : List Observation := vs.filterMap Sum.getLeft?

/-- The candidate members of a list of vertices. -/
def rights (vs : List Vertex) : List Observation := vs.filterMap Sum.getRight?

section Members

theorem lefts_vertices (bases candidates : List Observation) :
    lefts (vertices bases candidates) = unmatched bases candidates := by
  simp only [lefts, vertices, filterMap_append, filterMap_map]
  rw [show Sum.getLeft? ∘ (Sum.inl : Observation → Vertex) = some from rfl,
    show Sum.getLeft? ∘ (Sum.inr : Observation → Vertex) = fun _ => none from rfl,
    filterMap_some, filterMap_none, append_nil]

theorem rights_vertices (bases candidates : List Observation) :
    rights (vertices bases candidates) = unmatched candidates bases := by
  simp only [rights, vertices, filterMap_append, filterMap_map]
  rw [show Sum.getRight? ∘ (Sum.inr : Observation → Vertex) = some from rfl,
    show Sum.getRight? ∘ (Sum.inl : Observation → Vertex) = fun _ => none from rfl,
    filterMap_some, filterMap_none, nil_append]

/-- Filing vertices keeps the identities of each side in order. -/
theorem foldl_addVertex (vs : List Vertex) :
    vs.foldl addVertex ([], []) =
      ((lefts vs).map Observation.id, (rights vs).map Observation.id) := by
  have hgen : ∀ (vs : List Vertex) (entry : List Digest × List Digest),
      vs.foldl addVertex entry = (entry.1 ++ (lefts vs).map Observation.id,
        entry.2 ++ (rights vs).map Observation.id) := by
    intro vs
    induction vs with
    | nil =>
      intro entry
      simp [lefts, rights]
    | cons v vs ih =>
      intro entry
      rw [foldl_cons, ih]
      cases v with
      | inl o =>
        simp [addVertex, addBase, lefts, rights, filterMap_cons]
      | inr o =>
        simp [addVertex, addCandidate, lefts, rights, filterMap_cons]
  rw [hgen, nil_append, nil_append]

end Members

/-- The row of one component, without its unreachable errors. -/
def rowOf (renames : BTreeMap RepoPath RepoPath) (bases candidates : List Observation) :
    Comparison :=
  match bases, candidates with
  | [o], [] => isolated o true
  | [], [o] => isolated o false
  | _, _ => componentComparison bases candidates renames

section

variable (renames : BTreeMap RepoPath RepoPath)

include renames

variable (bases candidates : List Observation)

theorem componentRow_eq :
    componentRow renames bases candidates = .ok (rowOf renames bases candidates) := by
  rcases bases with _ | ⟨b, _ | ⟨b', bases⟩⟩ <;>
    rcases candidates with _ | ⟨c, _ | ⟨c', candidates⟩⟩ <;> rfl

/-- The outcome that a component's size determines. -/
def componentOutcome (baseCount candidateCount : Nat) : Outcome :=
  if baseCount = 1 ∧ candidateCount = 1 then .candidate
  else if baseCount + candidateCount = 1 then .none
  else .ambiguous

theorem rowOf_outcome :
    (rowOf renames bases candidates).outcome = componentOutcome bases.length candidates.length := by
  rcases bases with _ | ⟨b, _ | ⟨b', bases⟩⟩ <;>
    rcases candidates with _ | ⟨c, _ | ⟨c', candidates⟩⟩ <;>
    simp [rowOf, componentComparison, isolated, componentOutcome]
  all_goals omega

theorem rowOf_baseMembers : (rowOf renames bases candidates).baseMembers = bases := by
  rcases bases with _ | ⟨b, _ | ⟨b', bases⟩⟩ <;>
    rcases candidates with _ | ⟨c, _ | ⟨c', candidates⟩⟩ <;> rfl

theorem rowOf_candidateMembers :
    (rowOf renames bases candidates).candidateMembers = candidates := by
  rcases bases with _ | ⟨b, _ | ⟨b', bases⟩⟩ <;>
    rcases candidates with _ | ⟨c, _ | ⟨c', candidates⟩⟩ <;> rfl

end

section Taking

/-- Taking the exact pairs off two queues that list the same identities. -/
theorem takeExact_eq (bases candidates baseRest candidateRest : List Observation)
    (hids : bases.map Observation.id = candidates.map Observation.id) :
    takeExact bases.length (bases ++ baseRest) (candidates ++ candidateRest) =
      .ok (List.zipWith exactComparison bases candidates, baseRest, candidateRest) := by
  induction bases generalizing candidates with
  | nil =>
    rw [map_nil, eq_comm, map_eq_nil_iff] at hids
    subst hids
    rfl
  | cons b bases ih =>
    cases candidates with
    | nil => cases hids
    | cons c candidates =>
      rw [map_cons, map_cons, cons.injEq] at hids
      simp [takeExact, hids.1, ih candidates hids.2, ok_bind, pure_eq_ok]

/-- Taking the components off two queues that list their members in turn. -/
theorem takeComponents_eq (renames : BTreeMap RepoPath RepoPath)
    (groups : List (List Observation × List Observation))
    (baseRest candidateRest : List Observation) :
    takeComponents renames (groups.map (fun group => (group.1.length, group.2.length)))
        (groups.flatMap Prod.fst ++ baseRest) (groups.flatMap Prod.snd ++ candidateRest) =
      .ok (groups.map (fun group => rowOf renames group.1 group.2), baseRest, candidateRest) := by
  induction groups with
  | nil => rfl
  | cons group groups ih =>
    simp [takeComponents, componentRow_eq, ok_bind, ih, pure_eq_ok]

end Taking

/-- The observations of one side with an exact counterpart, in identity
    order. -/
def matched (own other : List Observation) : List Observation :=
  (byIdentity own).filter (fun o => o.id ∈ other.map Observation.id)

section Matched

variable {own other : List Observation}

theorem mem_matched {o : Observation} :
    o ∈ matched own other ↔ o ∈ own ∧ o.id ∈ other.map Observation.id := by
  rw [matched, mem_filter, (byIdentity_perm own).mem_iff, decide_eq_true_eq]

theorem matched_strict (hown : (own.map Observation.id).Nodup) :
    ((matched own other).map Observation.id).Pairwise (· < ·) :=
  (byIdentity_strict hown).sublist (filter_sublist.map _)

/-- Both sides list the shared identities in one order. -/
theorem matched_map_id (hown : (own.map Observation.id).Nodup)
    (hother : (other.map Observation.id).Nodup) :
    (matched own other).map Observation.id = (matched other own).map Observation.id := by
  have hmem : ∀ (xs ys : List Observation) (k : Digest),
      k ∈ (matched xs ys).map Observation.id ↔
        k ∈ xs.map Observation.id ∧ k ∈ ys.map Observation.id := by
    intro xs ys k
    simp only [mem_map, mem_matched]
    constructor
    · rintro ⟨o, ⟨ho, x, hx, hxo⟩, rfl⟩
      exact ⟨⟨o, ho, rfl⟩, x, hx, hxo⟩
    · rintro ⟨⟨o, ho, rfl⟩, hy⟩
      exact ⟨o, ⟨ho, hy⟩, rfl⟩
  refine sortedBy_eq_of_perm id ?_ (by rw [map_id]; exact matched_strict hown)
    (by rw [map_id]; exact matched_strict hother)
  refine (perm_ext_iff_of_nodup ((matched_strict hown).imp ne_of_lt)
    ((matched_strict hother).imp ne_of_lt)).mpr (fun k => ?_)
  rw [hmem, hmem, and_comm]

/-- A side is its exact matches and the rest. -/
theorem matched_append_unmatched_perm (own other : List Observation) :
    (matched own other ++ unmatched own other).Perm own := by
  refine List.Perm.trans ?_ (byIdentity_perm own)
  simpa only [matched, unmatched, decide_not] using
    filter_append_perm (fun o : Observation => decide (o.id ∈ other.map Observation.id))
      (byIdentity own)

end Matched

/-- The vertices of one label. -/
def labelClass (label : Vertex → Nat) (bases candidates : List Observation) (k : Nat) :
    List Vertex :=
  (vertices bases candidates).filter (fun v => label v = k)

/-- The labels in use. -/
def labels (label : Vertex → Nat) (bases candidates : List Observation) : List Nat :=
  (collect label ([], []) addVertex (vertices bases candidates)).keys

section Unaligned

variable {bases candidates : List Observation}

section

variable (label : Vertex → Nat)

include label

theorem labels_nodup : (labels label bases candidates).Nodup :=
  Std.ExtTreeMap.nodup_keys

theorem mem_labels (k : Nat) :
    k ∈ labels label bases candidates ↔ k ∈ (vertices bases candidates).map label := by
  rw [labels, mem_keys, mem_collect]

theorem flatMap_labelClass_perm (bases candidates : List Observation) :
    ((labels label bases candidates).flatMap (labelClass label bases candidates)).Perm
      (vertices bases candidates) :=
  flatMap_filter_perm label _ (labels_nodup label) _
    (fun _ hv => (mem_labels label _).mpr (mem_map_of_mem hv))

theorem base_order_perm (bases candidates : List Observation) :
    (matched bases candidates ++ (labels label bases candidates).flatMap
      (fun k => lefts (labelClass label bases candidates k))).Perm bases := by
  refine List.Perm.trans (List.Perm.append_left _ ?_)
    (matched_append_unmatched_perm bases candidates)
  rw [← lefts_vertices bases candidates]
  have hflat := (flatMap_labelClass_perm label bases candidates).filterMap Sum.getLeft?
  rwa [filterMap_flatMap] at hflat

theorem candidate_order_perm (bases candidates : List Observation) :
    (matched candidates bases ++ (labels label bases candidates).flatMap
      (fun k => rights (labelClass label bases candidates k))).Perm candidates := by
  refine List.Perm.trans (List.Perm.append_left _ ?_)
    (matched_append_unmatched_perm candidates bases)
  rw [← rights_vertices bases candidates]
  have hflat := (flatMap_labelClass_perm label bases candidates).filterMap Sum.getRight?
  rwa [filterMap_flatMap] at hflat

theorem toList_collect_addVertex :
    (collect label ([], []) addVertex (vertices bases candidates)).toList =
      (labels label bases candidates).map (fun k =>
        (k, ((lefts (labelClass label bases candidates k)).map Observation.id,
          (rights (labelClass label bases candidates k)).map Observation.id))) := by
  refine toList_eq_map_keys _ _ (fun k v hget => ?_)
  rw [getElem?_collect_eq_some, foldl_addVertex] at hget
  exact hget.2.symm

end

end Unaligned

/-- The rows of the long path, before sorting. -/
def unalignedRows (renames : BTreeMap RepoPath RepoPath) (label : Vertex → Nat)
    (bases candidates : List Observation) : List Comparison :=
  zipWith exactComparison (matched bases candidates) (matched candidates bases) ++
    (labels label bases candidates).map (fun k =>
      rowOf renames (lefts (labelClass label bases candidates k))
        (rights (labelClass label bases candidates k)))

variable (sha256 : Bytes → Digest)

variable (base candidate : Side)

/-- The long path returns the exact rows and one row for each label, and the
    labels are those of the plausible graph's components. -/
theorem correlateUnaligned_eq (hb : (base.observations.map Observation.id).Nodup)
    (hc : (candidate.observations.map Observation.id).Nodup) :
    ∃ label : Vertex → Nat,
      correlateUnaligned sha256 base candidate =
        .ok (unalignedRows (uniquePathPairs base.documents candidate.documents) label
          base.observations candidate.observations) ∧
      ∀ x ∈ vertices base.observations candidate.observations,
        ∀ y ∈ vertices base.observations candidate.observations,
          label x = label y ↔ (counterpartGraph sha256
            (uniquePathPairs base.documents candidate.documents) base.observations
            candidate.observations).Reachable x y := by
  rcases base with ⟨bases, baseDocuments⟩
  rcases candidate with ⟨candidates, documents⟩
  rcases ObservationPool.new_of_nodup hb with ⟨basePool, hnewb, hib⟩
  rcases ObservationPool.new_of_nodup hc with ⟨candidatePool, hnewc, hic⟩
  have hexactIds : basePool.positions.keys.filter (fun k => k ∈ candidatePool.positions) =
      (matched bases candidates).map Observation.id := by
    rw [hib.keys_eq, filter_map, matched]
    refine congrArg (List.map Observation.id) (filter_congr (fun o _ => ?_))
    simp [hic.mem_positions]
  have hexact : ∀ k, k ∈ (matched bases candidates).map Observation.id ↔
      k ∈ bases.map Observation.id ∧ k ∈ candidates.map Observation.id := by
    intro k
    rw [← hexactIds, mem_filter, mem_keys, hib.mem_positions, decide_eq_true_eq, hic.mem_positions]
  rcases correlationComponents_spec sha256 hib hic (matched_strict hb) hexact
    (uniquePathPairs baseDocuments documents) with ⟨label, hrun, hlabel⟩
  refine ⟨label, ?_, hlabel⟩
  have hbase := hib.intoOrder_eq
    (base_order_perm label bases candidates)
  have hcandidate := hic.intoOrder_eq
    (candidate_order_perm label bases candidates)
  have hids := matched_map_id hb hc
  -- The queues are the exact matches followed by the members label by label.
  have htake := takeExact_eq _ _ ((labels label bases candidates).flatMap
      (fun k => lefts (labelClass label bases candidates k)))
    ((labels label bases candidates).flatMap
      (fun k => rights (labelClass label bases candidates k))) hids
  have hcomponents := takeComponents_eq (uniquePathPairs baseDocuments documents)
    ((labels label bases candidates).map (fun k =>
      (lefts (labelClass label bases candidates k),
        rights (labelClass label bases candidates k)))) [] []
  simp only [map_map, flatMap_map, append_nil, Function.comp_def] at hcomponents
  rw [map_append, map_flatMap] at hbase hcandidate
  rw [← hids] at hcandidate
  simp [correlateUnaligned, hnewb, hnewc, ok_bind, hexactIds, hrun, toList_collect_addVertex,
    flatMap_map, Function.comp_def, hbase, hcandidate, htake, hcomponents, pure_eq_ok,
    unalignedRows]

section Aligned

theorem aligned_iff : aligned base candidate = true ↔
    base.observations.map Observation.id = candidate.observations.map Observation.id := by
  have hgen : ∀ xs ys : List Observation,
      (xs.length = ys.length ∧ ∀ pair ∈ xs.zip ys, pair.1.id = pair.2.id) ↔
        xs.map Observation.id = ys.map Observation.id := by
    intro xs
    induction xs with
    | nil =>
      intro ys
      cases ys with
      | nil => simp
      | cons y ys => simp
    | cons x xs ih =>
      intro ys
      cases ys with
      | nil => simp
      | cons y ys =>
        simp only [length_cons, Nat.add_right_cancel_iff, zip_cons_cons,
          forall_mem_cons, map_cons, cons.injEq, ← ih ys]
        tauto
  simp [aligned, ← hgen]

/-- The identities of the base members, row by row. -/
def baseIds (rows : List Comparison) : List Digest :=
  rows.filterMap (fun row => row.base.map Observation.id)

/-- The neighbour check passes exactly when no identity follows itself. -/
theorem checkNeighbours_ok_iff (rows : List Comparison) (hbase : ∀ row ∈ rows, row.base ≠ none)
    (previous : Option Digest) :
    checkNeighbours previous rows = .ok () ↔ (previous.toList ++ baseIds rows).IsChain (· ≠ ·) := by
  induction rows generalizing previous with
  | nil =>
    cases previous with
    | none => simp [checkNeighbours, baseIds]
    | some k => simp [checkNeighbours, baseIds]
  | cons row rows ih =>
    have hrow := hbase row mem_cons_self
    have ih' := ih (fun row hr => hbase row (mem_cons_of_mem _ hr))
    cases hb : row.base with
    | none => exact absurd hb hrow
    | some o =>
      have hids : baseIds (row :: rows) = o.id :: baseIds rows := by
        simp [baseIds, hb]
      rw [hids]
      simp only [checkNeighbours, hb, okOrInternal, ok_bind]
      by_cases hprev : previous = some o.id
      · rw [hprev, if_pos rfl]
        simp [throw_eq_error, error_bind]
      rw [if_neg hprev]
      refine (ih' (some o.id)).trans ?_
      cases previous with
      | none => rfl
      | some k =>
        simp only [Option.some.injEq] at hprev
        simp [hprev]

/-- In a sorted list a repetition stands next to itself. -/
theorem nodup_iff_isChain_of_sorted {xs : List Digest} (hsorted : xs.Pairwise (· ≤ ·)) :
    xs.Nodup ↔ xs.IsChain (· ≠ ·) := by
  refine ⟨fun h => h.isChain, fun h => ?_⟩
  induction xs with
  | nil => exact nodup_nil
  | cons x xs ih =>
    rw [pairwise_cons] at hsorted
    refine nodup_cons.mpr ⟨fun hmem => ?_, ih hsorted.2 h.tail⟩
    cases xs with
    | nil => exact not_mem_nil hmem
    | cons y ys =>
      -- The neighbour lies between the two occurrences.
      have hyx : y ≤ x := by
        rcases mem_cons.mp hmem with hxy | hmem
        · exact hxy.ge
        · exact (pairwise_cons.mp hsorted.2).1 x hmem
      exact (isChain_cons_cons.mp h).1
        (le_antisymm (hsorted.1 y mem_cons_self) hyx)

theorem sortKey_exactComparison_le {b c b' c' : Observation}
    (h : (exactComparison b c).sortKey ≤ (exactComparison b' c').sortKey) : c.id ≤ c'.id := by
  have hlex := Prod.Lex.toLex_le_toLex.mp h
  have hle : ((c.id : Digest) : WithBot Digest) ≤ (c'.id : Digest) := by
    rcases hlex with hlt | heq
    · exact hlt.le
    · exact heq.1.le
  exact WithBot.coe_le_coe.mp hle

variable {bases candidates : List Observation}
  (hids : bases.map Observation.id = candidates.map Observation.id)

include hids

theorem mem_zipWith_exactComparison {row : Comparison}
    (h : row ∈ List.zipWith exactComparison bases candidates) :
    ∃ b c, row = exactComparison b c ∧ b.id = c.id := by
  induction bases generalizing candidates with
  | nil => cases h
  | cons b bases ih =>
    cases candidates with
    | nil => cases h
    | cons c candidates =>
      rw [map_cons, map_cons, cons.injEq] at hids
      rcases mem_cons.mp h with rfl | h
      · exact ⟨b, c, rfl, hids.1⟩
      · exact ih hids.2 h

theorem baseIds_zipWith :
    baseIds (List.zipWith exactComparison bases candidates) = bases.map Observation.id := by
  induction bases generalizing candidates with
  | nil => rfl
  | cons b bases ih =>
    cases candidates with
    | nil => cases hids
    | cons c candidates =>
      rw [map_cons, map_cons, cons.injEq] at hids
      rw [zipWith_cons_cons, map_cons, ← ih hids.2]
      rfl

/-- The sorted rows of the short path have their identities in order. -/
theorem baseIds_sorted :
    (baseIds (sortBy Comparison.sortKey
      (List.zipWith exactComparison bases candidates))).Pairwise (· ≤ ·) := by
  rw [baseIds, pairwise_filterMap]
  refine (sortBy_pairwise Comparison.sortKey _).imp_of_mem
    (fun {row row'} hr hr' hle k hk k' hk' => ?_)
  rcases mem_zipWith_exactComparison hids ((mem_sortBy _ _ _).mp hr) with ⟨b, c, rfl, hid⟩
  rcases mem_zipWith_exactComparison hids ((mem_sortBy _ _ _).mp hr') with ⟨b', c', rfl, hid'⟩
  have hbk : b.id = k := Option.some.inj hk
  have hbk' : b'.id = k' := Option.some.inj hk'
  rw [← hbk, ← hbk', hid, hid']
  exact sortKey_exactComparison_le hle

/-- The neighbour check of the short path finds exactly the repetitions. -/
theorem checkNeighbours_sorted_ok_iff :
    checkNeighbours none (sortBy Comparison.sortKey
        (List.zipWith exactComparison bases candidates)) = .ok () ↔
      (bases.map Observation.id).Nodup := by
  have hbase : ∀ row ∈ sortBy Comparison.sortKey
      (zipWith exactComparison bases candidates), row.base ≠ none := by
    intro row hrow
    rcases mem_zipWith_exactComparison hids ((mem_sortBy _ _ _).mp hrow) with ⟨b, c, rfl, _⟩
    exact Option.some_ne_none b
  have hperm : (baseIds (sortBy Comparison.sortKey
      (zipWith exactComparison bases candidates))).Perm (bases.map Observation.id) := by
    rw [← baseIds_zipWith hids]
    exact (sortBy_perm _ _).filterMap _
  rw [checkNeighbours_ok_iff _ hbase, Option.toList_none, nil_append,
    ← nodup_iff_isChain_of_sorted (baseIds_sorted hids), hperm.nodup_iff]

/-- Zipping lists of equal identities pairs by identity. -/
theorem mem_zip_iff_of_map_id (hb : (bases.map Observation.id).Nodup) (x y : Observation) :
    (x, y) ∈ bases.zip candidates ↔ x ∈ bases ∧ y ∈ candidates ∧ x.id = y.id := by
  constructor
  · intro h
    rcases mem_iff_getElem?.mp h with ⟨i, hi⟩
    rw [getElem?_zip_eq_some] at hi
    refine ⟨List.mem_of_getElem? hi.1, List.mem_of_getElem? hi.2, ?_⟩
    have hget : (bases.map Observation.id)[i]? = (candidates.map Observation.id)[i]? := by
      rw [hids]
    simpa only [getElem?_map, hi.1, hi.2, Option.map_some, Option.some.injEq] using hget
  · rintro ⟨hx, hy, hid⟩
    rcases mem_iff_getElem?.mp hx with ⟨i, hi⟩
    have hget : (candidates.map Observation.id)[i]? = some x.id := by
      rw [← hids, getElem?_map, hi, Option.map_some]
    rw [getElem?_map, Option.map_eq_some_iff] at hget
    rcases hget with ⟨y', hy', hid'⟩
    have hyy : y' = y := inj_on_of_nodup_map (hids ▸ hb)
      (List.mem_of_getElem? hy') hy (hid'.trans hid)
    exact List.mem_of_getElem? (List.getElem?_zip_eq_some.mpr ⟨hi, hyy ▸ hy'⟩)

theorem length_eq_of_map_id : bases.length = candidates.length := by
  simpa only [length_map] using congrArg List.length hids

theorem zip_nodup_of_map_id (hb : (bases.map Observation.id).Nodup) :
    (bases.zip candidates).Nodup := by
  refine List.Nodup.of_map Prod.fst ?_
  rw [map_fst_zip (length_eq_of_map_id hids).le]
  exact hb.of_map _

end Aligned

/-- The pairs of observations that share an identity. -/
def exactPairs (bases candidates : List Observation) : List (Observation × Observation) :=
  (bases ×ˢ candidates).filter (fun pair => pair.1.id = pair.2.id)

section Correlate

variable {bases candidates : List Observation}

theorem mem_exactPairs {pair : Observation × Observation} :
    pair ∈ exactPairs bases candidates ↔
      pair.1 ∈ bases ∧ pair.2 ∈ candidates ∧ pair.1.id = pair.2.id := by
  unfold exactPairs
  rw [mem_filter, mem_product, decide_eq_true_eq, and_assoc]

variable (renames : BTreeMap RepoPath RepoPath)

variable (label : Vertex → Nat)

/-- The rows of correlation up to their order: the exact pairs, and one row for
    each label. -/
def rowsOf (bases candidates : List Observation) : List Comparison :=
  (exactPairs bases candidates).map (fun pair => exactComparison pair.1 pair.2) ++
    (labels label bases candidates).map (fun k =>
      rowOf renames (lefts (labelClass label bases candidates k))
        (rights (labelClass label bases candidates k)))

section

variable (hb : (bases.map Observation.id).Nodup) (hc : (candidates.map Observation.id).Nodup)

include hb hc

theorem exactPairs_nodup : (exactPairs bases candidates).Nodup :=
  ((hb.of_map _).product (hc.of_map _)).filter _

/-- Zipping the exact matches lists the pairs that share an identity. -/
theorem zip_matched_perm :
    ((matched bases candidates).zip (matched candidates bases)).Perm
      (exactPairs bases candidates) := by
  have hmatched : ((matched bases candidates).map Observation.id).Nodup :=
    (matched_strict hb).imp ne_of_lt
  refine (perm_ext_iff_of_nodup (zip_nodup_of_map_id (matched_map_id hb hc) hmatched)
    (exactPairs_nodup hb hc)).mpr (fun pair => ?_)
  rcases pair with ⟨b, c⟩
  rw [mem_zip_iff_of_map_id (matched_map_id hb hc) hmatched, mem_matched, mem_matched,
    mem_exactPairs]
  constructor
  · rintro ⟨⟨hb', _⟩, ⟨hc', _⟩, hid⟩
    exact ⟨hb', hc', hid⟩
  · rintro ⟨hb', hc', hid⟩
    simp only at hb' hc' hid
    exact ⟨⟨hb', hid ▸ mem_map_of_mem hc'⟩, ⟨hc', hid ▸ mem_map_of_mem hb'⟩, hid⟩

theorem unalignedRows_perm : (unalignedRows renames label bases candidates).Perm
      (rowsOf renames label bases candidates) := by
  refine List.Perm.append_right _ ?_
  rw [← map_uncurry_zip_eq_zipWith]
  exact (zip_matched_perm hb hc).map _

theorem flatMap_baseMembers_rowsOf :
    ((rowsOf renames label bases candidates).flatMap Comparison.baseMembers).Perm bases := by
  refine List.Perm.trans ?_ (base_order_perm label bases candidates)
  simp only [rowsOf, flatMap_append, flatMap_map, rowOf_baseMembers]
  refine List.Perm.append_right _ ?_
  have hlen := length_eq_of_map_id (matched_map_id hb hc)
  have hfst : (exactPairs bases candidates).flatMap
      (fun pair => (exactComparison pair.1 pair.2).baseMembers) =
        (exactPairs bases candidates).map Prod.fst := map_eq_flatMap.symm
  rw [hfst, ← map_fst_zip hlen.le]
  exact ((zip_matched_perm hb hc).map Prod.fst).symm

theorem flatMap_candidateMembers_rowsOf :
    ((rowsOf renames label bases candidates).flatMap Comparison.candidateMembers).Perm
      candidates := by
  refine List.Perm.trans ?_ (candidate_order_perm label bases candidates)
  simp only [rowsOf, flatMap_append, flatMap_map, rowOf_candidateMembers]
  refine List.Perm.append_right _ ?_
  have hlen := length_eq_of_map_id (matched_map_id hb hc)
  have hsnd : (exactPairs bases candidates).flatMap
      (fun pair => (exactComparison pair.1 pair.2).candidateMembers) =
        (exactPairs bases candidates).map Prod.snd := map_eq_flatMap.symm
  rw [hsnd, ← map_snd_zip hlen.ge]
  exact ((zip_matched_perm hb hc).map Prod.snd).symm

end

section

variable (hids : bases.map Observation.id = candidates.map Observation.id)

include hids

/-- Zipping aligned sides lists the pairs that share an identity. -/
theorem zip_aligned_perm (hb : (bases.map Observation.id).Nodup) :
    (bases.zip candidates).Perm (exactPairs bases candidates) := by
  refine (perm_ext_iff_of_nodup (zip_nodup_of_map_id hids hb)
    (exactPairs_nodup hb (hids ▸ hb))).mpr (fun pair => ?_)
  rw [mem_exactPairs]
  exact mem_zip_iff_of_map_id hids hb pair.1 pair.2

theorem vertices_aligned : vertices bases candidates = [] := by
  have hnone : ∀ xs ys : List Observation, xs.map Observation.id = ys.map Observation.id →
      unmatched xs ys = [] := by
    intro xs ys h
    refine eq_nil_iff_forall_not_mem.mpr (fun o ho => ?_)
    rw [mem_unmatched, ← h] at ho
    exact ho.2 (mem_map_of_mem ho.1)
  rw [vertices, hnone _ _ hids, hnone _ _ hids.symm]
  rfl

theorem alignedRows_perm (hb : (bases.map Observation.id).Nodup) :
    (List.zipWith exactComparison bases candidates).Perm
      (rowsOf renames label bases candidates) := by
  have hlabels : labels label bases candidates = [] := by
    rw [labels, vertices_aligned hids]
    rfl
  rw [rowsOf, hlabels, map_nil, append_nil, ← map_uncurry_zip_eq_zipWith]
  exact (zip_aligned_perm hids hb).map _

end

/-- Where no identity repeats, correlation returns the exact pairs and one row
    for each component of the plausible graph. -/
theorem correlate_eq_ok (hb : (base.observations.map Observation.id).Nodup)
    (hc : (candidate.observations.map Observation.id).Nodup) :
    ∃ rows label, correlate sha256 base candidate = .ok rows ∧
      rows.Perm (rowsOf (uniquePathPairs base.documents candidate.documents) label
        base.observations candidate.observations) ∧
      ∀ x ∈ vertices base.observations candidate.observations,
        ∀ y ∈ vertices base.observations candidate.observations,
          label x = label y ↔ (counterpartGraph sha256
            (uniquePathPairs base.documents candidate.documents) base.observations
            candidate.observations).Reachable x y := by
  by_cases halign : aligned base candidate = true
  · have hids := (aligned_iff base candidate).mp halign
    refine ⟨sortBy Comparison.sortKey
      (zipWith exactComparison base.observations candidate.observations), fun _ => 0, ?_,
      (sortBy_perm _ _).trans (alignedRows_perm _ _ hids hb), fun x hx => ?_⟩
    · simp [correlate, halign, pure_eq_ok, ok_bind, (checkNeighbours_sorted_ok_iff hids).mpr hb]
    · rw [vertices_aligned hids] at hx
      cases hx
  · rcases correlateUnaligned_eq sha256 base candidate hb hc with ⟨label, hrun, hlabel⟩
    refine ⟨sortBy Comparison.sortKey (unalignedRows _ label _ _), label, ?_,
      (sortBy_perm _ _).trans (unalignedRows_perm _ label hb hc), hlabel⟩
    simp [correlate, halign, hrun, ok_bind, pure_eq_ok]

/-- The long path finds a repeated identity when it indexes the sides. -/
theorem correlateUnaligned_eq_error {base candidate : Side}
    (hdup : ¬ ((base.observations.map Observation.id).Nodup ∧
      (candidate.observations.map Observation.id).Nodup)) :
    correlateUnaligned sha256 base candidate = .error .internal := by
  by_cases hb : (base.observations.map Observation.id).Nodup
  · rcases ObservationPool.new_of_nodup hb with ⟨pool, hpool, _⟩
    have hc := ObservationPool.new_of_not_nodup (fun h => hdup ⟨hb, h⟩)
    simp only [correlateUnaligned, hpool, hc, ok_bind, error_bind]
  · simp only [correlateUnaligned, ObservationPool.new_of_not_nodup hb, error_bind]

/-- A repeated identity on either side is refused on both paths. -/
theorem correlate_eq_error (hdup : ¬ ((base.observations.map Observation.id).Nodup ∧
      (candidate.observations.map Observation.id).Nodup)) :
    correlate sha256 base candidate = .error .internal := by
  by_cases halign : aligned base candidate = true
  · have hids := (aligned_iff base candidate).mp halign
    have hb : ¬ (base.observations.map Observation.id).Nodup := fun h => hdup ⟨h, hids ▸ h⟩
    have hcheck := (checkNeighbours_sorted_ok_iff hids).not.mpr hb
    simp only [correlate, halign, if_true, pure_eq_ok, ok_bind]
    cases hrun : checkNeighbours none (sortBy Comparison.sortKey
        (zipWith exactComparison base.observations candidate.observations)) with
    | ok value => exact absurd hrun hcheck
    | error e => cases e; rfl
  · simp [correlate, halign, correlateUnaligned_eq_error sha256 hdup, error_bind]

/-- Correlation returns rows exactly when no identity repeats within a side,
    and the rows then hold every observation of each side once, as a primary
    or as an alternative. -/
theorem correlate_ok_iff_and_conserves (sha256 : Bytes → Digest) (base candidate : Side) :
    ((∃ rows, correlate sha256 base candidate = .ok rows) ↔
      (base.observations.map Observation.id).Nodup ∧
        (candidate.observations.map Observation.id).Nodup) ∧
    ∀ rows, correlate sha256 base candidate = .ok rows →
      (rows.flatMap Comparison.baseMembers).Perm base.observations ∧
        (rows.flatMap Comparison.candidateMembers).Perm candidate.observations := by
  have hnodup : ∀ rows, correlate sha256 base candidate = .ok rows →
      (base.observations.map Observation.id).Nodup ∧
        (candidate.observations.map Observation.id).Nodup := by
    intro rows hrows
    by_contra hdup
    rw [correlate_eq_error sha256 base candidate hdup] at hrows
    cases hrows
  refine ⟨⟨fun ⟨rows, hrows⟩ => hnodup rows hrows, fun ⟨hb, hc⟩ => ?_⟩, fun rows hrows => ?_⟩
  · rcases correlate_eq_ok sha256 base candidate hb hc with ⟨rows, _, hrun, _⟩
    exact ⟨rows, hrun⟩
  rcases hnodup rows hrows with ⟨hb, hc⟩
  rcases correlate_eq_ok sha256 base candidate hb hc with ⟨rows', label, hrun, hperm, _⟩
  cases hrows.symm.trans hrun
  exact ⟨(hperm.flatMap_right _).trans (flatMap_baseMembers_rowsOf _ label hb hc),
    (hperm.flatMap_right _).trans (flatMap_candidateMembers_rowsOf _ label hb hc)⟩

end Correlate

/-- What a row says: its outcome and its members by side, primaries first. -/
abbrev RowView := Outcome × List Observation × List Observation

def Comparison.view (comparison : Comparison) : RowView :=
  (comparison.outcome, comparison.baseMembers, comparison.candidateMembers)

/-- The graph of plausible counterparts between two sides. -/
def correlationGraph : SimpleGraph Vertex :=
  counterpartGraph sha256 (uniquePathPairs base.documents candidate.documents)
    base.observations candidate.observations

open Classical in
/-- The connected components of the unmatched observations. -/
noncomputable def components :
    Finset (correlationGraph sha256 base candidate).ConnectedComponent :=
  ((vertices base.observations candidate.observations).map
    (correlationGraph sha256 base candidate).connectedComponentMk).toFinset

/-- The vertices of one component, by side and in identity order. -/
noncomputable def componentMembers
    (component : (correlationGraph sha256 base candidate).ConnectedComponent) : List Vertex :=
  open Classical in
  (vertices base.observations candidate.observations).filter (fun v =>
    (correlationGraph sha256 base candidate).connectedComponentMk v = component)

/-- The row of a list of vertices. -/
def membersView (members : List Vertex) : RowView :=
  (componentOutcome (lefts members).length (rights members).length, lefts members, rights members)

theorem view_rowOf (renames : BTreeMap RepoPath RepoPath) (members : List Vertex) :
    (rowOf renames (lefts members) (rights members)).view = membersView members := by
  simp only [Comparison.view, membersView, rowOf_outcome, rowOf_baseMembers, rowOf_candidateMembers]

/-- The rows are one exact row for each pair that shares an identity, and one
    row for each connected component of the plausible graph on the rest: a
    candidate row for one member on each side, a row without counterpart for a
    single member, and one ambiguous row with all members otherwise. -/
theorem correlate_rows_eq_components (sha256 : Bytes → Digest) (base candidate : Side)
    (hb : (base.observations.map Observation.id).Nodup)
    (hc : (candidate.observations.map Observation.id).Nodup) :
    ∃ rows, correlate sha256 base candidate = .ok rows ∧
      ((rows.map Comparison.view : List RowView) : Multiset RowView) =
        ((exactPairs base.observations candidate.observations).map
          (fun pair => (Outcome.exact, [pair.1], [pair.2])) : List RowView) +
        (components sha256 base candidate).val.map
          (fun component => membersView (componentMembers sha256 base candidate component)) := by
  classical
  rcases correlate_eq_ok sha256 base candidate hb hc with ⟨rows, label, hrun, hperm, hlabel⟩
  refine ⟨rows, hrun, ?_⟩
  rw [Multiset.coe_eq_coe.mpr (hperm.map Comparison.view), rowsOf, map_append,
    ← Multiset.coe_add, map_map, map_map]
  refine congrArg₂ (· + ·) rfl ?_
  -- The labels and the components tell the same vertices apart.
  have hclasses := classes_eq_of_same_kernel
    (vertices base.observations candidate.observations) label
    (correlationGraph sha256 base candidate).connectedComponentMk
    (fun x hx y hy => (hlabel x hx y hy).trans SimpleGraph.ConnectedComponent.eq.symm)
    (labels label base.observations candidate.observations) (labels_nodup label)
    (mem_labels label)
  have hmapped := congrArg (Multiset.map membersView) hclasses
  rw [Multiset.map_coe, map_map, Multiset.map_map] at hmapped
  simp only [Function.comp_def, view_rowOf] at hmapped ⊢
  exact hmapped

/-- A reference to one file from one document. -/
def sampleReference (id projection : Nat) : Observation where
  id := ⟨id⟩
  document := ⟨[97], pathBytesValid_a⟩
  span := (0, 1)
  display := ⟨1, 1, 1, 2⟩
  adapter := .markdown
  construct := .inlineLink
  intent := ⟨.repositoryPath, none, some ⟨[98], pathBytesValid_b⟩, some .blob, none, none, none⟩
  rawDestination := "b"
  rawDestinationDigest := ⟨0⟩
  projectionDigest := ⟨projection⟩
  resolution := .missing (.pathNotFound ⟨[98], pathBytesValid_b⟩ none none)
  fragmentSpan := none
  pathSpan := none

/-- A side that lists such references by identity. -/
def sampleSide (ids : List Nat) : Side :=
  ⟨ids.map (fun id => sampleReference id 0), ∅⟩

/-- One shared identity, and three references that no one can pair. -/
theorem correlate_rows_eq_components_sample :
    ∃ rows, correlate (fun bytes => ⟨bytes.length⟩) (sampleSide [1, 2, 3]) (sampleSide [1, 4]) =
        .ok rows ∧
      ((rows.map Comparison.view : List RowView) : Multiset RowView) =
        ((exactPairs (sampleSide [1, 2, 3]).observations (sampleSide [1, 4]).observations).map
          (fun pair => (Outcome.exact, [pair.1], [pair.2])) : List RowView) +
        (components (fun bytes => ⟨bytes.length⟩) (sampleSide [1, 2, 3])
          (sampleSide [1, 4])).val.map (fun component => membersView (componentMembers
            (fun bytes => ⟨bytes.length⟩) (sampleSide [1, 2, 3]) (sampleSide [1, 4])
            component)) :=
  correlate_rows_eq_components _ _ _ (by decide) (by decide)

example : (correlate (fun bytes => ⟨bytes.length⟩) (sampleSide [1, 2, 3])
    (sampleSide [1, 4])).toOption.map (List.map Comparison.outcome) =
      some [.exact, .ambiguous] := by
  decide

end Amiss
