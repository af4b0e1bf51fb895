import Amiss.Theory.Correlate.Groups
import Amiss.Theory.Correlate.Pool

/-!
# Components of the Counterparts Graph

The forest computes the connected components of the graph whose vertices are
the unmatched observations of both sides and whose edges join plausible
counterparts.

The vertices are tagged by side, so that nothing depends on the identities of
the two sides being different; that they are is a consequence of removing
the exact matches, and it is what lets the code keep both sides in one forest.

`correlationComponents_spec` is the interface. The result is the vertices
collected by a label, and two vertices have one label exactly when a path
of plausible edges joins them.

## Main definitions

* `unmatched`: The observations of one side without an exact counterpart.
* `vertices`: The unmatched observations of both sides.
* `counterpartGraph`: The graph of plausible counterparts.
* `ComponentForest.Over`: A forest over the sorted identities.
* `ComponentForest.label`: The root an identity is filed under.

## Theorems

* `ComponentForest.rootPosition_spec`: Finding a root.
* `ComponentForest.unionAll_spec`: Labels after a sequence of unions.
* `ComponentForest.component_forest_roots`: Roots after any unions and searches.
* `fileUnderRoots_spec`: Filing identities under their labels.
* `reachable_iff_connected`: Paths of the graph are the connectivity of the edges.
* `correlationComponents_spec`: What the components are.
-/

namespace Amiss

open List

open Fallible

namespace ComponentForest

/-- A forest over strictly increasing identities. -/
structure Over (forest : ComponentForest) (identities : List Digest) : Prop where
  identities_eq : forest.identities = identities
  strict : identities.Pairwise (· < ·)
  descending : Forest.Descending forest.parents
  length_eq : forest.parents.length = identities.length

/-- The root an identity is filed under. -/
def label (forest : ComponentForest) (identity : Digest) : Nat :=
  Forest.root forest.parents (forest.identities.idxOf identity)

variable {forest : ComponentForest} {identities : List Digest}

theorem binarySearch_idxOf (hstrict : identities.Pairwise (· < ·)) {identity : Digest}
    (hmem : identity ∈ identities) :
    binarySearch identities identity = some (identities.idxOf identity) := by
  rw [binarySearch_eq_some_iff hstrict]
  exact getElem?_idxOf hmem

/-- Searching from a position returns its root and moves no root. -/
theorem rootPosition_found (hd : Forest.Descending forest.parents)
    (hlen : forest.parents.length = forest.identities.length) {identity : Digest}
    {position : Nat} (hfound : binarySearch forest.identities identity = some position) :
    ∃ parents, forest.rootPosition identity =
        .ok (Forest.root forest.parents position, ⟨forest.identities, parents⟩) ∧
      Forest.Refines parents forest.parents := by
  have hin := (List.getElem?_eq_some_iff.mp (getElem?_of_binarySearch hfound)).1
  rcases Forest.findRoot_spec (forest.parents.length + 1) forest.parents position hd
    (by omega) (by omega) with ⟨parents, hfind, href⟩
  refine ⟨parents, ?_, href⟩
  simp only [rootPosition, hfound, okOrInternal, ok_bind, hfind, pure_eq_ok]

/-- Finding a root returns the label and moves no label. -/
theorem rootPosition_spec (h : forest.Over identities) {identity : Digest}
    (hmem : identity ∈ identities) :
    ∃ forest', forest.rootPosition identity = .ok (forest.label identity, forest') ∧
      forest'.Over identities ∧ ∀ k, forest'.label k = forest.label k := by
  rcases h with ⟨rfl, hstrict, hd, hlen⟩
  rcases rootPosition_found hd hlen (binarySearch_idxOf hstrict hmem) with ⟨parents, hrun, href⟩
  exact ⟨_, hrun, ⟨rfl, hstrict, href.descending, href.length_eq.trans hlen⟩,
    fun k => href.root_eq _⟩

theorem union_eq (hstrict : forest.identities.Pairwise (· < ·)) {left right : Digest}
    (hleft : left ∈ forest.identities) (hright : right ∈ forest.identities) :
    forest.union left right = okOrInternal (Forest.unite forest.parents
      (forest.identities.idxOf left) (forest.identities.idxOf right)) >>=
        fun parents => .ok ⟨forest.identities, parents⟩ := by
  simp only [union, rootPosition, binarySearch_idxOf hstrict hleft, okOrInternal,
    ok_bind, Forest.unite]
  cases Forest.findRoot (forest.parents.length + 1) forest.parents
      (forest.identities.idxOf left) with
  | none => rfl
  | some first =>
    rcases first with ⟨leftRoot, parents⟩
    simp only [ok_bind, pure_eq_ok, Option.bind_eq_bind, Option.bind_some,
      binarySearch_idxOf hstrict hright]
    cases Forest.findRoot (parents.length + 1) parents (forest.identities.idxOf right) with
    | none => rfl
    | some second => rfl

theorem unionAll_eq (hstrict : forest.identities.Pairwise (· < ·)) (edges : List (Digest × Digest))
    (hin : ∀ e ∈ edges, e.1 ∈ forest.identities ∧ e.2 ∈ forest.identities) :
    forest.unionAll edges = okOrInternal (Forest.uniteAll
      (edges.map (Prod.map forest.identities.idxOf forest.identities.idxOf)) forest.parents) >>=
        fun parents => .ok ⟨forest.identities, parents⟩ := by
  induction edges generalizing forest with
  | nil => rfl
  | cons e edges ih =>
    have he := hin e mem_cons_self
    have hcons : forest.unionAll (e :: edges) =
        forest.union e.1 e.2 >>= fun forest => forest.unionAll edges := foldlM_cons
    rw [hcons, union_eq hstrict he.1 he.2, map_cons]
    simp only [Forest.uniteAll, foldlM_cons, Prod.map_fst, Prod.map_snd]
    cases Forest.unite forest.parents (forest.identities.idxOf e.1)
        (forest.identities.idxOf e.2) with
    | none => rfl
    | some parents =>
      exact @ih ⟨forest.identities, parents⟩ hstrict
        (fun e he => hin e (mem_cons_of_mem _ he))

/-- After the unions over a list of edges, two identities have one label
    exactly when the edges connect them. -/
theorem unionAll_spec (hstrict : identities.Pairwise (· < ·)) (edges : List (Digest × Digest))
    (hin : ∀ e ∈ edges, e.1 ∈ identities ∧ e.2 ∈ identities) :
    ∃ forest, (⟨identities, List.range identities.length⟩ : ComponentForest).unionAll edges =
        .ok forest ∧ forest.Over identities ∧
      ∀ a ∈ identities, ∀ b ∈ identities,
        forest.label a = forest.label b ↔ Forest.Connected edges a b := by
  have hrange : ∀ e ∈ edges.map (Prod.map identities.idxOf identities.idxOf),
      e.1 < identities.length ∧ e.2 < identities.length := by
    intro e he
    rcases mem_map.mp he with ⟨e', he', rfl⟩
    exact ⟨idxOf_lt_length_of_mem (hin e' he').1, idxOf_lt_length_of_mem (hin e' he').2⟩
  rcases Forest.uniteAll_spec identities.length _ hrange with ⟨parents, hrun, hd, hlen, hsame⟩
  refine ⟨⟨identities, parents⟩, ?_, ⟨rfl, hstrict, hd, hlen⟩, fun a ha b hb => ?_⟩
  · rw [unionAll_eq hstrict edges hin, hrun]
    rfl
  refine (hsame _ _).trans ⟨fun h => ?_, fun h => ?_⟩
  · -- A position stands for the identity at it.
    have hback : ∀ k ∈ identities, identities.getD (identities.idxOf k) a = k := by
      intro k hk
      rw [getD_eq_getElem?_getD, getElem?_idxOf hk, Option.getD_some]
    have hlift := h.lift (Forest.connected_equivalence edges) (fun i => identities.getD i a)
      (fun e he => by
        rcases mem_map.mp he with ⟨e', he', rfl⟩
        simp only [Prod.map_fst, Prod.map_snd, hback _ (hin e' he').1, hback _ (hin e' he').2]
        exact Relation.EqvGen.rel _ _ he')
    simpa only [hback a ha, hback b hb] using hlift
  · exact h.lift (Forest.connected_equivalence _) identities.idxOf (fun e he =>
      Relation.EqvGen.rel _ _ (mem_map.mpr ⟨e, he, rfl⟩))

/-- A forest that unions and searches make of single members. A union that
    fails has done no more than its searches. -/
inductive Reached (identities : List Digest) : ComponentForest → Prop where
  | single : Reached identities ⟨identities, List.range identities.length⟩
  | search {forest next : ComponentForest} {identity : Digest} {root : Nat}
      (before : Reached identities forest)
      (run : forest.rootPosition identity = .ok (root, next)) : Reached identities next
  | union {forest next : ComponentForest} {left right : Digest}
      (before : Reached identities forest) (run : forest.union left right = .ok next) :
      Reached identities next

/-- A forest over a list of identities, with no parent above its child. -/
def Laid (identities : List Digest) (forest : ComponentForest) : Prop :=
  forest.identities = identities ∧ Forest.Descending forest.parents ∧
    forest.parents.length = identities.length

theorem Laid.search {next : ComponentForest} {identity : Digest} {root : Nat}
    (h : forest.Laid identities) (hrun : forest.rootPosition identity = .ok (root, next)) :
    next.Laid identities := by
  rcases h with ⟨rfl, hd, hlen⟩
  cases hfound : binarySearch forest.identities identity with
  | none =>
    rw [rootPosition, hfound] at hrun
    cases hrun
  | some position =>
    rcases rootPosition_found hd hlen hfound with ⟨parents, hsearch, href⟩
    cases hrun.symm.trans hsearch
    exact ⟨rfl, href.descending, href.length_eq.trans hlen⟩

theorem Reached.laid (h : Reached identities forest) : forest.Laid identities := by
  induction h with
  | single => exact ⟨rfl, Forest.descending_range _, length_range⟩
  | search before run ih => exact ih.search run
  | union before run ih =>
    simp only [ComponentForest.union, bind_eq_ok, Prod.exists] at run
    rcases run with ⟨leftRoot, first, hleft, rightRoot, second, hright, parents, hlink, hnext⟩
    rcases (ih.search hleft).search hright with ⟨hids, hd, hlen⟩
    cases hnext
    unfold Forest.link at hlink
    split_ifs at hlink
    · cases hlink
      exact ⟨hids, hd, hlen⟩
    · cases hlink
      exact ⟨hids, Forest.descending_set hd _ _ (by omega), length_set.trans hlen⟩
    · cases hlink

/-- Every sequence of unions of members goes through, and whatever unions and
    searches have been made, no parent lies above its child, the search of
    every member ends, at the least position of its class, and no position gets
    another root by it. -/
theorem component_forest_roots (identities : List Digest) :
    (identities.Pairwise (· < ·) →
      (∀ identity ∈ identities, ∃ position, binarySearch identities identity = some position) ∧
      ∀ edges : List (Digest × Digest),
        (∀ e ∈ edges, e.1 ∈ identities ∧ e.2 ∈ identities) →
        ∃ forest, (⟨identities, List.range identities.length⟩ : ComponentForest).unionAll edges =
          .ok forest ∧ Reached identities forest) ∧
    ∀ forest, Reached identities forest →
      (∀ child parent : Nat, forest.parents[child]? = some parent → parent ≤ child) ∧
      ∀ identity position, binarySearch identities identity = some position →
        ∃ root next, forest.rootPosition identity = .ok (root, next) ∧
          root = Forest.root forest.parents position ∧
          (∀ i, Forest.root next.parents i = Forest.root forest.parents i) ∧
          Forest.Same forest.parents root position ∧
          ∀ i, Forest.Same forest.parents i position → root ≤ i := by
  refine ⟨fun hstrict => ⟨fun identity hmem => ⟨_, binarySearch_idxOf hstrict hmem⟩, ?_⟩, ?_⟩
  · intro edges hin
    rcases unionAll_spec hstrict edges hin with ⟨forest, hrun, _⟩
    exact ⟨forest, hrun, foldlM_invariant (fun _ _ _ _ hs hst => .union hs hst) .single hrun⟩
  · intro forest hreached
    rcases hreached.laid with ⟨rfl, hd, hlen⟩
    refine ⟨hd, fun identity position hfound => ?_⟩
    rcases rootPosition_found hd hlen hfound with ⟨parents, hrun, href⟩
    refine ⟨_, _, hrun, rfl, href.root_eq, ?_, fun i hsame => ?_⟩
    · exact Forest.root_of_fixed (Forest.parentOf_root hd position)
    · exact hsame ▸ Forest.root_le forest.parents i

end ComponentForest

/-- Filing identities under their roots collects them by label. -/
theorem fileUnderRoots_spec {identities : List Digest}
    (add : List Digest × List Digest → Digest → List Digest × List Digest) (label : Digest → Nat)
    (ids : List Digest) (hsub : ∀ k ∈ ids, k ∈ identities) (forest : ComponentForest)
    (hover : forest.Over identities) (hlabel : ∀ k, forest.label k = label k)
    (grouped : ComponentIds) :
    ∃ forest', fileUnderRoots add ids forest grouped = .ok (forest', ids.foldl
        (fun grouped k => upsert grouped (label k) (fun entry => add (entry.getD ([], [])) k))
        grouped) ∧
      forest'.Over identities ∧ ∀ k, forest'.label k = label k := by
  induction ids generalizing forest grouped with
  | nil => exact ⟨forest, rfl, hover, hlabel⟩
  | cons k ids ih =>
    rcases ComponentForest.rootPosition_spec hover (hsub k mem_cons_self) with
      ⟨forest1, hroot, hover1, hlabel1⟩
    rcases ih (fun k hk => hsub k (mem_cons_of_mem _ hk)) forest1 hover1
      (fun k => (hlabel1 k).trans (hlabel k))
      (upsert grouped (label k) (fun entry => add (entry.getD ([], [])) k)) with
      ⟨forest', hrun, hover', hlabel'⟩
    refine ⟨forest', ?_, hover', hlabel'⟩
    rw [foldl_cons, ← hrun]
    simp [fileUnderRoots, hroot, ok_bind, hlabel, pure_eq_ok]

/-- The observations of one side without an exact counterpart, in identity
    order. -/
def unmatched (own other : List Observation) : List Observation :=
  (byIdentity own).filter (fun o => o.id ∉ other.map Observation.id)

/-- An observation tagged by its side. -/
abbrev Vertex := Observation ⊕ Observation

/-- The identity of a vertex. -/
def Vertex.id : Vertex → Digest
  | .inl o => o.id
  | .inr o => o.id

/-- The unmatched observations of both sides. -/
def vertices (bases candidates : List Observation) : List Vertex :=
  (unmatched bases candidates).map .inl ++ (unmatched candidates bases).map .inr

variable (sha256 : Bytes → Digest)

/-- The bipartite graph that joins plausible counterparts among the vertices. -/
def counterpartGraph (renames : BTreeMap RepoPath RepoPath)
    (bases candidates : List Observation) : SimpleGraph Vertex :=
  SimpleGraph.fromRel (fun x y => ∃ b ∈ unmatched bases candidates,
    ∃ c ∈ unmatched candidates bases, x = .inl b ∧ y = .inr c ∧ Counterparts sha256 renames b c)

section Graph

variable {bases candidates : List Observation}

theorem mem_unmatched {own other : List Observation} {o : Observation} :
    o ∈ unmatched own other ↔ o ∈ own ∧ o.id ∉ other.map Observation.id := by
  rw [unmatched, mem_filter, (byIdentity_perm own).mem_iff, decide_eq_true_eq]

theorem vertices_map_id (bases candidates : List Observation) :
    (vertices bases candidates).map Vertex.id =
      (unmatched bases candidates).map Observation.id ++
        (unmatched candidates bases).map Observation.id := by
  rw [vertices, map_append, map_map, map_map]
  rfl

/-- The identities of the vertices differ: within a side by assumption, across
    the sides because the exact matches are gone. -/
theorem vertices_id_nodup (hb : (bases.map Observation.id).Nodup)
    (hc : (candidates.map Observation.id).Nodup) :
    ((vertices bases candidates).map Vertex.id).Nodup := by
  have hside : ∀ own other : List Observation, (own.map Observation.id).Nodup →
      ((unmatched own other).map Observation.id).Nodup := by
    intro own other hown
    exact ((byIdentity_strict hown).imp ne_of_lt).sublist (filter_sublist.map _)
  rw [vertices_map_id]
  refine nodup_append.mpr ⟨hside _ _ hb, hside _ _ hc, fun i hi j hj hij => ?_⟩
  rcases mem_map.mp hi with ⟨b, hb', rfl⟩
  rcases mem_map.mp hj with ⟨c, hc', rfl⟩
  exact (mem_unmatched.mp hb').2 (hij ▸ mem_map_of_mem (mem_unmatched.mp hc').1)

/-- The vertex that carries an identity. -/
def vertexAt (vs : List Vertex) (default : Vertex) (identity : Digest) : Vertex :=
  (vs.find? (fun v => v.id = identity)).getD default

theorem vertexAt_id {vs : List Vertex} (hnodup : (vs.map Vertex.id).Nodup) (default : Vertex)
    {v : Vertex} (hv : v ∈ vs) : vertexAt vs default v.id = v := by
  unfold vertexAt
  cases hfind : vs.find? (fun u => u.id = v.id) with
  | none => exact absurd (decide_eq_true rfl) (find?_eq_none.mp hfind v hv)
  | some u =>
    have hid : u.id = v.id := by
      simpa only [decide_eq_true_eq] using find?_some hfind
    exact inj_on_of_nodup_map hnodup (mem_of_find?_eq_some hfind) hv hid

/-- Reachability is the least equivalence that relates neighbours. -/
theorem reachable_lift {V : Type} {G : SimpleGraph V} {R : V → V → Prop} (hequiv : Equivalence R)
    (hadj : ∀ x y, G.Adj x y → R x y) {x y : V} (h : G.Reachable x y) : R x y := by
  rcases h with ⟨walk⟩
  induction walk with
  | nil => exact hequiv.refl _
  | cons hstep _ ih => exact hequiv.trans (hadj _ _ hstep) ih

/-- Paths of the graph are the connectivity of the edges the code adds. -/
theorem reachable_iff_connected {sha256 : Bytes → Digest} {renames : BTreeMap RepoPath RepoPath}
    (hb : (bases.map Observation.id).Nodup) (hc : (candidates.map Observation.id).Nodup)
    {x y : Vertex} (hx : x ∈ vertices bases candidates) (hy : y ∈ vertices bases candidates) :
    (counterpartGraph sha256 renames bases candidates).Reachable x y ↔
      Forest.Connected (candidateEdges (groupsOf sha256 (unmatched bases candidates))
        (groupsOf sha256 (unmatched candidates bases)) renames) x.id y.id := by
  constructor
  · have hequiv := Forest.connected_equivalence (candidateEdges
      (groupsOf sha256 (unmatched bases candidates))
      (groupsOf sha256 (unmatched candidates bases)) renames)
    refine fun h => reachable_lift (R := fun x y => Forest.Connected _ x.id y.id)
      (hequiv.comap Vertex.id) (fun u v huv => ?_) h
    rw [counterpartGraph, SimpleGraph.fromRel_adj] at huv
    rcases huv.2 with ⟨b, hb', c, hc', rfl, rfl, hp⟩ | ⟨b, hb', c, hc', rfl, rfl, hp⟩
    · exact connected_of_counterparts hb' hc' hp
    · exact hequiv.symm (connected_of_counterparts hb' hc' hp)
  · intro h
    have hat : ∀ v ∈ vertices bases candidates, vertexAt (vertices bases candidates) x v.id = v :=
      fun v hv => vertexAt_id (vertices_id_nodup hb hc) x hv
    have hlift := h.lift (R := (counterpartGraph sha256 renames bases candidates).Reachable)
      ⟨fun v => SimpleGraph.Reachable.refl v, fun h => h.symm, fun h h' => h.trans h'⟩
      (vertexAt (vertices bases candidates) x) (fun e he => by
        rcases counterparts_of_mem_candidateEdges he with ⟨b, hb', c, hc', hp, rfl⟩
        have hleft : vertexAt (vertices bases candidates) x b.id = .inl b :=
          hat (.inl b) (mem_append_left _ (mem_map_of_mem hb'))
        have hright : vertexAt (vertices bases candidates) x c.id = .inr c :=
          hat (.inr c) (mem_append_right _ (mem_map_of_mem hc'))
        rw [hleft, hright]
        refine SimpleGraph.Adj.reachable ?_
        rw [counterpartGraph, SimpleGraph.fromRel_adj]
        exact ⟨Sum.inl_ne_inr, Or.inl ⟨b, hb', c, hc', rfl, rfl, hp⟩⟩)
    rwa [hat x hx, hat y hy] at hlift

end Graph

/-- File one vertex, on its own side. -/
def addVertex (entry : List Digest × List Digest) : Vertex → List Digest × List Digest
  | .inl o => addBase entry o.id
  | .inr o => addCandidate entry o.id

/-- Filing the base side and then the candidate side collects the vertices. -/
theorem foldl_addBase_addCandidate (label : Digest → Nat) (bases candidates : List Observation) :
    ((unmatched candidates bases).map Observation.id).foldl (fun grouped k =>
        upsert grouped (label k) (fun entry => addCandidate (entry.getD ([], [])) k))
      (((unmatched bases candidates).map Observation.id).foldl (fun grouped k =>
        upsert grouped (label k) (fun entry => addBase (entry.getD ([], [])) k)) ∅) =
      collect (fun v => label (Vertex.id v)) ([], []) addVertex (vertices bases candidates) := by
  simp only [collect, vertices, foldl_append, foldl_map]
  rfl

section Spec

variable {pool : ObservationPool} {own other : List Observation} {exactIds : List Digest}

/-- The keys without an exact match are the identities of the unmatched. -/
theorem keys_filter_eq (h : pool.Indexes own) (hstrict : exactIds.Pairwise (· < ·))
    (hexact : ∀ o ∈ own, o.id ∈ exactIds ↔ o.id ∈ other.map Observation.id) :
    pool.positions.keys.filter (fun k => (binarySearch exactIds k).isNone) =
      (unmatched own other).map Observation.id := by
  rw [h.keys_eq, filter_map, unmatched]
  refine congrArg (List.map Observation.id) (filter_congr (fun o ho => ?_))
  have hiff := hexact o ((byIdentity_perm own).mem_iff.mp ho)
  rw [Function.comp_apply, Bool.eq_iff_iff, Option.isNone_iff_eq_none,
    binarySearch_eq_none_iff hstrict, hiff, decide_eq_true_eq]

theorem observationGroups_unmatched (h : pool.Indexes own) :
    observationGroups sha256 (((unmatched own other).map Observation.id).map pool.observation) =
      .ok (groupsOf sha256 (unmatched own other)) := by
  rw [map_map, ← observationGroups_eq]
  refine congrArg (observationGroups sha256) (map_congr_left (fun o ho => ?_))
  exact h.observation_eq (mem_unmatched.mp ho).1

end Spec

/-- The components are the unmatched observations collected by a label that
    is equal exactly along the paths of the plausible graph. -/
theorem correlationComponents_spec {base candidate : ObservationPool}
    {bases candidates : List Observation} (hb : base.Indexes bases)
    (hc : candidate.Indexes candidates) {exactIds : List Digest}
    (hstrict : exactIds.Pairwise (· < ·))
    (hexact : ∀ k, k ∈ exactIds ↔ k ∈ bases.map Observation.id ∧ k ∈ candidates.map Observation.id)
    (renames : BTreeMap RepoPath RepoPath) :
    ∃ label : Vertex → Nat,
      correlationComponents sha256 base candidate exactIds renames =
        .ok (collect label ([], []) addVertex (vertices bases candidates)) ∧
      ∀ x ∈ vertices bases candidates, ∀ y ∈ vertices bases candidates,
        label x = label y ↔ (counterpartGraph sha256 renames bases candidates).Reachable x y := by
  have hbaseIds := keys_filter_eq hb hstrict (fun o ho =>
    (hexact o.id).trans (and_iff_right (mem_map_of_mem ho)))
  have hcandidateIds := keys_filter_eq hc hstrict (fun o ho =>
    (hexact o.id).trans (and_iff_left (mem_map_of_mem ho)))
  have hids := vertices_map_id bases candidates
  have hsorted : (sortBy id ((vertices bases candidates).map Vertex.id)).Pairwise (· < ·) := by
    simpa only [map_id] using sortBy_strict id ((vertices bases candidates).map Vertex.id)
      (by simpa only [map_id] using vertices_id_nodup hb.nodup hc.nodup)
  have hmem : ∀ k, k ∈ sortBy id ((vertices bases candidates).map Vertex.id) ↔
      k ∈ (vertices bases candidates).map Vertex.id := fun k => mem_sortBy _ _ k
  rw [hids] at hsorted hmem
  -- Every edge has its ends among the identities of the forest.
  rcases ComponentForest.unionAll_spec hsorted (candidateEdges
    (groupsOf sha256 (unmatched bases candidates)) (groupsOf sha256 (unmatched candidates bases))
    renames) (fun e he => by
      rcases counterparts_of_mem_candidateEdges he with ⟨b, hb', c, hc', _, rfl⟩
      exact ⟨(hmem _).mpr (mem_append_left _ (mem_map_of_mem hb')),
        (hmem _).mpr (mem_append_right _ (mem_map_of_mem hc'))⟩) with
    ⟨forest, hunion, hover, hlabel⟩
  rcases fileUnderRoots_spec addBase forest.label _
    (fun k hk => (hmem k).mpr (mem_append_left _ hk)) forest hover (fun _ => rfl) ∅ with
    ⟨forest1, hfile1, hover1, hlabel1⟩
  rcases fileUnderRoots_spec addCandidate forest.label _
    (fun k hk => (hmem k).mpr (mem_append_right _ hk)) forest1 hover1 hlabel1
    (((unmatched bases candidates).map Observation.id).foldl (fun grouped k =>
      upsert grouped (forest.label k) (fun entry => addBase (entry.getD ([], [])) k)) ∅) with
    ⟨forest2, hfile2, _, _⟩
  refine ⟨fun v => forest.label v.id, ?_, fun x hx y hy => ?_⟩
  · simp only [correlationComponents, hbaseIds, hcandidateIds,
      observationGroups_unmatched sha256 hb, observationGroups_unmatched sha256 hc,
      ok_bind, connectCandidates_eq, hunion, hfile1, hfile2, pure_eq_ok,
      foldl_addBase_addCandidate]
  · rw [reachable_iff_connected hb.nodup hc.nodup hx hy]
    exact hlabel _ ((hmem _).mpr (hids ▸ mem_map_of_mem hx)) _
      ((hmem _).mpr (hids ▸ mem_map_of_mem hy))

end Amiss
