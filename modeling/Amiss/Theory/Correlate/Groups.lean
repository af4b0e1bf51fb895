import Amiss.Base.Fallible
import Amiss.Core.Components

/-!
# Groups and Spanning Edges

What the linking of groups means. Two observations are plausible counterparts
under `Counterparts`, a relation that mentions no group. The code links groups
instead, each pair of matching groups by a spanning tree, and this module says
the two agree: every edge the code adds joins plausible counterparts, and
plausible counterparts are connected by the edges it adds.

The first half reads the groups back. `groupsOf` is what the grouping loop
leaves, and a lookup by key, document or projection returns the members that
carry them, in the order they were grouped.

The second half collects the edges into one list. `connectCandidates` is the
sequence of unions over that list, which is the form the forest speaks about.

## Main definitions

* `Counterparts`: Plausible counterparts.
* `groupsOf`, `documentsOf`, `groupOf`: The groups of a list of observations.
* `spanning`: The spanning tree of a complete bipartite edge set.
* `candidateEdges`: Every edge the code adds.
* `ComponentForest.unionAll`: A sequence of unions.

## Theorems

* `observationGroups_eq`: The grouping loop leaves `groupsOf`.
* `connectCandidates_eq`: The linking is the unions over `candidateEdges`.
* `counterparts_of_mem_candidateEdges`: Every edge joins plausible counterparts.
* `connected_of_counterparts`: Plausible counterparts are connected.
-/

namespace Amiss

open List

/-- Plausible counterparts: adapter, construct and correlation intent agree,
    and the documents are equal or an exact rename with the same projection. -/
def Counterparts (sha256 : Bytes → Digest) (renames : BTreeMap RepoPath RepoPath)
    (base candidate : Observation) : Prop :=
  base.adapter = candidate.adapter ∧ base.construct = candidate.construct ∧
    correlationIntent sha256 base = correlationIntent sha256 candidate ∧
    (base.document = candidate.document ∨
      (renames[base.document]? = some candidate.document ∧
        base.projectionDigest = candidate.projectionDigest))

theorem correlationKey_eq_iff (sha256 : Bytes → Digest) (base candidate : Observation) :
    correlationKey sha256 base = correlationKey sha256 candidate ↔
      base.adapter = candidate.adapter ∧ base.construct = candidate.construct ∧
        correlationIntent sha256 base = correlationIntent sha256 candidate := by
  simp [correlationKey]

section Groups

variable (sha256 : Bytes → Digest)

variable (observations : List Observation)

/-- The groups that the grouping loop leaves. -/
def groupsOf : ObservationGroups :=
  observations.foldl (ObservationGroups.push sha256) ∅

/-- The groups of observations under one key. -/
def documentsOf : BTreeMap RepoPath DocumentGroup :=
  collect Observation.document .empty DocumentGroup.push observations

/-- The group of observations under one key and document. -/
def groupOf : DocumentGroup :=
  ⟨observations, collect Observation.projectionDigest []
    (fun members observation => members ++ [observation]) observations⟩

theorem observationGroups_eq :
    observationGroups sha256 (observations.map .ok) = .ok (groupsOf sha256 observations) := by
  unfold observationGroups groupsOf
  generalize (∅ : ObservationGroups) = groups
  induction observations generalizing groups with
  | nil => rfl
  | cons observation observations ih => exact ih _

theorem foldl_push_eq_groupOf :
    observations.foldl DocumentGroup.push .empty = groupOf observations := by
  -- The group's own list is a prefix that the remaining pushes extend.
  have hgen : ∀ (xs : List Observation) (group : DocumentGroup),
      xs.foldl DocumentGroup.push group =
        ⟨group.observations ++ xs, xs.foldl (fun map o => upsert map o.projectionDigest
          (fun members => members.getD [] ++ [o])) group.projections⟩ := by
    intro xs
    induction xs with
    | nil => intro group; rw [append_nil]; rfl
    | cons x xs ih =>
      intro group
      rw [foldl_cons, ih, DocumentGroup.push, append_assoc]
      rfl
  rw [hgen]
  rfl

theorem getElem?_groupsOf (key : CorrelationKey) (documents : BTreeMap RepoPath DocumentGroup) :
    (groupsOf sha256 observations)[key]? = some documents ↔
      (∃ o ∈ observations, correlationKey sha256 o = key) ∧
        documentsOf (observations.filter (fun o => correlationKey sha256 o = key)) = documents := by
  have hcollect : groupsOf sha256 observations = collect (correlationKey sha256) ∅
      (fun documents o => upsert documents o.document (fun group =>
        (group.getD .empty).push o)) observations := rfl
  rw [hcollect, getElem?_collect_eq_some]
  rfl

theorem getElem?_documentsOf (document : RepoPath) (group : DocumentGroup) :
    (documentsOf observations)[document]? = some group ↔
      (∃ o ∈ observations, o.document = document) ∧
        groupOf (observations.filter (fun o => o.document = document)) = group := by
  unfold documentsOf
  rw [getElem?_collect_eq_some, foldl_push_eq_groupOf]

theorem foldl_concat_singleton {α : Type} (xs ys : List α) :
    xs.foldl (fun acc x => acc ++ [x]) ys = ys ++ xs := by
  induction xs generalizing ys with
  | nil => rw [foldl_nil, append_nil]
  | cons x xs ih => rw [foldl_cons, ih, append_assoc]; rfl

theorem getElem?_projections (projection : Digest) (members : List Observation) :
    (groupOf observations).projections[projection]? = some members ↔
      (∃ o ∈ observations, o.projectionDigest = projection) ∧
        observations.filter (fun o => o.projectionDigest = projection) = members := by
  unfold groupOf
  rw [getElem?_collect_eq_some, foldl_concat_singleton, nil_append]

end Groups

/-- The spanning tree that links two groups. -/
def spanning (left right : List Observation) : List (Digest × Digest) :=
  match left, right with
  | leftPrimary :: _, rightPrimary :: rightRest =>
    left.map (fun o => (o.id, rightPrimary.id)) ++ rightRest.map (fun o => (leftPrimary.id, o.id))
  | _, _ => []

theorem mem_spanning {left right : List Observation} {e : Digest × Digest}
    (h : e ∈ spanning left right) : ∃ b ∈ left, ∃ c ∈ right, e = (b.id, c.id) := by
  unfold spanning at h
  split at h
  · rename_i l ls r rs
    rcases mem_append.mp h with h | h
    · rcases mem_map.mp h with ⟨b, hb, rfl⟩
      exact ⟨b, hb, r, mem_cons_self, rfl⟩
    · rcases mem_map.mp h with ⟨c, hc, rfl⟩
      exact ⟨l, mem_cons_self, c, mem_cons_of_mem _ hc, rfl⟩
  · cases h

/-- The tree connects every pair across, through the two primaries. -/
theorem connected_spanning {left right : List Observation} {b c : Observation} (hb : b ∈ left)
    (hc : c ∈ right) : Forest.Connected (spanning left right) b.id c.id := by
  have hequiv := Forest.connected_equivalence (spanning left right)
  cases left with
  | nil => cases hb
  | cons l ls =>
    cases right with
    | nil => cases hc
    | cons r rs =>
      have hleft : ∀ x ∈ l :: ls, Forest.Connected (spanning (l :: ls) (r :: rs)) x.id r.id :=
        fun x hx => Relation.EqvGen.rel _ _
          (mem_append_left _ (mem_map.mpr ⟨x, hx, rfl⟩))
      rcases mem_cons.mp hc with rfl | hc
      · exact hleft b hb
      · have hright : Forest.Connected (spanning (l :: ls) (r :: rs)) l.id c.id :=
          Relation.EqvGen.rel _ _ (mem_append_right _ (mem_map.mpr ⟨c, hc, rfl⟩))
        exact hequiv.trans (hleft b hb)
          (hequiv.trans (hequiv.symm (hleft l mem_cons_self)) hright)

/-- The edges between the groups of a renamed document. -/
def projectionEdges (baseGroup candidateGroup : DocumentGroup) : List (Digest × Digest) :=
  baseGroup.projections.toList.flatMap (fun entry =>
    candidateGroup.projections[entry.1]?.elim [] (spanning entry.2))

/-- The edges of one base document. -/
def documentEdges (renames : BTreeMap RepoPath RepoPath)
    (candidateDocuments : BTreeMap RepoPath DocumentGroup) (document : RepoPath)
    (group : DocumentGroup) : List (Digest × Digest) :=
  candidateDocuments[document]?.elim []
      (fun candidateGroup => spanning group.observations candidateGroup.observations) ++
    renames[document]?.elim [] (fun renamed =>
      candidateDocuments[renamed]?.elim [] (projectionEdges group))

/-- Every edge the code adds. -/
def candidateEdges (baseGroups candidateGroups : ObservationGroups)
    (renames : BTreeMap RepoPath RepoPath) : List (Digest × Digest) :=
  baseGroups.toList.flatMap (fun entry =>
    candidateGroups[entry.1]?.elim [] (fun candidateDocuments =>
      entry.2.toList.flatMap (fun document =>
        documentEdges renames candidateDocuments document.1 document.2)))

/-- A sequence of unions. -/
def ComponentForest.unionAll (edges : List (Digest × Digest)) (forest : ComponentForest) :
    Except ScanError ComponentForest :=
  edges.foldlM (fun forest edge => forest.union edge.1 edge.2) forest

theorem ComponentForest.unionAll_append (edges edges' : List (Digest × Digest))
    (forest : ComponentForest) :
    forest.unionAll (edges ++ edges') = forest.unionAll edges >>= unionAll edges' :=
  foldlM_append

theorem connect_eq (forest : ComponentForest) (left right : List Observation) :
    connect forest left right = forest.unionAll (spanning left right) := by
  cases left with
  | nil => rfl
  | cons leftPrimary leftRest =>
    cases right with
    | nil => rfl
    | cons rightPrimary rightRest =>
      simp [connect, spanning, ComponentForest.unionAll, foldlM_map]

theorem connectProjections_eq (baseGroup candidateGroup : DocumentGroup)
    (forest : ComponentForest) :
    connectProjections baseGroup candidateGroup forest =
      forest.unionAll (projectionEdges baseGroup candidateGroup) := by
  refine Fallible.foldlM_of_parts (fun forest entry => ?_) _ forest
  rcases entry with ⟨projection, members⟩
  simp only []
  cases candidateGroup.projections[projection]? with
  | none => rfl
  | some candidates => exact connect_eq forest members candidates

theorem connectDocument_eq (renames : BTreeMap RepoPath RepoPath)
    (candidateDocuments : BTreeMap RepoPath DocumentGroup) (forest : ComponentForest)
    (document : RepoPath) (group : DocumentGroup) :
    connectDocument renames candidateDocuments forest document group =
      forest.unionAll (documentEdges renames candidateDocuments document group) := by
  have hsame : connectSameDocument candidateDocuments document group forest =
      forest.unionAll (candidateDocuments[document]?.elim []
        (fun candidateGroup => spanning group.observations candidateGroup.observations)) := by
    unfold connectSameDocument
    cases candidateDocuments[document]? with
    | none => rfl
    | some candidateGroup => exact connect_eq _ _ _
  unfold connectDocument documentEdges
  rw [ComponentForest.unionAll_append, hsame]
  refine bind_congr (fun forest' => ?_)
  unfold connectRenamed
  cases renames[document]? with
  | none => rfl
  | some renamed =>
    simp only [Option.elim_some]
    cases candidateDocuments[renamed]? with
    | none => rfl
    | some candidateGroup => exact connectProjections_eq _ _ _

/-- The linking is the sequence of unions over its edges. -/
theorem connectCandidates_eq (forest : ComponentForest)
    (baseGroups candidateGroups : ObservationGroups) (renames : BTreeMap RepoPath RepoPath) :
    connectCandidates forest baseGroups candidateGroups renames =
      forest.unionAll (candidateEdges baseGroups candidateGroups renames) := by
  refine Fallible.foldlM_of_parts (fun forest entry => ?_) _ forest
  rcases entry with ⟨key, baseDocuments⟩
  simp only []
  cases candidateGroups[key]? with
  | none => rfl
  | some candidateDocuments =>
    exact Fallible.foldlM_of_parts (fun forest document =>
      connectDocument_eq renames candidateDocuments forest document.1 document.2) _ forest

section Edges

variable {sha256 : Bytes → Digest} {renames : BTreeMap RepoPath RepoPath}
  {bases candidates : List Observation}

variable {e : Digest × Digest}

theorem mem_elim {α : Type} {entry : Option α} {edges : α → List (Digest × Digest)} :
    e ∈ entry.elim [] edges ↔ ∃ x, entry = some x ∧ e ∈ edges x := by
  cases entry with
  | none => simp
  | some x => simp

theorem connected_of_subset {edges edges' : List (Digest × Digest)} (hsub : edges ⊆ edges')
    {i j : Digest} (h : Forest.Connected edges i j) : Forest.Connected edges' i j :=
  h.mono (fun _ _ he => hsub he)

theorem mem_projectionEdges (h : e ∈ projectionEdges (groupOf bases) (groupOf candidates)) :
    ∃ b ∈ bases, ∃ c ∈ candidates, b.projectionDigest = c.projectionDigest ∧ e = (b.id, c.id) := by
  rcases mem_flatMap.mp h with ⟨⟨projection, members⟩, hentry, h⟩
  rcases mem_elim.mp h with ⟨members', hentry', h⟩
  rcases (getElem?_projections _ _ _).mp ((mem_toList _ _ _).mp hentry) with ⟨_, rfl⟩
  rcases (getElem?_projections _ _ _).mp hentry' with ⟨_, rfl⟩
  rcases mem_spanning h with ⟨b, hb, c, hc, rfl⟩
  rw [mem_filter, decide_eq_true_eq] at hb hc
  exact ⟨b, hb.1, c, hc.1, hb.2.trans hc.2.symm, rfl⟩

variable {b c : Observation}

theorem connected_projectionEdges (hb : b ∈ bases) (hc : c ∈ candidates)
    (hproj : b.projectionDigest = c.projectionDigest) :
    Forest.Connected (projectionEdges (groupOf bases) (groupOf candidates)) b.id c.id := by
  have hbase := (getElem?_projections bases b.projectionDigest _).mpr ⟨⟨b, hb, rfl⟩, rfl⟩
  have hcand := (getElem?_projections candidates b.projectionDigest _).mpr
    ⟨⟨c, hc, hproj.symm⟩, rfl⟩
  have hb' : b ∈ bases.filter (fun o => o.projectionDigest = b.projectionDigest) :=
    mem_filter.mpr ⟨hb, decide_eq_true rfl⟩
  have hc' : c ∈ candidates.filter (fun o => o.projectionDigest = b.projectionDigest) :=
    mem_filter.mpr ⟨hc, decide_eq_true hproj.symm⟩
  refine connected_of_subset (fun e he => ?_) (connected_spanning hb' hc')
  exact mem_flatMap.mpr
    ⟨_, (mem_toList _ _ _).mpr hbase, mem_elim.mpr ⟨_, hcand, he⟩⟩

/-- The documents of plausible counterparts under one key. -/
def DocumentsMeet (renames : BTreeMap RepoPath RepoPath) (base candidate : Observation) : Prop :=
  base.document = candidate.document ∨
    (renames[base.document]? = some candidate.document ∧
      base.projectionDigest = candidate.projectionDigest)

theorem mem_documentEdges {document : RepoPath}
    (h : e ∈ documentEdges renames (documentsOf candidates) document
      (groupOf (bases.filter (fun o => o.document = document)))) :
    ∃ b ∈ bases, ∃ c ∈ candidates, DocumentsMeet renames b c ∧ e = (b.id, c.id) := by
  rcases mem_append.mp h with h | h
  · rcases mem_elim.mp h with ⟨group, hgroup, h⟩
    rcases (getElem?_documentsOf _ _ _).mp hgroup with ⟨_, rfl⟩
    rcases mem_spanning h with ⟨b, hb, c, hc, rfl⟩
    simp only [groupOf, mem_filter, decide_eq_true_eq] at hb hc
    exact ⟨b, hb.1, c, hc.1, Or.inl (hb.2.trans hc.2.symm), rfl⟩
  · rcases mem_elim.mp h with ⟨renamed, hrenamed, h⟩
    rcases mem_elim.mp h with ⟨group, hgroup, h⟩
    rcases (getElem?_documentsOf _ _ _).mp hgroup with ⟨_, rfl⟩
    rcases mem_projectionEdges h with ⟨b, hb, c, hc, hproj, rfl⟩
    rw [mem_filter, decide_eq_true_eq] at hb hc
    exact ⟨b, hb.1, c, hc.1, Or.inr ⟨by rw [hb.2, hc.2, hrenamed], hproj⟩, rfl⟩

theorem connected_documentEdges (hb : b ∈ bases) (hc : c ∈ candidates)
    (hmeet : DocumentsMeet renames b c) :
    Forest.Connected (documentEdges renames (documentsOf candidates) b.document
      (groupOf (bases.filter (fun o => o.document = b.document)))) b.id c.id := by
  have hbase : b ∈ bases.filter (fun o => o.document = b.document) :=
    mem_filter.mpr ⟨hb, decide_eq_true rfl⟩
  have hcand : c ∈ candidates.filter (fun o => o.document = c.document) :=
    mem_filter.mpr ⟨hc, decide_eq_true rfl⟩
  have hgroup := (getElem?_documentsOf candidates c.document _).mpr ⟨⟨c, hc, rfl⟩, rfl⟩
  rcases hmeet with hdoc | ⟨hrename, hproj⟩
  · refine connected_of_subset (fun e he => ?_) (connected_spanning hbase hcand)
    rw [← hdoc] at hgroup he
    exact mem_append_left _ (mem_elim.mpr ⟨_, hgroup, he⟩)
  · refine connected_of_subset (fun e he => ?_) (connected_projectionEdges hbase hcand hproj)
    exact mem_append_right _ (mem_elim.mpr ⟨_, hrename, mem_elim.mpr ⟨_, hgroup, he⟩⟩)

theorem counterparts_iff (b c : Observation) : Counterparts sha256 renames b c ↔
    correlationKey sha256 b = correlationKey sha256 c ∧ DocumentsMeet renames b c := by
  rw [correlationKey_eq_iff, Counterparts, DocumentsMeet, and_assoc, and_assoc]

/-- Every edge the code adds joins plausible counterparts. -/
theorem counterparts_of_mem_candidateEdges
    (h : e ∈ candidateEdges (groupsOf sha256 bases) (groupsOf sha256 candidates) renames) :
    ∃ b ∈ bases, ∃ c ∈ candidates, Counterparts sha256 renames b c ∧ e = (b.id, c.id) := by
  rcases mem_flatMap.mp h with ⟨⟨key, documents⟩, hentry, h⟩
  rcases mem_elim.mp h with ⟨documents', hentry', h⟩
  rcases (getElem?_groupsOf _ _ _ _).mp ((mem_toList _ _ _).mp hentry) with ⟨_, rfl⟩
  rcases (getElem?_groupsOf _ _ _ _).mp hentry' with ⟨_, rfl⟩
  rcases mem_flatMap.mp h with ⟨⟨document, group⟩, hdocument, h⟩
  rcases (getElem?_documentsOf _ _ _).mp ((mem_toList _ _ _).mp hdocument) with ⟨_, rfl⟩
  rcases mem_documentEdges h with ⟨b, hb, c, hc, hmeet, rfl⟩
  rw [mem_filter, decide_eq_true_eq] at hb hc
  exact ⟨b, hb.1, c, hc.1, (counterparts_iff b c).mpr ⟨hb.2.trans hc.2.symm, hmeet⟩, rfl⟩

/-- The edges the code adds connect plausible counterparts. -/
theorem connected_of_counterparts (hb : b ∈ bases) (hc : c ∈ candidates)
    (h : Counterparts sha256 renames b c) :
    Forest.Connected
      (candidateEdges (groupsOf sha256 bases) (groupsOf sha256 candidates) renames) b.id c.id := by
  rcases (counterparts_iff b c).mp h with ⟨hkey, hmeet⟩
  have hbase := (getElem?_groupsOf sha256 bases (correlationKey sha256 b) _).mpr
    ⟨⟨b, hb, rfl⟩, rfl⟩
  have hcand := (getElem?_groupsOf sha256 candidates (correlationKey sha256 b) _).mpr
    ⟨⟨c, hc, hkey.symm⟩, rfl⟩
  have hb' : b ∈ bases.filter (fun o => correlationKey sha256 o = correlationKey sha256 b) :=
    mem_filter.mpr ⟨hb, decide_eq_true rfl⟩
  have hdocument := (getElem?_documentsOf _ b.document _).mpr ⟨⟨b, hb', rfl⟩, rfl⟩
  have hc' : c ∈ candidates.filter (fun o => correlationKey sha256 o = correlationKey sha256 b) :=
    mem_filter.mpr ⟨hc, decide_eq_true hkey.symm⟩
  refine connected_of_subset (fun e he => ?_) (connected_documentEdges hb' hc' hmeet)
  exact mem_flatMap.mpr ⟨_, (mem_toList _ _ _).mpr hbase, mem_elim.mpr ⟨_, hcand,
    mem_flatMap.mpr ⟨_, (mem_toList _ _ _).mpr hdocument, he⟩⟩⟩

end Edges

end Amiss
