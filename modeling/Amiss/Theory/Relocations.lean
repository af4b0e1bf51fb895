import Amiss.Core.Relocations
import Amiss.Base.Reading
import Amiss.Theory.Path

/-!
# Where Directories Went

A removed directory is paired by its content alone. The code guesses the added
directories from the paths that hold the first file and compares ranges of the
ordered entries; here both are read as what they mean. A range below a directory
is a run of neighbours, because a path that lies between two paths with one
beginning has that beginning too, and two directories with the same files list
them in the same order. So a guess that is confirmed is a directory with the
same files, and every such directory is guessed.

A directory without files has nothing to be guessed from, so it is never paired.
Trees do not count as files: a directory is absent where neither an entry nor a
file below it is there, and two directories that differ in empty subtrees only
hold the same files.

## Main definitions

* `HoldsFile`: A directory holds a file.
* `Absent`: The entries hold nothing at a path.
* `SameFiles`: Two directories hold the same files.
* `Counterpart`: An added directory with the files of a removed one.

## Theorems

* `mem_beneath`: What a range lists.
* `beneath_eq_iff`: Equal ranges are equal contents.
* `directoryPairs_iff_and_injective`: Which directories are paired.
-/

namespace Amiss

open Prod

open Std.ExtTreeMap

open List

/-! ### Ranges -/

/-- A directory holds a file under a relative path. -/
def HoldsFile (entries : Entries) (directory rest : Bytes) (identity : GitMode × Oid) : Prop :=
  ∃ path : RepoPath, path.bytes = directory ++ 47 :: rest ∧ entries[path]? = some identity ∧
    identity.1 ≠ .tree

/-- The entry below a directory, relative to it. -/
def relative (under : Bytes) (entry : RepoPath × (GitMode × Oid)) :
    Option (Bytes × (GitMode × Oid)) :=
  (under.isPrefixOf? entry.1.bytes).map (fun rest => (rest, entry.2))

variable {under : Bytes}

theorem relative_eq_some {entry : RepoPath × (GitMode × Oid)} {file : Bytes × (GitMode × Oid)} :
    relative under entry = some file ↔ under ++ file.1 = entry.1.bytes ∧ entry.2 = file.2 := by
  unfold relative
  simp only [Option.map_eq_some_iff, isPrefixOf?_eq_some_iff_append_eq]
  constructor
  · rintro ⟨rest, hrest, rfl⟩
    exact ⟨hrest, rfl⟩
  · rintro ⟨hrest, hsame⟩
    exact ⟨file.1, hrest, Prod.ext rfl hsame⟩

theorem relative_eq_none {entry : RepoPath × (GitMode × Oid)} :
    relative under entry = none ↔ ¬ under <+: entry.1.bytes := by
  rw [Option.eq_none_iff_forall_ne_some]
  simp only [ne_eq, relative_eq_some, not_and]
  constructor
  · rintro h ⟨rest, hrest⟩
    exact h (rest, entry.2) hrest rfl
  · intro h file hfile _
    exact h ⟨file.1, hfile⟩

theorem spellingOf_isPrefix {left right : Bytes} :
    spellingOf left <+: spellingOf right ↔ left <+: right := by
  constructor
  · intro hspelled
    have htaken := prefix_iff_eq_take.mp hspelled
    rw [spellingOf, spellingOf, length_map, ← map_take] at htaken
    rw [spellingOf_injective htaken]
    exact take_prefix _ _
  · rintro ⟨rest, rfl⟩
    rw [spellingOf_append]
    exact prefix_append _ _

/-- A path between a beginning and a path that has it, has it too. -/
theorem isPrefix_of_between {path last : Bytes} (hlow : ¬ spellingOf path < spellingOf under)
    (hhigh : spellingOf path < spellingOf last) (hlast : under <+: last) : under <+: path := by
  by_contra hbegins
  rcases hlast with ⟨rest, rfl⟩
  have hne : spellingOf under ≠ spellingOf path := by
    intro hsame
    exact hbegins (spellingOf_injective hsame ▸ prefix_refl _)
  have hlt : spellingOf under < spellingOf path := lt_of_le_of_ne (not_lt.mp hlow) hne
  have hafter := lt_append_of_not_isPrefix hlt (fun h => hbegins (spellingOf_isPrefix.mp h))
    (spellingOf rest) []
  rw [append_nil, ← spellingOf_append] at hafter
  exact absurd hhigh (not_lt_of_gt hafter)

/-- What is smaller than a beginning does not have it. -/
theorem not_isPrefix_of_lt {path : Bytes} (hlt : spellingOf path < spellingOf under) :
    ¬ under <+: path := by
  rintro ⟨rest, rfl⟩
  cases rest with
  | nil =>
    rw [append_nil] at hlt
    exact absurd hlt (lt_irrefl _)
  | cons byte rest =>
    have hmore : spellingOf under < spellingOf under ++ spellingOf (byte :: rest) :=
      lt_append_of_ne_nil _ (cons_ne_nil _ _)
    rw [← spellingOf_append] at hmore
    exact absurd hlt (not_lt_of_gt hmore)

theorem toList_spelling_lt (entries : Entries) :
    entries.toList.Pairwise (fun entry entry' => entry.1.spelling < entry'.1.spelling) := by
  have hkeys := keys_pairwise_lt entries
  rw [← map_fst_toList_eq_keys, pairwise_map] at hkeys
  exact hkeys

/-- The range of a directory lists every entry below it. -/
theorem beneath_eq_filterMap (entries : Entries) (directory : Bytes) :
    beneath entries directory =
      (entries.toList.filterMap (relative (directory ++ [47]))).filter
        (fun file => file.2.1 ≠ .tree) := by
  unfold beneath
  refine congrArg (List.filter _) ?_
  generalize directory ++ [47] = under
  have hsorted := (toList_spelling_lt entries).sublist
    (dropWhile_sublist (fun entry => entry.1.spelling < spellingOf under))
  have hreached : ∀ entry ∈ entries.toList.dropWhile
      (fun entry => entry.1.spelling < spellingOf under), spellingOf under ≤ entry.1.spelling :=
    le_of_mem_dropWhile (fun entry => decide_eq_true_iff) (toList_spelling_lt entries)
  have hends : (entries.toList.dropWhile
      (fun entry => entry.1.spelling < spellingOf under)).Pairwise
      (fun entry entry' => relative under entry = none → relative under entry' = none) := by
    refine hsorted.imp_of_mem ?_
    intro entry entry' hentry _ hlt hnone
    rw [relative_eq_none] at hnone ⊢
    intro hlast
    exact hnone (isPrefix_of_between (not_lt_of_ge (hreached entry hentry)) hlt hlast)
  have hskip : ∀ entry : RepoPath × (GitMode × Oid),
      decide (entry.1.spelling < spellingOf under) = true → relative under entry = none := by
    intro entry hlt
    exact relative_eq_none.mpr (not_isPrefix_of_lt (of_decide_eq_true hlt))
  exact (mapWhile_eq_filterMap hends).trans (filterMap_dropWhile hskip _)

variable {directory : Bytes} {identity : GitMode × Oid}

theorem mem_beneath {entries : Entries} {rest : Bytes} :
    (rest, identity) ∈ beneath entries directory ↔ HoldsFile entries directory rest identity := by
  rw [beneath_eq_filterMap]
  simp only [mem_filter, mem_filterMap, relative_eq_some, decide_eq_true_eq, Prod.exists,
    mem_toList]
  constructor
  · rintro ⟨⟨path, mode, oid, hheld, hpath, rfl⟩, hfile⟩
    exact ⟨path, by rw [← hpath, append_assoc]; rfl, hheld, hfile⟩
  · rintro ⟨path, hpath, hheld, hfile⟩
    exact ⟨⟨path, identity.1, identity.2, hheld, by rw [hpath, append_assoc]; rfl, rfl⟩, hfile⟩

/-- A range is in the order of the relative paths. -/
theorem beneath_strict (entries : Entries) (directory : Bytes) :
    ((beneath entries directory).map (fun file => spellingOf file.1)).Pairwise (· < ·) := by
  rw [beneath_eq_filterMap, pairwise_map]
  refine List.Pairwise.filter _ (pairwise_filterMap.mpr
    ((toList_spelling_lt entries).imp ?_))
  intro entry entry' hlt file hfile file' hfile'
  rw [relative_eq_some] at hfile hfile'
  have hspelled : spellingOf entry.1.bytes < spellingOf entry'.1.bytes := hlt
  rw [← hfile.1, ← hfile'.1, spellingOf_append _ file.1, spellingOf_append _ file'.1] at hspelled
  exact lt_of_append_lt hspelled

/-! ### What the tests mean -/

/-- The entries hold nothing at a path: neither an entry nor a file below. -/
def Absent (entries : Entries) (path : Bytes) : Prop :=
  (∀ entry : RepoPath, entry.bytes = path → entry ∉ entries) ∧
    ∀ rest identity, ¬ HoldsFile entries path rest identity

/-- Two directories hold the same files. -/
def SameFiles (entries : Entries) (directory : Bytes) (entries' : Entries) (directory' : Bytes) :
    Prop :=
  ∀ rest identity,
    HoldsFile entries directory rest identity ↔ HoldsFile entries' directory' rest identity

theorem absentAt_iff {entries : Entries} {path : Bytes} :
    absentAt entries path = true ↔ Absent entries path := by
  unfold absentAt Absent atBytes
  rw [Bool.and_eq_true, Option.isNone_iff_eq_none, List.isEmpty_iff, Option.bind_eq_none_iff]
  refine and_congr ?_ ?_
  · refine forall_congr' (fun entry => ?_)
    rw [fromBytes_eq_some, mem_iff_isSome_getElem?, Option.not_isSome_iff_eq_none]
  · rw [List.eq_nil_iff_forall_not_mem]
    simp [← mem_beneath]

theorem beneath_eq_iff {entries entries' : Entries} {directory' : Bytes} :
    beneath entries directory = beneath entries' directory' ↔
      SameFiles entries directory entries' directory' := by
  constructor
  · intro h rest identity
    rw [← mem_beneath, ← mem_beneath, h]
  intro h
  have hnodup : ∀ (held : Entries) (root : Bytes), (beneath held root).Nodup :=
    fun held root => List.Nodup.of_map _ ((beneath_strict held root).imp ne_of_lt)
  refine sortedBy_eq_of_perm (fun file => spellingOf file.1) ?_ (beneath_strict _ _)
    (beneath_strict _ _)
  refine (perm_ext_iff_of_nodup (hnodup _ _) (hnodup _ _)).mpr (fun file => ?_)
  rcases file with ⟨rest, identity⟩
  rw [mem_beneath, mem_beneath, h rest identity]

/-! ### Collected paths -/

variable {base : Entries} {tree : Oid} {path : RepoPath}

theorem mem_directoriesByTree :
    path ∈ ((directoriesByTree base)[tree]?).getD [] ↔ base[path]? = some (.tree, tree) := by
  unfold directoriesByTree
  rw [getD_collect_concat]
  simp only [mem_map, mem_filter, Prod.exists, mem_toList, decide_eq_true_eq]
  constructor
  · rintro ⟨_, mode, oid, ⟨⟨hheld, rfl⟩, rfl⟩, rfl⟩
    exact hheld
  · intro hheld
    exact ⟨path, .tree, tree, ⟨⟨hheld, rfl⟩, rfl⟩, rfl⟩

theorem nodup_paths (entries : Entries) : (entries.toList.map fst).Nodup := by
  rw [map_fst_toList_eq_keys]
  exact nodup_keys

theorem nodup_directoriesByTree (base : Entries) (tree : Oid) :
    (((directoriesByTree base)[tree]?).getD []).Nodup := by
  unfold directoriesByTree
  rw [getD_collect_concat]
  exact (nodup_paths base).sublist (((filter_sublist).trans filter_sublist).map _)

variable {candidate : Entries}

theorem mem_holders :
    path ∈ ((holders candidate)[(toLex identity : GitMode ×ₗ Oid)]?).getD [] ↔
      candidate[path]? = some identity := by
  unfold holders
  rw [getD_collect_concat (fun entry : RepoPath × (GitMode × Oid) => toLex entry.2) fst]
  simp only [mem_map, mem_filter, decide_eq_true_eq, EmbeddingLike.apply_eq_iff_eq]
  constructor
  · rintro ⟨entry, ⟨hheld, rfl⟩, rfl⟩
    exact (mem_toList candidate entry.1 entry.2).mp hheld
  · intro hheld
    exact ⟨(path, identity), ⟨(mem_toList candidate path identity).mpr hheld, rfl⟩, rfl⟩

theorem nodup_holders (candidate : Entries) (identity : GitMode × Oid) :
    (((holders candidate)[(toLex identity : GitMode ×ₗ Oid)]?).getD []).Nodup := by
  unfold holders
  rw [getD_collect_concat (fun entry : RepoPath × (GitMode × Oid) => toLex entry.2) fst]
  exact (nodup_paths candidate).sublist (filter_sublist.map _)

/-! ### Added directories -/

/-- The guess from one path: what stands before the first file. -/
theorem stem_eq_some {first stem : Bytes} :
    ((first.isSuffixOf? path.bytes).bind (fun stem => ([47] : Bytes).isSuffixOf? stem)) =
      some stem ↔ path.bytes = stem ++ 47 :: first := by
  simp only [Option.bind_eq_some_iff, isSuffixOf?_eq_some_iff_append_eq]
  constructor
  · rintro ⟨_, hpath, rfl⟩
    rw [← hpath, append_assoc]
    rfl
  · intro hpath
    exact ⟨stem ++ [47], by rw [hpath, append_assoc]; rfl, rfl⟩

/-- Every directory with the files is guessed, and only such ones are kept. -/
theorem mem_addedDirectories {first : Bytes} (hfirst : HoldsFile base directory first identity)
    {stem : Bytes} :
    stem ∈ addedDirectories base candidate (beneath base directory) first identity ↔
      Absent base stem ∧ SameFiles base directory candidate stem := by
  unfold addedDirectories
  simp only [mem_filter, mem_filterMap, mem_holders, stem_eq_some, Bool.and_eq_true,
    absentAt_iff, decide_eq_true_eq]
  rw [eq_comm, beneath_eq_iff]
  refine ⟨fun h => h.2, fun h => ⟨?_, h⟩⟩
  rcases (h.2 first identity).mp hfirst with ⟨path, hpath, hheld, _⟩
  exact ⟨path, hheld, hpath⟩

theorem nodup_addedDirectories (base candidate : Entries) (files : List (Bytes × (GitMode × Oid)))
    (first : Bytes) (identity : GitMode × Oid) :
    (addedDirectories base candidate files first identity).Nodup := by
  unfold addedDirectories
  refine List.Nodup.filter _ (List.Nodup.filterMap ?_ (nodup_holders candidate identity))
  intro path path' stem hstem hstem'
  rw [Option.mem_def, stem_eq_some] at hstem hstem'
  exact RepoPath.spelling_injective (congrArg spellingOf (hstem.trans hstem'.symm))

/-! ### Pairs -/

/-- An added directory that holds exactly the files of a removed one. -/
def Counterpart (base candidate : Entries) (directory moved : RepoPath) : Prop :=
  Absent base moved.bytes ∧ SameFiles base directory.bytes candidate moved.bytes

/-- No other removed directory has the tree. -/
def SoleRemoved (base candidate : Entries) (directory : RepoPath) (tree : Oid) : Prop :=
  ∀ other : RepoPath, base[other]? = some (.tree, tree) → Absent candidate other.bytes →
    other = directory

theorem HoldsFile.fromBytes {entries : Entries} {rest : Bytes}
    (h : HoldsFile entries directory rest identity) :
    ∃ path : RepoPath, RepoPath.fromBytes directory = some path ∧ path.bytes = directory := by
  rcases h with ⟨path, hpath, _⟩
  have hvalid : pathBytesValid directory = true :=
    pathBytesValid_above (hpath ▸ path.valid)
  exact ⟨⟨directory, hvalid⟩, fromBytes_eq_some.mpr rfl, rfl⟩

/-- The tree of a directory. -/
def treeAt (base : Entries) (path : RepoPath) : Option Oid :=
  (base[path]?.filter (fun entry => entry.1 = .tree)).map Prod.snd

theorem treeAt_eq_some : treeAt base path = some tree ↔ base[path]? = some (.tree, tree) := by
  unfold treeAt
  simp only [Option.map_eq_some_iff, Option.filter_eq_some_iff, decide_eq_true_eq, Prod.exists]
  constructor
  · rintro ⟨_, _, ⟨hheld, rfl⟩, rfl⟩
    exact hheld
  · intro hheld
    exact ⟨.tree, tree, ⟨hheld, rfl⟩, rfl⟩

theorem removed_length_eq_one_iff {directory : RepoPath}
    (htree : base[directory]? = some (.tree, tree)) (habsent : Absent candidate directory.bytes) :
    ((((directoriesByTree base)[tree]?).getD []).filter
      (fun path => absentAt candidate path.bytes)).length = 1 ↔
        SoleRemoved base candidate directory tree := by
  have hremoved : ∀ other, other ∈ (((directoriesByTree base)[tree]?).getD []).filter
      (fun path => absentAt candidate path.bytes) ↔
        base[other]? = some (.tree, tree) ∧ Absent candidate other.bytes := by
    intro other
    rw [mem_filter, mem_directoriesByTree, absentAt_iff]
  rw [length_eq_one_iff]
  constructor
  · rintro ⟨sole, hsole⟩ other hother hgone
    simp only [hsole, mem_singleton] at hremoved
    rw [(hremoved other).mpr ⟨hother, hgone⟩, (hremoved directory).mpr ⟨htree, habsent⟩]
  · intro hsole
    refine ⟨directory, (filter_eq_singleton_iff (nodup_directoriesByTree base tree)).mpr
      ⟨mem_filter.mp ((hremoved directory).mpr ⟨htree, habsent⟩), fun other hother hgone => ?_⟩⟩
    exact hsole other (mem_directoriesByTree.mp hother) (absentAt_iff.mp hgone)

variable {moved : RepoPath}

theorem soleMove_eq_some {removed : List RepoPath} {added : List Bytes} :
    soleMove removed added = some moved ↔ removed.length = 1 ∧ added = [moved.bytes] := by
  rcases removed with _ | ⟨sole, _ | ⟨second, removed⟩⟩
  · simp [soleMove]
  · rcases added with _ | ⟨stem, _ | ⟨second, added⟩⟩
    · simp [soleMove]
    · rw [soleMove, fromBytes_eq_some, length_singleton, eq_comm]
      simp
    · simp [soleMove]
  · simp only [soleMove, reduceCtorEq, length_cons, false_iff, not_and]
    intro h
    omega

theorem directoryPair_eq_some {directory : RepoPath}
    (htree : base[directory]? = some (.tree, tree)) (habsent : Absent candidate directory.bytes) :
    directoryPair base candidate directory tree = some moved ↔
      (∃ rest identity, HoldsFile base directory.bytes rest identity) ∧
        SoleRemoved base candidate directory tree ∧
        Counterpart base candidate directory moved ∧
        ∀ rival, Counterpart base candidate directory rival → rival = moved := by
  cases hfiles : beneath base directory.bytes with
  | nil =>
    simp only [directoryPair, hfiles, reduceCtorEq, false_iff, not_and]
    rintro ⟨rest, identity, hheld⟩
    rw [← mem_beneath, hfiles] at hheld
    cases hheld
  | cons file files =>
    rcases file with ⟨first, identity⟩
    have hfirst : HoldsFile base directory.bytes first identity := by
      rw [← mem_beneath, hfiles]
      exact mem_cons_self
    have hmem : ∀ stem, stem ∈ addedDirectories base candidate (beneath base directory.bytes)
        first identity ↔ Absent base stem ∧ SameFiles base directory.bytes candidate stem :=
      fun stem => mem_addedDirectories hfirst
    simp only [directoryPair, hfiles, soleMove_eq_some, removed_length_eq_one_iff htree habsent]
    have hheld : ∃ rest identity, HoldsFile base directory.bytes rest identity :=
      ⟨first, identity, hfirst⟩
    rw [← hfiles, and_iff_right hheld]
    refine and_congr_right (fun _ => ?_)
    rw [← perm_singleton, perm_ext_iff_of_nodup (nodup_addedDirectories _ _ _ _ _)
      (nodup_singleton _)]
    simp only [hmem, mem_singleton]
    constructor
    · intro h
      refine ⟨(h moved.bytes).mpr rfl, fun rival hrival => ?_⟩
      exact RepoPath.spelling_injective (congrArg spellingOf ((h rival.bytes).mp hrival))
    · rintro ⟨hcounterpart, hsole⟩ stem
      refine ⟨fun hstem => ?_, fun hstem => hstem ▸ hcounterpart⟩
      -- A directory with the files is a path, so it is one of the rivals.
      rcases ((hstem.2 first identity).mp hfirst).fromBytes with ⟨path, _, rfl⟩
      rw [hsole path hstem]

theorem getElem?_missingDirectories {missing : List RepoPath} :
    (missingDirectories base missing)[path]? = some tree ↔
      path ∈ missing ∧ base[path]? = some (.tree, tree) := by
  unfold missingDirectories
  rw [getElem?_foldl_of_insert id (treeAt base)]
  · simp [treeAt_eq_some]
  · intro directories path
    unfold treeAt
    rcases (base[path]? : Option (GitMode × Oid)) with _ | ⟨mode, oid⟩
    · rfl
    · cases mode <;> rfl
  · rintro path _ path' _ rfl
    rfl

/-- Which directories are paired. -/
theorem getElem?_directoryPairs {missing : List RepoPath} {directory : RepoPath}
    (hmissing : ∀ path ∈ missing, Absent candidate path.bytes) :
    (directoryPairs base candidate missing)[directory]? = some moved ↔
      directory ∈ missing ∧ ∃ tree, base[directory]? = some (.tree, tree) ∧
        (∃ rest identity, HoldsFile base directory.bytes rest identity) ∧
        SoleRemoved base candidate directory tree ∧
        Counterpart base candidate directory moved ∧
        ∀ rival, Counterpart base candidate directory rival → rival = moved := by
  unfold directoryPairs
  rw [getElem?_foldl_of_insert fst (fun directory : RepoPath × Oid =>
    directoryPair base candidate directory.1 directory.2)]
  · constructor
    · rintro ⟨⟨_, tree⟩, hheld, rfl, hpair⟩
      rcases getElem?_missingDirectories.mp ((mem_toList _ _ _).mp hheld) with ⟨hin, htree⟩
      exact ⟨hin, tree, htree, (directoryPair_eq_some htree (hmissing _ hin)).mp hpair⟩
    · rintro ⟨hin, tree, htree, hpair⟩
      have hheld := getElem?_missingDirectories.mpr ⟨hin, htree⟩
      exact ⟨(directory, tree), (mem_toList _ _ _).mpr hheld, rfl,
        (directoryPair_eq_some htree (hmissing _ hin)).mpr hpair⟩
  · intro pairs directory
    cases directoryPair base candidate directory.1 directory.2 <;> rfl
  · rintro ⟨path, tree⟩ hpair ⟨_, tree'⟩ hpair' rfl
    rw [mem_toList] at hpair hpair'
    rw [Option.some.inj (hpair.symm.trans hpair')]

/-- A removed directory is paired when it holds a file, no other removed one has
    its tree and one added directory holds exactly its files. Where the files of
    a directory determine its tree, no two are paired with one. -/
theorem directoryPairs_iff_and_injective (base candidate : Entries) (missing : List RepoPath)
    (hmissing : ∀ path ∈ missing, Absent candidate path.bytes) :
    (∀ directory moved : RepoPath,
      (directoryPairs base candidate missing)[directory]? = some moved ↔
        directory ∈ missing ∧ ∃ tree, base[directory]? = some (.tree, tree) ∧
          (∃ rest identity, HoldsFile base directory.bytes rest identity) ∧
          SoleRemoved base candidate directory tree ∧
          Counterpart base candidate directory moved ∧
          ∀ rival, Counterpart base candidate directory rival → rival = moved) ∧
    ((∀ (directory other : RepoPath) (tree tree' : Oid), base[directory]? = some (.tree, tree) →
        base[other]? = some (.tree, tree') → SameFiles base directory.bytes base other.bytes →
          tree = tree') →
      ∀ directory other moved : RepoPath,
        (directoryPairs base candidate missing)[directory]? = some moved →
          (directoryPairs base candidate missing)[other]? = some moved → directory = other) := by
  refine ⟨fun _ _ => getElem?_directoryPairs hmissing,
    fun hidentify directory other moved hdirectory hother => ?_⟩
  rw [getElem?_directoryPairs hmissing] at hdirectory hother
  rcases hdirectory with ⟨hin, tree, htree, _, _, hcounterpart, _⟩
  rcases hother with ⟨_, tree', htree', _, hsole, hcounterpart', _⟩
  -- Both hold the files of the added directory, so they have one tree.
  have hsame : SameFiles base directory.bytes base other.bytes := fun rest identity =>
    (hcounterpart.2 rest identity).trans (hcounterpart'.2 rest identity).symm
  have htrees := hidentify directory other tree tree' htree htree' hsame
  subst htrees
  exact hsole directory htree (hmissing directory hin)

/-! ### Entries that are no files -/

/-- The entries hold a path as an entry or as a directory of some entry. -/
def HeldBy (entries : Entries) (path : Bytes) : Prop :=
  ∃ entry : RepoPath, entry ∈ entries ∧ Under path entry.bytes

/-- A path is a directory of the entries: a tree, or what stands above an
    entry. -/
def DirectoryIn (entries : Entries) (path : RepoPath) : Prop :=
  (∃ tree, entries[path]? = some (.tree, tree)) ∨
    ∃ entry : RepoPath, entry ∈ entries ∧ path.bytes ++ [47] <+: entry.bytes

/-- An added directory with the same files, over entries of every mode. -/
def CounterpartByEntries (base candidate : Entries) (directory moved : RepoPath) : Prop :=
  DirectoryIn candidate moved ∧ ¬ HeldBy base moved.bytes ∧
    SameFiles base directory.bytes candidate moved.bytes

/-- The pairing if trees counted like files. -/
def PairsByEntries (base candidate : Entries) (missing : List RepoPath) : Prop :=
  ∀ directory moved : RepoPath,
    (directoryPairs base candidate missing)[directory]? = some moved ↔
      directory ∈ missing ∧ ∃ tree, base[directory]? = some (.tree, tree) ∧
        (∀ other : RepoPath, base[other]? = some (.tree, tree) → ¬ HeldBy candidate other.bytes →
          other = directory) ∧
        CounterpartByEntries base candidate directory moved ∧
        ∀ rival, CounterpartByEntries base candidate directory rival → rival = moved

/-- Trees with one identity have the same entries, and the other way round. -/
def TreesIdentify (base : Entries) : Prop :=
  ∀ (directory other : RepoPath) (tree tree' : Oid), base[directory]? = some (.tree, tree) →
    base[other]? = some (.tree, tree') →
      (tree = tree' ↔ ∀ (rest : Bytes) (identity : GitMode × Oid),
        (∃ path : RepoPath, path.bytes = directory.bytes ++ 47 :: rest ∧
          base[path]? = some identity) ↔
        ∃ path : RepoPath, path.bytes = other.bytes ++ 47 :: rest ∧ base[path]? = some identity)

/-! ### Samples -/

namespace Moved

def oid (digit : Char) (h : oidHex .sha1 (String.ofList (List.replicate 40 digit)) = true) : Oid :=
  ⟨.sha1, String.ofList (List.replicate 40 digit), h⟩

theorem oidHex_ones : oidHex .sha1 (String.ofList (List.replicate 40 '1')) = true := by decide

theorem oidHex_twos : oidHex .sha1 (String.ofList (List.replicate 40 '2')) = true := by decide

theorem oidHex_threes : oidHex .sha1 (String.ofList (List.replicate 40 '3')) = true := by decide

theorem oidHex_fours : oidHex .sha1 (String.ofList (List.replicate 40 '4')) = true := by decide

/-- Three trees and a file. -/
def outer : GitMode × Oid := (.tree, oid '1' oidHex_ones)

def inner : GitMode × Oid := (.tree, oid '2' oidHex_twos)

def plain : GitMode × Oid := (.tree, oid '3' oidHex_threes)

def file : GitMode × Oid := (.regularFile, oid '4' oidHex_fours)

theorem pathBytesValid_c : pathBytesValid [99] = true := by decide

theorem pathBytesValid_a_f : pathBytesValid [97, 47, 102] = true := by decide

theorem pathBytesValid_b_f : pathBytesValid [98, 47, 102] = true := by decide

theorem pathBytesValid_c_f : pathBytesValid [99, 47, 102] = true := by decide

theorem pathBytesValid_a_s : pathBytesValid [97, 47, 115] = true := by decide

theorem pathBytesValid_b_s : pathBytesValid [98, 47, 115] = true := by decide

/-- The directories `a`, `b` and `c`, a file `f` and a directory `s` in them. -/
def a : RepoPath := ⟨[97], pathBytesValid_a⟩

def b : RepoPath := ⟨[98], pathBytesValid_b⟩

def c : RepoPath := ⟨[99], pathBytesValid_c⟩

def af : RepoPath := ⟨[97, 47, 102], pathBytesValid_a_f⟩

def bf : RepoPath := ⟨[98, 47, 102], pathBytesValid_b_f⟩

def cf : RepoPath := ⟨[99, 47, 102], pathBytesValid_c_f⟩

def as : RepoPath := ⟨[97, 47, 115], pathBytesValid_a_s⟩

def bs : RepoPath := ⟨[98, 47, 115], pathBytesValid_b_s⟩

/-- A map of the pairs. -/
def entries (pairs : List (RepoPath × (GitMode × Oid))) : Entries :=
  pairs.foldl (fun held pair => held.insert pair.1 pair.2) ∅

/-- An empty directory that moved. -/
def emptyBase : Entries := entries [(a, outer)]

def emptyCandidate : Entries := entries [(b, outer)]

/-- Two directories with one tree, the second of which keeps a subtree. -/
def twinBase : Entries := entries [(a, outer), (af, file), (b, outer), (bf, file)]

def twinCandidate : Entries := entries [(cf, file), (bs, inner)]

/-- Two directories that differ in an empty subtree. -/
def nearPairs : List (RepoPath × (GitMode × Oid)) :=
  [(a, outer), (af, file), (as, inner), (b, plain), (bf, file)]

def nearBase : Entries := entries nearPairs

def nearCandidate : Entries := entries [(cf, file)]

variable {pairs : List (RepoPath × (GitMode × Oid))} {path : RepoPath}

theorem eq_of_bytes {other : RepoPath} (h : path.bytes = other.bytes) : path = other :=
  RepoPath.spelling_injective (congrArg spellingOf h)

section

variable (hfun : ∀ pair ∈ pairs, ∀ pair' ∈ pairs, pair.1 = pair'.1 → pair.2 = pair'.2)

include hfun

theorem getElem?_entries {identity : GitMode × Oid} :
    (entries pairs)[path]? = some identity ↔ (path, identity) ∈ pairs :=
  getElem?_foldl_insert_pairs hfun

theorem mem_entries : path ∈ entries pairs ↔ ∃ identity, (path, identity) ∈ pairs := by
  rw [mem_iff_isSome_getElem?, Option.isSome_iff_exists]
  simp only [getElem?_entries hfun]

/-- What no pair lies at or below is not held. -/
theorem not_heldBy_entries {path : Bytes}
    (hclear : ∀ pair ∈ pairs, ¬ (path = pair.1.bytes ∨ path ++ [47] <+: pair.1.bytes)) :
    ¬ HeldBy (entries pairs) path := by
  rintro ⟨entry, hentry, hunder⟩
  rcases (mem_entries hfun).mp hentry with ⟨identity, hpair⟩
  exact hclear (entry, identity) hpair hunder

/-- The one directory above the sole file of the candidate. -/
theorem eq_c_of_holdsFile
    (hsole : ∀ pair ∈ pairs, pair.2 = file → pair.1 = cf) {rival : RepoPath}
    (hheld : HoldsFile (entries pairs) rival.bytes [102] file) : rival = c := by
  rcases hheld with ⟨path, hpath, hfile, _⟩
  have hcf : path = cf := hsole _ ((getElem?_entries hfun).mp hfile) rfl
  rw [hcf] at hpath
  have hbytes : [99] ++ 47 :: [102] = rival.bytes ++ 47 :: [102] := hpath
  exact eq_of_bytes (append_cancel_right hbytes).symm

/-- The relative entries of a directory, computed. -/
theorem exists_below_iff
    {directory rest : Bytes} {identity : GitMode × Oid} :
    (∃ path : RepoPath, path.bytes = directory ++ 47 :: rest ∧
      (entries pairs)[path]? = some identity) ↔
        (rest, identity) ∈ pairs.filterMap (relative (directory ++ [47])) := by
  simp only [getElem?_entries hfun, mem_filterMap, relative_eq_some]
  constructor
  · rintro ⟨path, hpath, hpair⟩
    exact ⟨(path, identity), hpair, by rw [hpath, append_assoc]; rfl, rfl⟩
  · rintro ⟨pair, hpair, hpath, rfl⟩
    exact ⟨pair.1, by rw [← hpath, append_assoc]; rfl, hpair⟩

end

theorem emptyBase_not_paired : ¬ PairsByEntries emptyBase emptyCandidate [a] := by
  intro hpairs
  have hnone : (directoryPairs emptyBase emptyCandidate [a])[a]? ≠ some b := by decide +kernel
  refine hnone ((hpairs a b).mpr ⟨mem_singleton.mpr rfl, outer.2, ?_, ?_, ⟨?_, ?_, ?_⟩, ?_⟩)
  · exact (getElem?_entries (by decide)).mpr (mem_singleton.mpr rfl)
  · intro other hother _
    exact congrArg fst (mem_singleton.mp ((getElem?_entries (by decide)).mp hother))
  · exact .inl ⟨outer.2, (getElem?_entries (by decide)).mpr (mem_singleton.mpr rfl)⟩
  · exact not_heldBy_entries (by decide) (by decide)
  · exact beneath_eq_iff.mp (by decide +kernel)
  rintro rival ⟨⟨tree, htree⟩ | ⟨entry, hentry, habove⟩, _, _⟩
  · exact congrArg fst (mem_singleton.mp ((getElem?_entries (by decide)).mp htree))
  · -- Nothing stands above a path of one byte.
    rcases (mem_entries (by decide)).mp hentry with ⟨identity, hpair⟩
    have hb : entry = b := congrArg fst (mem_singleton.mp hpair)
    have hlength := habove.length_le
    rw [hb, length_append] at hlength
    have hnil : rival.bytes = [] := eq_nil_of_length_eq_zero (by
      have : b.bytes.length = 1 := rfl
      rw [this, length_singleton] at hlength
      omega)
    have hvalid := rival.valid
    rw [hnil] at hvalid
    exact absurd hvalid (by decide)

theorem twinBase_not_paired : ¬ PairsByEntries twinBase twinCandidate [a] := by
  intro hpairs
  have hnone : (directoryPairs twinBase twinCandidate [a])[a]? ≠ some c := by decide +kernel
  refine hnone ((hpairs a c).mpr ⟨mem_singleton.mpr rfl, outer.2, ?_, ?_, ⟨?_, ?_, ?_⟩, ?_⟩)
  · exact (getElem?_entries (by decide)).mpr (by decide)
  · intro other hother hgone
    have hpair := (getElem?_entries (by decide)).mp hother
    rcases mem_cons.mp hpair with h | hpair
    · exact congrArg Prod.fst h
    · -- The other directory with the tree is `b`, and the candidate keeps `b/s`.
      have hb : other = b := by
        simp only [mem_cons, Prod.mk.injEq, not_mem_nil, or_false] at hpair
        rcases hpair with ⟨_, h⟩ | ⟨h, _⟩ | ⟨_, h⟩
        · exact absurd h (by decide)
        · exact h
        · exact absurd h (by decide)
      refine absurd ?_ hgone
      rw [hb]
      exact ⟨bs, (mem_entries (by decide)).mpr ⟨inner, by decide⟩, by unfold Under; decide⟩
  · exact .inr ⟨cf, (mem_entries (by decide)).mpr ⟨file, by decide⟩, by decide⟩
  · exact not_heldBy_entries (by decide) (by decide)
  · exact beneath_eq_iff.mp (by decide +kernel)
  · rintro rival ⟨_, _, hsame⟩
    have hheld : HoldsFile twinBase a.bytes [102] file := mem_beneath.mp (by decide +kernel)
    exact eq_c_of_holdsFile (by decide) (by decide) ((hsame [102] file).mp hheld)

/-- The three trees differ, and so do the entries below them. -/
theorem nearPairs_apart : ∀ pair ∈ nearPairs, ∀ pair' ∈ nearPairs, pair.2.1 = .tree →
    pair'.2.1 = .tree → (pair.2.2 = pair'.2.2 → pair.1 = pair'.1) ∧
      ((∀ entry ∈ nearPairs.filterMap (relative (pair.1.bytes ++ [47])),
          entry ∈ nearPairs.filterMap (relative (pair'.1.bytes ++ [47]))) →
        (∀ entry ∈ nearPairs.filterMap (relative (pair'.1.bytes ++ [47])),
          entry ∈ nearPairs.filterMap (relative (pair.1.bytes ++ [47]))) →
          pair.1 = pair'.1) := by
  decide +kernel

theorem nearBase_treesIdentify : TreesIdentify nearBase := by
  have hfun : ∀ pair ∈ nearPairs, ∀ pair' ∈ nearPairs, pair.1 = pair'.1 → pair.2 = pair'.2 := by
    decide
  intro directory other tree tree' htree htree'
  unfold nearBase at htree htree' ⊢
  have hapart := nearPairs_apart _ ((getElem?_entries hfun).mp htree) _
    ((getElem?_entries hfun).mp htree') rfl rfl
  simp only [exists_below_iff hfun]
  constructor
  · intro hsame rest identity
    have hdirectory : directory = other := hapart.1 hsame
    rw [hdirectory]
  · intro hsame
    have hdirectory : directory = other := hapart.2 (fun entry => (hsame entry.1 entry.2).mp)
      (fun entry => (hsame entry.1 entry.2).mpr)
    rw [hdirectory, htree', Option.some.injEq, Prod.mk.injEq] at htree
    exact htree.2.symm

end Moved

open Moved

/-- Over entries of every mode the pairing fails three times: an empty directory
    is not paired, a directory of which only a subtree is kept counts as
    removed, and two directories that differ in an empty subtree are paired with
    one though their trees tell them apart. -/
theorem directoryPairs_not_by_entries :
    (¬ HeldBy emptyCandidate a.bytes ∧ ¬ PairsByEntries emptyBase emptyCandidate [a]) ∧
    (¬ HeldBy twinCandidate a.bytes ∧ ¬ PairsByEntries twinBase twinCandidate [a]) ∧
    (¬ HeldBy nearCandidate a.bytes ∧ ¬ HeldBy nearCandidate b.bytes ∧
      TreesIdentify nearBase ∧ a ≠ b ∧
      (directoryPairs nearBase nearCandidate [a, b])[a]? = some c ∧
      (directoryPairs nearBase nearCandidate [a, b])[b]? = some c) :=
  ⟨⟨not_heldBy_entries (by decide) (by decide), emptyBase_not_paired⟩,
    ⟨not_heldBy_entries (by decide) (by decide), twinBase_not_paired⟩,
    not_heldBy_entries (by decide) (by decide),
    not_heldBy_entries (by decide) (by decide), nearBase_treesIdentify, by decide,
    by decide +kernel, by decide +kernel⟩

/-- A directory with one file, moved. -/
theorem directoryPairs_iff_moved :
    (∀ path ∈ [a], Absent nearCandidate path.bytes) ∧
      Counterpart (entries [(a, outer), (af, file)])
        nearCandidate a c := by
  have hmissing : ∀ path ∈ [a], Absent nearCandidate path.bytes := by
    intro path hpath
    rw [mem_singleton.mp hpath]
    exact absentAt_iff.mp (by decide +kernel)
  rcases ((directoryPairs_iff_and_injective
    (entries [(a, outer), (af, file)]) nearCandidate [a]
    hmissing).1 a c).mp (by decide +kernel) with ⟨_, _, _, _, _, hcounterpart, _⟩
  exact ⟨hmissing, hcounterpart⟩

end Amiss
