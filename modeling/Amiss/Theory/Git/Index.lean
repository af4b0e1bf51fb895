import Amiss.Base.Varint
import Amiss.Core.Git.Index
import Amiss.Theory.Git.Tree
import Amiss.Theory.Path

/-!
# Rows of an Index

What the rows of an accepted index have in common: their paths increase, none
is a directory above another, and each row is one that the format can store.

The reader compares a path with the last row only and searches the rows for
the directories above it. `pushIndexEntry_eq_ok_iff` turns both into a
statement about all rows, and the loop over the entries keeps it.

## Main definitions

* `RowsOrdered`: Increasing paths, none above another.
* `IndexEntry.Storable`: A row that the format can store.

## Theorems

* `pushIndexEntry_eq_ok_iff`: A row is taken exactly where the order goes on.
* `readIndexEntry_keeps`: What the loop over the entries keeps.
* `parseIndexFile_rows`: The rows of an accepted index.
-/

namespace Amiss

open List

open Fallible

/-- The rows are in the order of their paths and no row is a directory above
    another. -/
structure RowsOrdered (rows : List IndexEntry) : Prop where
  increasing : (rows.map (fun row => spellingOf row.path)).Pairwise (· < ·)
  separate : ∀ row ∈ rows, ∀ other ∈ rows, ¬ row.path ++ [47] <+: other.path

/-- A row that the format can store. -/
structure IndexEntry.Storable (objectFormat : ObjectFormat) (row : IndexEntry) : Prop where
  named : row.path ≠ []
  nulFree : 0 ∉ row.path
  file : row.mode ≠ .tree
  format : row.oid.objectFormat = objectFormat

theorem RowsOrdered.nil : RowsOrdered [] :=
  ⟨List.Pairwise.nil, by simp⟩

variable {rows : List IndexEntry}

theorem RowsOrdered.unique (h : RowsOrdered rows) : (rows.map IndexEntry.path).Nodup := by
  have hdistinct : (rows.map (fun row => spellingOf row.path)).Nodup :=
    h.increasing.imp (fun hlt => ne_of_lt hlt)
  exact (map_map (f := IndexEntry.path) (g := spellingOf) ▸ hdistinct).of_map _

/-- A directory comes before what lies below it. -/
theorem spellingOf_lt_of_above {above path : Bytes} (h : above ++ [47] <+: path) :
    spellingOf above < spellingOf path := by
  rcases h with ⟨rest, rfl⟩
  rw [append_assoc, spellingOf_append]
  exact lt_append_of_ne_nil _ (by simp [spellingOf])

theorem RowsOrdered.append_iff (h : RowsOrdered rows) (row : IndexEntry) :
    RowsOrdered (rows ++ [row]) ↔
      (∀ other ∈ rows, spellingOf other.path < spellingOf row.path) ∧
        ∀ other ∈ rows, ¬ other.path ++ [47] <+: row.path := by
  constructor
  · intro hextended
    have hkeys := hextended.increasing
    rw [map_append, pairwise_append] at hkeys
    constructor
    · intro other hother
      exact hkeys.2.2 _ (mem_map.mpr ⟨other, hother, rfl⟩) _ (mem_singleton.mpr rfl)
    · intro other hother
      exact hextended.separate other (mem_append_left _ hother) row
        (mem_append_right _ (mem_singleton.mpr rfl))
  · rintro ⟨hkeys, hseparate⟩
    constructor
    · rw [map_append, pairwise_append]
      refine ⟨h.increasing, pairwise_singleton _ _, ?_⟩
      intro key hkey other hother
      rcases mem_map.mp hkey with ⟨earlier, hearlier, rfl⟩
      rw [map_singleton, mem_singleton] at hother
      exact hother ▸ hkeys earlier hearlier
    · intro above habove below hbelow hunder
      have hlt := spellingOf_lt_of_above hunder
      rcases mem_append.mp habove with habove | habove
      · rcases mem_append.mp hbelow with hbelow | hbelow
        · exact h.separate above habove below hbelow hunder
        · rw [mem_singleton.mp hbelow] at hunder
          exact hseparate above habove hunder
      · -- The new row is the greatest, so nothing of the list lies below it.
        rw [mem_singleton.mp habove] at hlt
        rcases mem_append.mp hbelow with hbelow | hbelow
        · exact absurd hlt (not_lt_of_gt (hkeys below hbelow))
        · rw [mem_singleton.mp hbelow] at hlt
          exact absurd hlt (lt_irrefl _)

/-- The search for a directory above a path looks at all rows. -/
theorem prefixConflict_iff (h : RowsOrdered rows) (path : Bytes) :
    prefixConflict rows path = true ↔ ∃ row ∈ rows, row.path ++ [47] <+: path := by
  unfold prefixConflict
  rw [any_eq_true]
  have hfound : ∀ above, (binarySearch (rows.map (fun row => spellingOf row.path))
      (spellingOf above)).isSome = true ↔ ∃ row ∈ rows, row.path = above := by
    intro above
    rw [← Option.ne_none_iff_isSome, ne_eq, binarySearch_eq_none_iff h.increasing, not_not, mem_map]
    constructor
    · rintro ⟨row, hrow, hsame⟩
      exact ⟨row, hrow, spellingOf_injective hsame⟩
    · rintro ⟨row, hrow, rfl⟩
      exact ⟨row, hrow, rfl⟩
  constructor
  · rintro ⟨above, habove, hsome⟩
    rcases (hfound above).mp hsome with ⟨row, hrow, rfl⟩
    exact ⟨row, hrow, mem_tail_ancestors.mp habove⟩
  · rintro ⟨row, hrow, hunder⟩
    exact ⟨row.path, mem_tail_ancestors.mpr hunder, (hfound row.path).mpr ⟨row, hrow, rfl⟩⟩

/-- The path of the last row, empty before the first. -/
def lastPath (rows : List IndexEntry) : Bytes := rows.getLast?.elim [] IndexEntry.path

/-- A row is taken exactly where the order goes on. -/
theorem pushIndexEntry_eq_ok_iff {extended : List IndexEntry} {row : IndexEntry}
    (hordered : RowsOrdered rows) (hnamed : ∀ other ∈ rows, other.path ≠ []) :
    pushIndexEntry rows row = .ok extended ↔ extended = rows ++ [row] ∧ RowsOrdered extended := by
  have hlast : (lastPath rows ≠ [] ∧ ¬ spellingOf (lastPath rows) < spellingOf row.path) ↔
      ¬ ∀ other ∈ rows, spellingOf other.path < spellingOf row.path := by
    rw [← forall_getLast?_lt_iff hordered.increasing, lastPath]
    cases hget : rows.getLast? with
    | none => simp
    | some last =>
      have hne : last.path ≠ [] := hnamed last (mem_of_getLast? hget)
      simp [hne]
  unfold lastPath at hlast
  unfold pushIndexEntry
  simp only
  constructor
  · simp only [guard_eq_ok]
    rintro ⟨hnext, hconflict, ⟨⟩⟩
    rw [hlast, not_not] at hnext
    rw [prefixConflict_iff hordered] at hconflict
    refine ⟨rfl, (hordered.append_iff row).mpr ⟨hnext, ?_⟩⟩
    intro other hother hunder
    exact hconflict ⟨other, hother, hunder⟩
  · rintro ⟨rfl, hextended⟩
    rcases (hordered.append_iff row).mp hextended with ⟨hkeys, hseparate⟩
    rw [if_neg (by rw [hlast, not_not]; exact hkeys), if_neg]
    rw [prefixConflict_iff hordered]
    rintro ⟨other, hother, hunder⟩
    exact hseparate other hother hunder

/-! ### Reading -/

variable {bytes : Bytes}

theorem be32_eq_ok {offset value : Nat} (h : be32 bytes offset = .ok value) : value < 2 ^ 32 := by
  unfold be32 slice at h
  split at h
  · simp only [Option.elim_some, Except.ok.injEq] at h
    have hlength : ((bytes.drop offset).take (offset + 4 - offset)).length ≤ 4 := by
      rw [length_take]
      omega
    have hlt := ofBeBytes_lt ((bytes.drop offset).take (offset + 4 - offset))
    rw [h] at hlt
    calc value < 256 ^ _ := hlt
      _ ≤ 256 ^ 4 := Nat.pow_le_pow_right (by omega) hlength
      _ = 2 ^ 32 := by norm_num
  · cases h

theorem fileMode_eq_ok {raw : Nat} {mode : GitMode} (h : fileMode raw = .ok (some mode)) :
    mode ≠ .tree := by
  rintro rfl
  unfold fileMode entryMode at h
  repeat' split at h
  all_goals cases h

/-- The reader of the index is the one below 64 bits. -/
theorem varint_eq (value : Nat) (bytes : Bytes) : varint value bytes =
    (readBelow (2 ^ 64) value bytes).elim (.error .indexInvalid) .ok := by
  induction bytes generalizing value with
  | nil => rfl
  | cons byte bytes ih =>
    rw [varint, readBelow_cons]
    generalize value * 128 + (byte &&& 0x7f).toNat = whole
    dsimp only
    by_cases hfits : 2 ^ 64 ≤ whole
    · rw [if_pos hfits, if_pos hfits]
      rfl
    rw [if_neg hfits, if_neg hfits]
    by_cases hlast : byte &&& 0x80 = 0
    · rw [if_pos hlast, if_pos hlast]
      rfl
    rw [if_neg hlast, if_neg hlast]
    by_cases hnext : 2 ^ 64 ≤ whole + 1
    · rw [if_pos hnext, readBelow_past hnext]
      rfl
    · rw [if_neg hnext, ih]

theorem varint_eq_ok {rest : Bytes} {value strip : Nat}
    (h : varint value bytes = .ok (strip, rest)) :
    rest.length < bytes.length := by
  rw [varint_eq] at h
  cases hread : readBelow (2 ^ 64) value bytes with
  | none => simp only [hread, Option.elim_none, reduceCtorEq] at h
  | some read =>
    simp only [hread, Option.elim_some, Except.ok.injEq] at h
    subst h
    exact (readOffset_le (Option.filter_eq_some_iff.mp hread).1).2

variable {version : Nat}

/-- A path that is read holds no NUL, and it is made of the bytes that were
    read and of the path before it. -/
theorem entryPath_eq_ok {rest path after previousPath : Bytes} {pathAt flags : Nat}
    (hnul : 0 ∉ previousPath)
    (h : entryPath rest version pathAt flags previousPath = .ok (path, after)) :
    0 ∉ path ∧ path.length + after.length ≤ previousPath.length + rest.length ∧
      after.length ≤ rest.length := by
  unfold entryPath at h
  split at h
  · rcases bind_eq_ok.mp h with ⟨⟨strip, afterStrip⟩, hvarint, h⟩
    simp only at h
    split at h
    · cases h
    next suffix behind hcut =>
    split at h
    · cases h
    cases h
    rcases cutAt_eq_some hcut with ⟨rfl, hsuffix⟩
    have hshorter := varint_eq_ok hvarint
    rw [length_drop, length_append, length_cons] at hshorter
    rw [length_append, length_take]
    refine ⟨?_, by omega, by omega⟩
    intro hmem
    rcases mem_append.mp hmem with hmem | hmem
    · exact hnul (mem_of_mem_take hmem)
    · exact hsuffix hmem
  · split at h
    · cases h
    next name behind hcut =>
    simp only at h
    split at h
    · cases h
    split at h
    · cases h
      rcases cutAt_eq_some hcut with ⟨hrest, hname⟩
      have hlength := congrArg List.length hrest
      rw [length_drop, length_append, length_cons] at hlength
      rw [length_drop]
      exact ⟨hname, by omega, by omega⟩
    · cases h

/-- What the loop over the entries keeps: the rows are ordered, each can be
    stored, and their paths come from bytes that were read. -/
structure IndexRead.Sound (objectFormat : ObjectFormat) (total : Nat) (read : IndexRead) :
    Prop where
  ordered : RowsOrdered read.entries
  storable : ∀ row ∈ read.entries, row.Storable objectFormat
  short : ∀ row ∈ read.entries, row.path.length + read.rest.length ≤ total
  within : read.rest.length ≤ total

theorem lastPath_cases (rows : List IndexEntry) :
    lastPath rows = [] ∨ ∃ row ∈ rows, lastPath rows = row.path := by
  unfold lastPath
  cases hget : rows.getLast? with
  | none => exact Or.inl rfl
  | some last => exact Or.inr ⟨last, mem_of_getLast? hget, rfl⟩

variable {objectFormat : ObjectFormat}

/-- One entry keeps the rows sound and adds at most one. -/
theorem readIndexEntry_keeps {total : Nat} {read next : IndexRead}
    (hsound : read.Sound objectFormat total)
    (h : readIndexEntry objectFormat version read = .ok next) :
    next.Sound objectFormat total ∧ next.entries.length ≤ read.entries.length + 1 := by
  unfold readIndexEntry at h
  rcases bind_eq_ok.mp h with ⟨rawMode, -, h⟩
  rcases bind_eq_ok.mp h with ⟨mode, hmode, h⟩
  split at h
  · cases h
  next oid hoid =>
  rcases bind_eq_ok.mp h with ⟨⟨flags, skipWorktree, pathAt⟩, -, h⟩
  rcases bind_eq_ok.mp h with ⟨⟨path, after⟩, hpath, h⟩
  have hlast : 0 ∉ lastPath read.entries ∧
      (lastPath read.entries).length + read.rest.length ≤ total := by
    rcases lastPath_cases read.entries with hempty | ⟨row, hrow, heq⟩
    · rw [hempty]
      exact ⟨not_mem_nil, by simpa only [length_nil, Nat.zero_add] using hsound.within⟩
    · rw [heq]
      exact ⟨(hsound.storable row hrow).nulFree, hsound.short row hrow⟩
  rcases entryPath_eq_ok hlast.1 hpath with ⟨hnul, hbounded, hafter⟩
  have hshort : ∀ row ∈ read.entries, row.path.length + after.length ≤ total := by
    intro row hrow
    have := hsound.short row hrow
    omega
  have hwithin : after.length ≤ total := hafter.trans hsound.within
  simp only at h
  split at h
  · cases h
    exact ⟨⟨hsound.ordered, hsound.storable, hshort, hwithin⟩, Nat.le_succ _⟩
  · next stored hfilter =>
    rcases bind_eq_ok.mp h with ⟨extended, hpush, h⟩
    cases h
    rcases (pushIndexEntry_eq_ok_iff hsound.ordered
      (fun other hother => (hsound.storable other hother).named)).mp hpush with ⟨rfl, hordered⟩
    rw [Option.filter_eq_some_iff] at hfilter
    rcases hfilter with ⟨rfl, hnamed⟩
    have hformat : oid.objectFormat = objectFormat := by
      rcases Option.bind_eq_some_iff.mp hoid with ⟨raw, -, hraw⟩
      exact (Oid.ofRaw_eq_some_iff.mp hraw).1
    refine ⟨⟨hordered, ?_, ?_, hwithin⟩, by rw [length_append, length_singleton]⟩
    · intro row hrow
      rcases mem_append.mp hrow with hrow | hrow
      · exact hsound.storable row hrow
      · rw [mem_singleton.mp hrow]
        exact ⟨by simpa using hnamed, hnul, fileMode_eq_ok hmode, hformat⟩
    · intro row hrow
      rcases mem_append.mp hrow with hrow | hrow
      · exact hshort row hrow
      · rw [mem_singleton.mp hrow]
        exact hbounded.trans hlast.2

/-- The rows of a loop of some rounds. -/
theorem foldlM_readIndexEntry_keeps {total : Nat} {rounds : List Nat} :
    ∀ {read last : IndexRead}, read.Sound objectFormat total →
      rounds.foldlM (fun read _ => readIndexEntry objectFormat version read) read = .ok last →
      last.Sound objectFormat total ∧
        last.entries.length ≤ read.entries.length + rounds.length := by
  induction rounds with
  | nil =>
    intro read last hsound h
    simp only [foldlM_nil, pure_eq_ok, Except.ok.injEq] at h
    subst h
    exact ⟨hsound, le_refl _⟩
  | cons round rounds ih =>
    intro read last hsound h
    rw [foldlM_cons] at h
    rcases bind_eq_ok.mp h with ⟨next, hone, hrun⟩
    rcases readIndexEntry_keeps hsound hone with ⟨hnext, hmore⟩
    rcases ih hnext hrun with ⟨hlast, hcount⟩
    refine ⟨hlast, ?_⟩
    rw [length_cons]
    omega

/-- The rows of an accepted index are ordered, each can be stored, and the
    format can count them. -/
theorem parseIndexFile_rows {ordinaryDigest : ObjectFormat → Bytes → Bytes} {index : LogicalIndex}
    (h : parseIndexFile ordinaryDigest objectFormat bytes = .ok index) :
    RowsOrdered index.entries ∧ (∀ row ∈ index.entries, row.Storable objectFormat) ∧
      (∀ row ∈ index.entries, row.path.length ≤ bytes.length) ∧
      index.entries.length < 2 ^ 32 := by
  simp only [parseIndexFile, guard_eq_ok, bind_eq_ok] at h
  rcases h with ⟨-, -, -, version, -, -, count, hcount, read, hrun, -, -, -, ⟨⟩⟩
  have hstart : IndexRead.Sound objectFormat bytes.length
      ⟨[], false, (bytes.take (bytes.length - objectFormat.oidWidth)).drop 12⟩ := by
    refine ⟨RowsOrdered.nil, ?_, ?_, ?_⟩
    · simp
    · simp
    · simp only [length_drop, length_take]
      omega
  rcases foldlM_readIndexEntry_keeps hstart hrun with ⟨hsound, hrows⟩
  simp only [length_nil, length_range, Nat.zero_add] at hrows
  refine ⟨hsound.ordered, hsound.storable, ?_, lt_of_le_of_lt hrows (be32_eq_ok hcount)⟩
  intro row hrow
  have := hsound.short row hrow
  omega

end Amiss
