import Amiss.Core.Git.Tree

/-!
# Tree Bodies and Their Entries

The reader of tree bodies against a writer of tree entries. `TreeEntry.write`
is the form Git gives an entry, and the reader takes exactly the bodies that
are runs of written entries in Git's order in which no name stands twice.

Neighbours are compared in the order that puts a slash behind the name of a
directory, so a file and a directory of one name are neighbours only where no
other name lies between them. The search for the file when the directory
arrives closes that gap: the file sorts first, and the rows before the
directory are sorted, so the search cannot miss it.

Object ids travel as raw bytes and are kept as hexadecimal text.
`Oid.ofRaw_eq_some_iff` is the round trip between the two.

## Main definitions

* `Oid.toRaw`: The raw bytes of an object id.
* `TreeEntry.write`: An entry as Git writes it.
* `TreeEntry.WellFormed`: What the reader asks of one entry.

## Theorems

* `Oid.ofRaw_eq_some_iff`: Raw bytes and text determine each other.
* `readTreeEntry_eq_ok_iff`: One entry is read exactly where one was written.
* `foldlM_pushTreeEntry_eq_ok_iff`: Entries are taken in order, each name once.
* `parseTree_eq_ok_iff`: What the reader accepts, and with which entries.
* `parseTree_accepts_written`: It accepts exactly what Git writes.
-/

namespace Amiss

open List

open Fallible

/-- The character of a hexadecimal digit. -/
def digitChar (byte : UInt8) : Char := Char.ofNat byte.toNat

/-- The raw bytes of an object id. -/
def Oid.toRaw (oid : Oid) : Bytes :=
  (hexDecode (oid.raw.toList.map (fun c => UInt8.ofNat c.toNat))).getD []

theorem digitChar_hexByte_toNat {n : Nat} (h : n < 16) :
    UInt8.ofNat (digitChar (hexByte n)).toNat = hexByte n ∧
      lowercaseHex (digitChar (hexByte n)) = true := by
  have hall : ∀ n : Fin 16, UInt8.ofNat (digitChar (hexByte n)).toNat = hexByte n ∧
      lowercaseHex (digitChar (hexByte n)) = true := by decide
  exact hall ⟨n, h⟩

/-- A lowercase digit is the digit of some number below sixteen. -/
theorem exists_of_lowercaseHex {c : Char} (h : lowercaseHex c = true) :
    ∃ n, n < 16 ∧ c = digitChar (hexByte n) := by
  unfold lowercaseHex at h
  simp only [Bool.or_eq_true, Bool.and_eq_true, decide_eq_true_eq, Char.le_def,
    UInt32.le_iff_toNat_le, Char.toNat_val] at h
  have hdecimal : ('0'.toNat = 48) ∧ ('9'.toNat = 57) ∧ ('a'.toNat = 97) ∧ ('f'.toNat = 102) := by
    decide
  rw [hdecimal.1, hdecimal.2.1, hdecimal.2.2.1, hdecimal.2.2.2] at h
  have hchar : ∀ n, (hexByte n).toNat = c.toNat → c = digitChar (hexByte n) := by
    intro n hn
    rw [digitChar, hn, Char.ofNat_toNat]
  rcases h with hdigit | hletter
  · refine ⟨c.toNat - 48, by omega, hchar _ ?_⟩
    rw [hexByte, if_pos (by omega), UInt8.toNat_ofNat']
    omega
  · refine ⟨c.toNat - 87, by omega, hchar _ ?_⟩
    rw [hexByte, if_neg (by omega), UInt8.toNat_ofNat']
    omega

/-- The digits of written bytes are read off their characters. -/
theorem toNat_digitChar_hexEncode (bytes : Bytes) :
    ((hexEncode bytes).map digitChar).map (fun c => UInt8.ofNat c.toNat) = hexEncode bytes := by
  induction bytes with
  | nil => rfl
  | cons byte rest ih =>
    have hbyte : byte.toNat < 256 := byte.toNat_lt
    simp only [hexEncode, map_cons]
    rw [ih, (digitChar_hexByte_toNat (by omega)).1, (digitChar_hexByte_toNat (by omega)).1]

/-- An even number of lowercase digits spells bytes. -/
theorem exists_hexEncode : ∀ (chars : List Char) (count : Nat), chars.length = 2 * count →
    chars.all lowercaseHex = true →
    ∃ bytes : Bytes, bytes.length = count ∧ chars = (hexEncode bytes).map digitChar
  | [], count, hlength, _ => ⟨[], by simp only [List.length_nil] at hlength ⊢; omega, rfl⟩
  | [_], count, hlength, _ => absurd hlength (by simp only [List.length_singleton]; omega)
  | high :: low :: rest, count, hlength, hall => by
      simp only [List.all_cons, Bool.and_eq_true] at hall
      rcases hall with ⟨hhigh, hlow, hrest⟩
      rcases exists_of_lowercaseHex hhigh with ⟨m, hm, rfl⟩
      rcases exists_of_lowercaseHex hlow with ⟨n, hn, rfl⟩
      simp only [List.length_cons] at hlength
      rcases exists_hexEncode rest (count - 1) (by omega) hrest with ⟨bytes, hbytes, rfl⟩
      refine ⟨UInt8.ofNat (m * 16 + n) :: bytes, ?_, ?_⟩
      · rw [List.length_cons, hbytes]
        omega
      have hvalue : (UInt8.ofNat (m * 16 + n)).toNat = m * 16 + n := by
        rw [UInt8.toNat_ofNat']
        omega
      have hhalves : (m * 16 + n) / 16 = m ∧ (m * 16 + n) % 16 = n := by omega
      rw [hexEncode, hvalue, hhalves.1, hhalves.2, map_cons, map_cons]

theorem hexText_toList (bytes : Bytes) :
    (hexText bytes).toList = (hexEncode bytes).map digitChar := by
  rw [hexText, String.toList_ofList]
  rfl

theorem Oid.toRaw_of_raw_eq {oid : Oid} {raw : Bytes} (h : oid.raw = hexText raw) :
    oid.toRaw = raw := by
  rw [Oid.toRaw, h, hexText_toList, toNat_digitChar_hexEncode, hexDecode_hexEncode,
    Option.getD_some]

theorem Oid.raw_eq_hexText (oid : Oid) :
    oid.raw = hexText oid.toRaw ∧ oid.toRaw.length = oid.objectFormat.oidWidth := by
  have hvalid := oid.valid
  simp only [oidHex, Bool.and_eq_true, beq_iff_eq] at hvalid
  have hlength : oid.raw.toList.length = 2 * oid.objectFormat.oidWidth := by
    rw [String.length_toList, hvalid.1]
    cases oid.objectFormat <;> rfl
  rcases exists_hexEncode _ _ hlength hvalid.2 with ⟨bytes, hbytes, hchars⟩
  have hraw : oid.raw = hexText bytes := by
    rw [← String.toList_inj, hexText_toList, hchars]
  rw [Oid.toRaw_of_raw_eq hraw]
  exact ⟨hraw, hbytes⟩

variable {objectFormat : ObjectFormat}

/-- Raw bytes of the right number give the object id whose raw bytes they are. -/
theorem Oid.ofRaw_eq_some_iff {raw : Bytes} {oid : Oid} :
    Oid.ofRaw objectFormat raw = some oid ↔ oid.objectFormat = objectFormat ∧ oid.toRaw = raw := by
  unfold Oid.ofRaw Oid.new
  constructor
  · intro h
    split at h
    · cases h
      exact ⟨rfl, Oid.toRaw_of_raw_eq rfl⟩
    · cases h
  · rintro ⟨rfl, rfl⟩
    have hraw := (Oid.raw_eq_hexText oid).1
    have hvalid : oidHex oid.objectFormat (hexText oid.toRaw) = true := hraw ▸ oid.valid
    rw [dif_pos hvalid, Option.some.injEq]
    cases oid
    simp only [Oid.mk.injEq, true_and]
    exact hraw.symm

/-- The text of a mode in a tree. -/
def treeModeText : GitMode → Bytes
  | .tree => utf8 "40000"
  | .regularFile => utf8 "100644"
  | .executableFile => utf8 "100755"
  | .symlink => utf8 "120000"
  | .gitlink => utf8 "160000"

/-- An entry as Git writes it. -/
def TreeEntry.write (entry : TreeEntry) : Bytes :=
  treeModeText entry.mode ++ 32 :: (entry.name ++ 0 :: entry.oid.toRaw)

/-- The bounds of an entry can be found: a name that is there, without a slash
    or a NUL, and an object id of the repository's format. -/
structure TreeEntry.Delimited (objectFormat : ObjectFormat) (entry : TreeEntry) : Prop where
  named : entry.name ≠ []
  slashFree : 47 ∉ entry.name
  nulFree : 0 ∉ entry.name
  format : entry.oid.objectFormat = objectFormat

/-- What the reader asks of one entry: it is no directory that every tree has. -/
structure TreeEntry.WellFormed (objectFormat : ObjectFormat) (entry : TreeEntry) : Prop extends
    TreeEntry.Delimited objectFormat entry where
  proper : entry.name ≠ [46] ∧ entry.name ≠ [46, 46]

theorem treeMode_eq_ok_iff {bytes : Bytes} {mode : GitMode} :
    treeMode bytes = .ok mode ↔ bytes = treeModeText mode := by
  constructor
  · intro h
    unfold treeMode at h
    split at h
    · next hbytes => cases h; exact hbytes
    split at h
    · next hbytes => cases h; exact hbytes
    split at h
    · next hbytes => cases h; exact hbytes
    split at h
    · next hbytes => cases h; exact hbytes
    · split at h
      · next hbytes => cases h; exact hbytes
      · cases h
  · rintro rfl
    cases mode <;> decide

theorem space_notMem_treeModeText (mode : GitMode) : 32 ∉ treeModeText mode := by
  cases mode <;> decide

theorem treeNameValid_iff (name : Bytes) :
    treeNameValid name = true ↔ name ≠ [] ∧ 47 ∉ name ∧ name ≠ [46] ∧ name ≠ [46, 46] := by
  simp [treeNameValid, and_assoc]

variable {entry : TreeEntry}

/-- One entry is read exactly where one was written. -/
theorem readTreeEntry_eq_ok_iff {bytes after : Bytes} :
    readTreeEntry objectFormat bytes = .ok (entry, after) ↔
      entry.WellFormed objectFormat ∧ bytes = entry.write ++ after := by
  constructor
  · intro h
    unfold readTreeEntry at h
    split at h
    · cases h
    next modeBytes afterMode hmodeCut =>
    rcases bind_eq_ok.mp h with ⟨mode, hmode, h⟩
    split at h
    · cases h
    next name afterName hnameCut =>
    split at h
    · cases h
    next hvalid =>
    split at h
    · cases h
    next oid hoid =>
    cases h
    rcases cutAt_eq_some hmodeCut with ⟨rfl, -⟩
    rcases cutAt_eq_some hnameCut with ⟨rfl, hnul⟩
    rcases Option.bind_eq_some_iff.mp hoid with ⟨raw, hraw, hofRaw⟩
    rcases slice_zero_eq_some_iff.mp hraw with ⟨-, hafter⟩
    rcases Oid.ofRaw_eq_some_iff.mp hofRaw with ⟨hformat, rfl⟩
    rcases (treeNameValid_iff name).mp (Bool.of_not_eq_false hvalid) with
      ⟨hnamed, hslash, hproper⟩
    refine ⟨⟨⟨hnamed, hslash, hnul, hformat⟩, hproper⟩, ?_⟩
    rw [TreeEntry.write, ← treeMode_eq_ok_iff.mp hmode]
    simp only [append_assoc, cons_append]
    rw [← hafter]
  · rintro ⟨hok, rfl⟩
    have hwidth : entry.oid.toRaw.length = objectFormat.oidWidth := by
      rw [(Oid.raw_eq_hexText entry.oid).2, hok.format]
    have hoid : (slice (entry.oid.toRaw ++ after) 0 objectFormat.oidWidth).bind
        (Oid.ofRaw objectFormat) = some entry.oid := by
      refine Option.bind_eq_some_iff.mpr ⟨entry.oid.toRaw, ?_, ?_⟩
      · exact slice_append [] after rfl (by omega)
      · exact Oid.ofRaw_eq_some_iff.mpr ⟨hok.format, rfl⟩
    have hvalid : treeNameValid entry.name = true :=
      (treeNameValid_iff entry.name).mpr ⟨hok.named, hok.slashFree, hok.proper⟩
    have hdrop : (entry.oid.toRaw ++ after).drop objectFormat.oidWidth = after :=
      hwidth ▸ drop_left
    unfold readTreeEntry
    rw [TreeEntry.write, append_assoc, cons_append,
      cutAt_append (space_notMem_treeModeText entry.mode)]
    simp only [treeMode_eq_ok_iff.mpr rfl, ok_bind]
    rw [append_assoc, cons_append, cutAt_append hok.nulFree]
    simp [hvalid, hoid, hdrop]

theorem TreeEntry.key_of_file (h : entry.mode ≠ .tree) : entry.key = spellingOf entry.name := by
  rw [TreeEntry.key, treeNameKey, beq_eq_false_iff_ne.mpr h]
  exact append_nil _

theorem TreeEntry.key_of_tree (h : entry.mode = .tree) :
    entry.key = spellingOf entry.name ++ [47] := by
  rw [TreeEntry.key, treeNameKey, h]
  rfl

theorem slash_notMem_spellingOf {name : Bytes} (h : 47 ∉ name) : 47 ∉ spellingOf name := by
  intro hmem
  rcases mem_map.mp hmem with ⟨byte, hbyte, hvalue⟩
  have : byte = 47 := UInt8.toNat_inj.mp hvalue
  exact h (this ▸ hbyte)

/-- Entries of one name are two files, two directories, or one of each, and
    then the file has the smaller key. -/
theorem TreeEntry.key_cases {left right : TreeEntry} (hname : left.name = right.name) :
    left.key = right.key ∨ (left.mode ≠ .tree ∧ right.mode = .tree ∧ left.key < right.key) ∨
      (left.mode = .tree ∧ right.mode ≠ .tree ∧ right.key < left.key) := by
  have hslash : spellingOf right.name < spellingOf right.name ++ [47] :=
    lt_append_of_ne_nil _ (by simp)
  by_cases hleft : left.mode = .tree
  · by_cases hright : right.mode = .tree
    · left
      rw [key_of_tree hleft, key_of_tree hright, hname]
    · right
      right
      rw [key_of_tree hleft, key_of_file hright, hname]
      exact ⟨hleft, hright, hslash⟩
  · by_cases hright : right.mode = .tree
    · right
      left
      rw [key_of_file hleft, key_of_tree hright, hname]
      exact ⟨hleft, hright, hslash⟩
    · left
      rw [key_of_file hleft, key_of_file hright, hname]

/-- Entries in Git's order in which no name stands twice. -/
structure TreeOrdered (entries : List TreeEntry) : Prop where
  increasing : (entries.map TreeEntry.key).Pairwise (· < ·)
  unique : (entries.map TreeEntry.name).Nodup

/-- An entry is taken exactly where the order goes on and its name is new. -/
theorem pushTreeEntry_eq_ok_iff {entries extended : List TreeEntry}
    (hordered : TreeOrdered entries) (hslash : 47 ∉ entry.name) :
    pushTreeEntry entries entry = .ok extended ↔
      extended = entries ++ [entry] ∧ TreeOrdered extended := by
  have hordered_iff : TreeOrdered (entries ++ [entry]) ↔
      (∀ other ∈ entries, other.key < entry.key) ∧ ∀ other ∈ entries, other.name ≠ entry.name := by
    constructor
    · intro h
      have hkeys := h.increasing
      have hnames := h.unique
      rw [map_append, pairwise_append] at hkeys
      rw [map_append, nodup_append] at hnames
      constructor
      · intro other hother
        exact hkeys.2.2 _ (mem_map_of_mem hother) _ (mem_singleton.mpr rfl)
      · intro other hother
        exact hnames.2.2 _ (mem_map_of_mem hother) _ (mem_singleton.mpr rfl)
    · rintro ⟨hkeys, hnames⟩
      constructor
      · rw [map_append, pairwise_append]
        refine ⟨hordered.increasing, pairwise_singleton _ _, ?_⟩
        intro key hkey other hother
        rcases mem_map.mp hkey with ⟨earlier, hearlier, rfl⟩
        rw [map_singleton, mem_singleton] at hother
        exact hother ▸ hkeys earlier hearlier
      · rw [map_append, nodup_append]
        refine ⟨hordered.unique, nodup_singleton _, ?_⟩
        intro name hname other hother
        rcases mem_map.mp hname with ⟨earlier, hearlier, rfl⟩
        rw [map_singleton, mem_singleton] at hother
        exact hother ▸ hnames earlier hearlier
  -- The search looks for a file of the name, which only a file can have as its key.
  have hsearch : (binarySearch (entries.map TreeEntry.key) (treeNameKey entry.name false)).isSome =
      true ↔ ∃ other ∈ entries, other.mode ≠ .tree ∧ other.name = entry.name := by
    rw [← Option.ne_none_iff_isSome, ne_eq, binarySearch_eq_none_iff hordered.increasing, not_not,
      mem_map]
    have hkey : treeNameKey entry.name false = spellingOf entry.name := append_nil _
    rw [hkey]
    constructor
    · rintro ⟨other, hother, hsame⟩
      have hfile : other.mode ≠ .tree := by
        intro htree
        rw [TreeEntry.key_of_tree htree] at hsame
        refine slash_notMem_spellingOf hslash ?_
        rw [← hsame]
        exact mem_append_right _ (mem_singleton.mpr rfl)
      rw [TreeEntry.key_of_file hfile] at hsame
      exact ⟨other, hother, hfile, spellingOf_injective hsame⟩
    · rintro ⟨other, hother, hfile, hname⟩
      exact ⟨other, hother, by rw [TreeEntry.key_of_file hfile, hname]⟩
  have hlast : entries.getLast?.any (fun previous => ¬ previous.key < entry.key) = false ↔
      ∀ other ∈ entries, other.key < entry.key := by
    rw [← forall_getLast?_lt_iff hordered.increasing, Option.any_eq_false]
    simp
  unfold pushTreeEntry
  constructor
  · simp only [guard_eq_ok]
    rintro ⟨hnext, hnew, ⟨⟩⟩
    have hkeys := hlast.mp (by simpa only [Bool.not_eq_true] using hnext)
    refine ⟨rfl, hordered_iff.mpr ⟨hkeys, ?_⟩⟩
    intro other hother hname
    rcases TreeEntry.key_cases hname with hsame | ⟨hfile, htree, -⟩ | ⟨-, -, hgreater⟩
    · exact absurd (hkeys other hother) (hsame ▸ lt_irrefl _)
    · exact hnew ⟨htree, hsearch.mpr ⟨other, hother, hfile, hname⟩⟩
    · exact absurd (hkeys other hother) (not_lt_of_gt hgreater)
  · rintro ⟨rfl, hextended⟩
    rcases hordered_iff.mp hextended with ⟨hkeys, hnames⟩
    rw [if_neg (by rw [hlast.mpr hkeys]; exact Bool.false_ne_true), if_neg]
    rintro ⟨-, hfound⟩
    rcases hsearch.mp hfound with ⟨other, hother, -, hname⟩
    exact hnames other hother hname

/-- Entries are taken in order, each name once. -/
theorem foldlM_pushTreeEntry_eq_ok_iff {entries : List TreeEntry} :
    ∀ (before extended : List TreeEntry), TreeOrdered before →
      (∀ entry ∈ entries, 47 ∉ entry.name) →
      (entries.foldlM pushTreeEntry before = .ok extended ↔
        extended = before ++ entries ∧ TreeOrdered extended) := by
  induction entries with
  | nil =>
    intro before extended hbefore _
    rw [foldlM_nil, pure_eq_ok, Except.ok.injEq, append_nil]
    constructor
    · rintro rfl
      exact ⟨rfl, hbefore⟩
    · rintro ⟨rfl, -⟩
      rfl
  | cons entry entries ih =>
    intro before extended hbefore hslash
    rcases forall_mem_cons.mp hslash with ⟨hentry, hentries⟩
    have hpush : ∀ next, pushTreeEntry before entry = .ok next ↔
        next = before ++ [entry] ∧ TreeOrdered next := by
      intro next
      exact pushTreeEntry_eq_ok_iff hbefore hentry
    have hassoc : before ++ entry :: entries = (before ++ [entry]) ++ entries := by
      rw [append_assoc, singleton_append]
    rw [foldlM_cons, bind_eq_ok]
    constructor
    · rintro ⟨next, hstep, hrun⟩
      rcases (hpush next).mp hstep with ⟨rfl, hordered⟩
      rw [hassoc]
      exact (ih _ extended hordered hentries).mp hrun
    · rintro ⟨rfl, hordered⟩
      rw [hassoc] at hordered ⊢
      have hnext : TreeOrdered (before ++ [entry]) := by
        constructor
        · have hkeys := hordered.increasing
          rw [map_append, pairwise_append] at hkeys
          exact hkeys.1
        · have hnames := hordered.unique
          rw [map_append, nodup_append] at hnames
          exact hnames.1
      exact ⟨_, (hpush _).mpr ⟨rfl, hnext⟩, (ih _ _ hnext hentries).mpr ⟨rfl, hordered⟩⟩

theorem TreeEntry.write_ne_nil (entry : TreeEntry) : entry.write ≠ [] := by
  intro h
  have := (append_eq_nil_iff.mp h).2
  cases this

theorem readTree_round (before : List TreeEntry) (bytes : Bytes) (extended : List TreeEntry)
    (after : Bytes) :
    (do
      let (entry, after) ← readTreeEntry objectFormat bytes
      let extended ← pushTreeEntry before entry
      pure (extended, after)) = Except.ok (extended, after) ↔
      ∃ entry : TreeEntry, entry.WellFormed objectFormat ∧ bytes = entry.write ++ after ∧
        pushTreeEntry before entry = .ok extended := by
  rw [bind_eq_ok]
  constructor
  · rintro ⟨⟨entry, behind⟩, hread, hrun⟩
    rcases bind_eq_ok.mp hrun with ⟨next, hpush, hpair⟩
    rw [pure_eq_ok, Except.ok.injEq, Prod.mk.injEq] at hpair
    rcases hpair with ⟨rfl, rfl⟩
    rcases readTreeEntry_eq_ok_iff.mp hread with ⟨hok, hbytes⟩
    exact ⟨entry, hok, hbytes, hpush⟩
  · rintro ⟨entry, hok, hbytes, hpush⟩
    refine ⟨(entry, after), readTreeEntry_eq_ok_iff.mpr ⟨hok, hbytes⟩, ?_⟩
    simp only [hpush, ok_bind, pure_eq_ok]

/-- The reader accepts exactly the runs of written entries in Git's order in
    which no name stands twice, and returns those entries. -/
theorem parseTree_eq_ok_iff (objectFormat : ObjectFormat) (body : Bytes)
    (entries : List TreeEntry) : parseTree objectFormat body = .ok entries ↔
      (∀ entry ∈ entries, entry.WellFormed objectFormat) ∧ TreeOrdered entries ∧
        body = entries.flatMap TreeEntry.write := by
  have hnil : TreeOrdered [] := ⟨List.Pairwise.nil, nodup_nil⟩
  have hfold : ∀ {pieces : List TreeEntry}, (∀ entry ∈ pieces, entry.WellFormed objectFormat) →
      (pieces.foldlM pushTreeEntry [] = .ok entries ↔ entries = pieces ∧ TreeOrdered entries) := by
    intro pieces hall
    exact foldlM_pushTreeEntry_eq_ok_iff [] entries hnil
      (fun entry hmem => (hall entry hmem).slashFree)
  unfold parseTree
  rw [consume_eq_ok_iff readTree_round TreeEntry.write_ne_nil _ _ _ _ le_rfl]
  constructor
  · rintro ⟨pieces, hall, hbody, hrun⟩
    rcases (hfold hall).mp hrun with ⟨rfl, hordered⟩
    exact ⟨hall, hordered, hbody⟩
  · rintro ⟨hall, hordered, hbody⟩
    exact ⟨entries, hall, hbody, (hfold hall).mpr ⟨rfl, hordered⟩⟩

/-- A body is accepted exactly when it is the run of some well-formed entries
    in Git's order in which no name stands twice, and writing the entries that
    are returned gives the body back. -/
theorem parseTree_accepts_written (objectFormat : ObjectFormat) (body : Bytes) :
    ((∃ entries, parseTree objectFormat body = .ok entries) ↔
      ∃ entries : List TreeEntry, (∀ entry ∈ entries, entry.WellFormed objectFormat) ∧
        TreeOrdered entries ∧ body = entries.flatMap TreeEntry.write) ∧
      ∀ entries, parseTree objectFormat body = .ok entries →
        entries.flatMap TreeEntry.write = body := by
  constructor
  · constructor
    · rintro ⟨entries, h⟩
      exact ⟨entries, (parseTree_eq_ok_iff objectFormat body entries).mp h⟩
    · rintro ⟨entries, h⟩
      exact ⟨entries, (parseTree_eq_ok_iff objectFormat body entries).mpr h⟩
  · intro entries h
    exact ((parseTree_eq_ok_iff objectFormat body entries).mp h).2.2.symm

theorem oidHex_zeros : oidHex .sha1 (String.ofList (List.replicate 40 '0')) = true := by decide

/-- A file named with one dot. -/
def dotEntry : TreeEntry :=
  ⟨.regularFile, [46], ⟨.sha1, String.ofList (List.replicate 40 '0'), oidHex_zeros⟩⟩

/-- An entry that is delimited like any other is refused for its name: the
    reader takes no entry named with a dot. -/
theorem parseTree_refuses_dot :
    ¬ ((∃ entries, parseTree .sha1 dotEntry.write = .ok entries) ↔
      ∃ entries : List TreeEntry, (∀ entry ∈ entries, entry.Delimited .sha1) ∧
        TreeOrdered entries ∧ dotEntry.write = entries.flatMap TreeEntry.write) := by
  have hrefused : parseTree .sha1 dotEntry.write = .error .objectUnreadable := by decide
  have hdelimited : dotEntry.Delimited .sha1 := ⟨by decide, by decide, by decide, rfl⟩
  intro h
  have hwritten : ∃ entries : List TreeEntry, (∀ entry ∈ entries, entry.Delimited .sha1) ∧
      TreeOrdered entries ∧ dotEntry.write = entries.flatMap TreeEntry.write := by
    refine ⟨[dotEntry], forall_mem_singleton.mpr hdelimited, ⟨?_, ?_⟩, ?_⟩
    · exact pairwise_singleton _ _
    · exact nodup_singleton _
    · exact (flatMap_singleton _ _).symm
  rcases h.mpr hwritten with ⟨entries, haccepted⟩
  rw [hrefused] at haccepted
  cases haccepted

end Amiss
