import Amiss.Core.Fixes
import Amiss.Theory.Route

/-!
# Relocations That Read Back

The edit that follows a moved file writes the new path relative to the
document and leaves the query and the fragment as they were. Here the edited
destination is read again, the way any destination is read.

The new path goes up from the document's directory to the directory that it
shares with the moved path and down the rest of the moved path. Walking it
over a stack pops exactly what is not shared and pushes exactly the rest, so
it names the moved path as soon as every segment of that rest reads back as
itself. The edit refuses some of the bytes that would not, but not `#`, `?`
and the control bytes, and a moved path that is the document's own directory
leaves nothing to write at all.

## Main definitions

* `movedRest`: The segments of the moved path that the edit spells.
* `ReadsBack`: The edited destination names the moved path.

## Theorems

* `relativeSpelling_eq`: The written path as its segments.
* `foldlM_stackSegment_relative`: Walking the written path.
* `relocationFix_readsBack_iff`: When an edit reads back.
-/

namespace Amiss

open List

open Fallible

/-! ### Spelling a path relative to a directory -/

/-- The segments of a directory, none for the root. -/
def directorySegments (beside : Bytes) : List Bytes :=
  (beside.splitOn 47).filter (fun segment => !segment.isEmpty)

/-- The segments of the moved path that are not shared with the directory. -/
def movedRest (beside target : Bytes) : List Bytes :=
  (target.splitOn 47).drop (sharedSegments (directorySegments beside) (target.splitOn 47))

/-- The segments of the relative path. -/
def relativeSegments (beside target : Bytes) : List Bytes :=
  List.replicate ((directorySegments beside).length -
    sharedSegments (directorySegments beside) (target.splitOn 47)) [46, 46] ++
      movedRest beside target

theorem relativeSpelling_eq (beside target : Bytes) :
    relativeSpelling beside target = joined (relativeSegments beside target) := rfl

theorem sharedSegments_spec (left right : List Bytes) :
    sharedSegments left right ≤ left.length ∧
      left.take (sharedSegments left right) = right.take (sharedSegments left right) := by
  fun_induction sharedSegments left right with
  | case1 segment lefts rights ih =>
    rw [take_succ_cons, take_succ_cons, ih.2]
    exact ⟨Nat.succ_le_succ ih.1, rfl⟩
  | case2 | case3 => exact ⟨Nat.zero_le _, rfl⟩

/-! ### Directories of documents -/

variable {stack : List Bytes}

/-- Segments that are there and hold no slash are found again. -/
theorem baseSegments_joined (h : ∀ segment ∈ stack, segment ≠ [] ∧ 47 ∉ segment) :
    baseSegments (joined stack) = stack := by
  cases stack with
  | nil => rfl
  | cons first rest =>
    rcases forall_mem_cons.mp h with ⟨hfirst, hrest⟩
    cases first with
    | nil => exact absurd rfl hfirst.1
    | cons byte tail =>
      have hjoined : joined ((byte :: tail) :: rest) = byte :: joined (tail :: rest) := by
        cases rest with
        | nil => rw [joined_singleton, joined_singleton]
        | cons second rest =>
          rw [joined, joined, intercalate_cons_cons, intercalate_cons_cons,
            cons_append, cons_append]
      have hslash : ∀ segment ∈ tail :: rest, 47 ∉ segment := by
        refine forall_mem_cons.mpr ⟨?_, fun segment hsegment => (hrest segment hsegment).2⟩
        intro hmem
        exact hfirst.2 (mem_cons_of_mem _ hmem)
      rw [hjoined, baseSegments, joined, splitOn_intercalate 47 hslash
        (cons_ne_nil _ _)]
      rfl

/-- The segments of a document's directory are those of the document without
    its name. -/
theorem directory_segments (document : RepoPath) :
    directory document.bytes = joined (document.bytes.splitOn 47).dropLast ∧
      directorySegments (directory document.bytes) = (document.bytes.splitOn 47).dropLast ∧
      baseSegments (directory document.bytes) = (document.bytes.splitOn 47).dropLast := by
  have hstacked : Stacked (document.bytes.splitOn 47) :=
    document.baseSegments_eq ▸ baseSegments_stacked document.bytes
  have hdirectory : directory document.bytes = joined (document.bytes.splitOn 47).dropLast := by
    have hcut := hstacked.beforeLastSlash_joined
    rwa [joined, intercalate_splitOn] at hcut
  have hnamed : ∀ segment ∈ (document.bytes.splitOn 47).dropLast, segment ≠ [] ∧ 47 ∉ segment := by
    intro segment hsegment
    have hmem := mem_of_mem_dropLast hsegment
    exact ⟨(document.named segment hmem).nonempty, notMem_of_mem_splitOn segment hmem⟩
  refine ⟨hdirectory, ?_, hdirectory ▸ baseSegments_joined hnamed⟩
  rw [hdirectory, directorySegments]
  by_cases hempty : (document.bytes.splitOn 47).dropLast = []
  · rw [hempty]
    rfl
  rw [joined, splitOn_intercalate 47 (fun segment h => (hnamed segment h).2) hempty, filter_eq_self]
  intro segment hsegment
  simp only [Bool.not_eq_true', isEmpty_eq_false_iff]
  exact (hnamed segment hsegment).1

/-! ### Walking the written path -/

theorem stackSegment_dots (h : stack ≠ []) : stackSegment stack [46, 46] = .ok stack.dropLast := by
  have hdecoded : decodeComponent [46, 46] invalidPathByte = .ok [46, 46] := by decide
  unfold stackSegment
  simp only [hdecoded]
  rw [if_neg (by decide), if_pos trivial, if_neg h]

theorem stackSegment_dot (stack : List Bytes) : stackSegment stack [46] = .ok stack := by
  have hdecoded : decodeComponent [46] invalidPathByte = .ok [46] := by decide
  unfold stackSegment
  simp only [hdecoded]
  rw [if_pos trivial]

/-- As many `..` as there are segments above a beginning go up to it. -/
theorem foldlM_stackSegment_dots : ∀ {count : Nat}, count ≤ stack.length →
    (List.replicate count [46, 46]).foldlM stackSegment stack =
      .ok (stack.take (stack.length - count)) := by
  intro count
  induction count generalizing stack with
  | zero =>
    intro _
    rw [Nat.sub_zero, take_length]
    rfl
  | succ count ih =>
    intro hcount
    have hne : stack ≠ [] := by
      rintro rfl
      exact absurd hcount (Nat.not_succ_le_zero count)
    rw [replicate_succ, foldlM_cons, stackSegment_dots hne, ok_bind,
      ih (by rw [length_dropLast]; omega), length_dropLast,
      dropLast_eq_take, take_take]
    congr 2
    omega

/-- A byte that is written as it is read. -/
def plainByte (byte : UInt8) : Prop :=
  byte ≠ 37 ∧ byte ≠ 47 ∧ byte ≠ 92 ∧ ¬ (byte ≤ 31 ∨ byte = 127)

variable {text : Bytes}

theorem percentDecode_plain (h : 37 ∉ text) : percentDecode text = text := by
  induction text with
  | nil => rfl
  | cons byte rest ih =>
    rw [mem_cons, not_or] at h
    have hrest := ih h.2
    rw [percentDecode.eq_def]
    split
    · next heq => exact absurd (cons.inj heq).1.symm h.1
    · next byte' rest' _ heq =>
        rcases cons.inj heq with ⟨rfl, rfl⟩
        rw [hrest]
    · next heq => exact absurd heq (cons_ne_nil _ _)

theorem hasMalformedEscape_plain (h : 37 ∉ text) : hasMalformedEscape text = false := by
  induction text with
  | nil => rfl
  | cons byte rest ih =>
    rw [mem_cons, not_or] at h
    unfold hasMalformedEscape
    rw [ih h.2, beq_eq_false_iff_ne.mpr (Ne.symm h.1)]
    rfl

variable {byte : UInt8}

theorem invalidPathByte_plain (h : plainByte byte) : invalidPathByte byte = none := by
  rcases h with ⟨-, hslash, hback, hcontrol⟩
  unfold invalidPathByte
  rw [if_neg hslash, if_neg hback, if_neg hcontrol]

theorem decodeComponent_plain {segment : Bytes} (h : ∀ byte ∈ segment, plainByte byte) :
    decodeComponent segment invalidPathByte = .ok segment := by
  have hpercent : 37 ∉ segment := fun hmem => (h 37 hmem).1 rfl
  have hclean : segment.findSome? invalidPathByte = none := by
    rw [findSome?_eq_none_iff]
    intro byte hbyte
    exact invalidPathByte_plain (h byte hbyte)
  unfold decodeComponent
  rw [hasMalformedEscape_plain hpercent, if_neg Bool.false_ne_true, percentDecode_plain hpercent]
  simp only [hclean]

variable {segments : List Bytes}

theorem foldlM_stackSegment_names : ∀ {stack : List Bytes},
    (∀ segment ∈ segments, (∀ byte ∈ segment, plainByte byte) ∧ segment ≠ [46] ∧
      segment ≠ [46, 46]) →
    segments.foldlM stackSegment stack = .ok (stack ++ segments) := by
  induction segments with
  | nil =>
    intro stack _
    rw [append_nil]
    rfl
  | cons segment segments ih =>
    intro stack h
    rcases forall_mem_cons.mp h with ⟨⟨hplain, hdot, hdots⟩, hrest⟩
    have hpush : stackSegment stack segment = .ok (stack ++ [segment]) := by
      unfold stackSegment
      simp only [decodeComponent_plain hplain]
      rw [if_neg hdot, if_neg hdots]
    rw [foldlM_cons, hpush, ok_bind, ih hrest, append_assoc, singleton_append]

/-- The written path leads from the document's directory to the target. -/
theorem foldlM_stackSegment_relative {beside : Bytes} {target : RepoPath}
    (hplain : ∀ segment ∈ movedRest beside target.bytes, ∀ byte ∈ segment, plainByte byte) :
    (relativeSegments beside target.bytes).foldlM stackSegment (directorySegments beside) =
      .ok (target.bytes.splitOn 47) := by
  have hshared := sharedSegments_spec (directorySegments beside) (target.bytes.splitOn 47)
  have hups : (List.replicate ((directorySegments beside).length -
      sharedSegments (directorySegments beside) (target.bytes.splitOn 47))
        [46, 46]).foldlM stackSegment (directorySegments beside) = _ :=
    foldlM_stackSegment_dots (Nat.sub_le _ _)
  have hnames : ∀ segment ∈ movedRest beside target.bytes, (∀ byte ∈ segment, plainByte byte) ∧
      segment ≠ [46] ∧ segment ≠ [46, 46] := by
    intro segment hsegment
    have hnamed := target.named segment (mem_of_mem_drop hsegment)
    exact ⟨hplain segment hsegment, hnamed.noDot, hnamed.noDotDot⟩
  rw [Nat.sub_sub_self hshared.1, hshared.2] at hups
  rw [relativeSegments, foldlM_append, hups, ok_bind,
    foldlM_stackSegment_names hnames, movedRest, take_append_drop]

theorem foldlM_stackSegment_decodes : ∀ {stack last : List Bytes},
    segments.foldlM stackSegment stack = .ok last →
    ∀ segment ∈ segments, ∃ decoded, decodeComponent segment invalidPathByte = .ok decoded := by
  induction segments with
  | nil =>
    intro stack last _ segment hsegment
    cases hsegment
  | cons first segments ih =>
    intro stack last h
    rw [foldlM_cons] at h
    rcases bind_eq_ok.mp h with ⟨next, hfirst, hrest⟩
    refine forall_mem_cons.mpr ⟨?_, ih hrest⟩
    unfold stackSegment at hfirst
    split at hfirst
    · cases hfirst
    · next decoded hdecoded => exact ⟨decoded, hdecoded⟩

/-- A segment without escapes that decodes holds no refused byte. -/
theorem decodeComponent_unescaped {segment decoded : Bytes} (hpercent : 37 ∉ segment)
    (h : decodeComponent segment invalidPathByte = .ok decoded) :
    ∀ byte ∈ segment, ¬ (byte ≤ 31 ∨ byte = 127) := by
  unfold decodeComponent at h
  rw [hasMalformedEscape_plain hpercent, if_neg Bool.false_ne_true,
    percentDecode_plain hpercent] at h
  simp only at h
  split at h
  · cases h
  next hclean =>
  intro byte hbyte hcontrol
  have hnone := findSome?_eq_none_iff.mp hclean byte hbyte
  unfold invalidPathByte at hnone
  rw [if_pos hcontrol] at hnone
  split at hnone
  · cases hnone
  split at hnone
  · cases hnone
  · cases hnone

/-! ### Components -/

variable {mark : UInt8} {path : Bytes}

theorem splitOnce_append (h : mark ∉ path) (rest : Bytes) :
    splitOnce mark (path ++ rest) = (path ++ (splitOnce mark rest).1, (splitOnce mark rest).2) := by
  unfold splitOnce
  cases hcut : cutAt mark rest with
  | none =>
    have hwhole : cutAt mark (path ++ rest) = none := by
      rw [cutAt_eq_none_iff, mem_append, not_or]
      exact ⟨h, cutAt_eq_none_iff.mp hcut⟩
    rw [hwhole]
    rfl
  | some parts =>
    rcases cutAt_eq_some hcut with ⟨hrest, hbefore⟩
    have hwhole : cutAt mark (path ++ rest) = some (path ++ parts.1, parts.2) := by
      rw [cutAt_eq_some_iff, mem_append, not_or, hrest, append_assoc]
      exact ⟨rfl, h, hbefore⟩
    rw [hwhole]
    rfl

theorem splitOnce_cons (mark : UInt8) (rest : Bytes) :
    splitOnce mark (mark :: rest) = ([], some rest) := by
  rw [splitOnce, ← nil_append (mark :: rest), cutAt_append not_mem_nil]
  rfl

theorem splitOnce_shorter {behind : Bytes} (h : (splitOnce mark text).2 = some behind) :
    behind.length < text.length := by
  unfold splitOnce at h
  cases hcut : cutAt mark text with
  | none =>
    rw [hcut] at h
    cases h
  | some parts =>
    rw [hcut, Option.elim_some, Option.some.injEq] at h
    rw [(cutAt_eq_some hcut).1, length_append, length_cons, h]
    omega

/-- A mark in front changes what follows the first mark. -/
theorem splitOnce_mem (h : mark ∈ path) (rest : Bytes) :
    (splitOnce mark (path ++ rest)).2 ≠ (splitOnce mark rest).2 := by
  rcases eq_append_cons_of_mem h with ⟨before, after, rfl, hbefore⟩
  have hmarked : (splitOnce mark ((before ++ mark :: after) ++ rest)).2 = some (after ++ rest) := by
    rw [append_assoc, cons_append, splitOnce, cutAt_append hbefore]
    rfl
  rw [hmarked]
  intro hsame
  have hshorter := splitOnce_shorter hsame.symm
  rw [length_append] at hshorter
  omega

/-- What is behind the path of a destination. -/
def behindPath (text : Bytes) : Bytes := text.dropWhile (fun byte => byte ≠ 35 ∧ byte ≠ 63)

theorem splitComponents_append (hhash : 35 ∉ path) (hquery : 63 ∉ path) (rest : Bytes) :
    splitComponents (path ++ rest) =
      (path ++ (splitComponents rest).1, (splitComponents rest).2) := by
  simp only [splitComponents, splitOnce_append hhash, splitOnce_append hquery]

/-- The path keeps the query and the fragment behind it exactly where it holds
    no mark of theirs. -/
theorem splitComponents_append_iff {rest : Bytes} :
    (splitComponents (path ++ rest)).2 = (splitComponents rest).2 ↔ 35 ∉ path ∧ 63 ∉ path := by
  constructor
  · intro hsame
    have hhash : 35 ∉ path := by
      intro hmem
      exact splitOnce_mem hmem rest (Prod.ext_iff.mp hsame).2
    refine ⟨hhash, ?_⟩
    intro hmem
    have hquery := congrArg Prod.fst hsame
    simp only [splitComponents, splitOnce_append hhash] at hquery
    exact splitOnce_mem hmem (splitOnce 35 rest).1 hquery
  · rintro ⟨hhash, hquery⟩
    rw [splitComponents_append hhash hquery]

/-- Behind the path of a destination there is no path. -/
theorem splitComponents_behindPath (text : Bytes) : (splitComponents (behindPath text)).1 = [] := by
  unfold behindPath
  cases hrest : text.dropWhile (fun byte => byte ≠ 35 ∧ byte ≠ 63) with
  | nil => rfl
  | cons mark rest =>
    have hmark : mark = 35 ∨ mark = 63 := by
      have hhead := head?_dropWhile_not
        (fun byte : UInt8 => decide (byte ≠ 35 ∧ byte ≠ 63)) text
      rw [hrest] at hhead
      simp only [head?_cons, decide_eq_false_iff_not, not_and_or, not_not, ne_eq] at hhead
      exact hhead
    rcases hmark with rfl | rfl
    · simp only [splitComponents, splitOnce_cons]
      rfl
    · have hbefore : splitOnce 35 (63 :: rest) = (63 :: (splitOnce 35 rest).1,
          (splitOnce 35 rest).2) := by
        have h : (35 : UInt8) ∉ ([63] : Bytes) := by decide
        exact splitOnce_append h rest
      simp only [splitComponents, hbefore, splitOnce_cons]

/-! ### Reading the edited destination -/

variable (observation : Observation)

/-- The edited destination names the moved path, with the query and the
    fragment it had before. -/
def ReadsBack (moved : RepoPath) (isImage : Bool)
    (edit : FindingFix) : Prop :=
  (splitComponents (utf8 edit.replacement ++ behindPath (utf8 observation.rawDestination))).2 =
    (splitComponents (utf8 observation.rawDestination)).2 ∧
  ∃ kind, normalizedPathUnder (directory observation.document.bytes) isImage
    (splitComponents
      (utf8 edit.replacement ++ behindPath (utf8 observation.rawDestination))).1 = .ok (moved, kind)

/-- The path as the author wrote it begins in the document's own directory. -/
def dotted : Bool :=
  (utf8 observation.rawDestination).take 2 = [46, 47]

theorem take_takeWhile_dotted :
    ((utf8 observation.rawDestination).takeWhile (fun byte => byte ≠ 35 ∧ byte ≠ 63)).take 2 =
      [46, 47] ↔ dotted observation = true := by
  have hbegins : ∀ text : Bytes, text.take 2 = [46, 47] ↔ [46, 47] <+: text := by
    intro text
    rw [prefix_iff_eq_take]
    exact eq_comm
  unfold dotted
  rw [decide_eq_true_eq, hbegins, hbegins]
  constructor
  · intro h
    refine h.trans ?_
    exact takeWhile_prefix _
  intro h
  refine isPrefix_takeWhile ?_ h
  intro byte hbyte
  simp only [mem_cons, not_mem_nil, or_false] at hbyte
  rcases hbyte with rfl | rfl
  · rfl
  · rfl

variable {moved : RepoPath}

/-- What an offered edit says of the paths: both are plain, and the edit is
    the relative path, behind a dot where the author began with one. -/
theorem relocationFix_eq_some {observation : Observation} {edit : FindingFix}
    (h : relocationFix observation moved = some edit) :
    (∀ byte ∈ moved.bytes, byte ≠ 37 ∧ byte ≠ 92) ∧
      utf8 edit.replacement =
        if dotted observation ∧
            (joined (relativeSegments (directory observation.document.bytes) moved.bytes)).take 3 ≠
              [46, 46, 47] then
          46 :: 47 ::
            joined (relativeSegments (directory observation.document.bytes) moved.bytes)
        else joined (relativeSegments (directory observation.document.bytes) moved.bytes) := by
  unfold relocationFix at h
  simp only [Option.bind_eq_bind, Option.bind_eq_some_iff, Option.pure_def, Option.some.injEq,
    Option.guard_eq_some'] at h
  rcases h with ⟨span, -, text, -, -, ⟨-, hplain⟩, reached, -, -, -, beside, -, replacement,
    hreplacement, path, -, rfl⟩
  constructor
  · intro byte hbyte
    simp only [plainSpelling, Bool.and_eq_true, all_eq_true, decide_eq_true_eq] at hplain
    have hallowed := hplain.2 byte hbyte
    simp only [mem_cons, not_mem_nil, or_false, not_or] at hallowed
    exact ⟨hallowed.1, hallowed.2.2.2.2.2.2.1⟩
  · rw [textOf_eq_some] at hreplacement
    rw [← hreplacement, relativeSpelling_eq]
    simp only [take_takeWhile_dotted]

variable {isImage : Bool}

/-- The edit reads back exactly where the text it wrote holds no mark of a
    query or a fragment and names the moved path. -/
theorem readsBack_iff {observation : Observation} {edit : FindingFix} :
    ReadsBack observation moved isImage edit ↔
      (35 ∉ utf8 edit.replacement ∧ 63 ∉ utf8 edit.replacement) ∧
      ∃ kind, normalizedPathUnder (directory observation.document.bytes) isImage
        (utf8 edit.replacement) = .ok (moved, kind) := by
  have hbefore : (splitComponents (utf8 observation.rawDestination)).2 =
      (splitComponents (behindPath (utf8 observation.rawDestination))).2 := by
    have hsplit : utf8 observation.rawDestination =
        (utf8 observation.rawDestination).takeWhile (fun byte => byte ≠ 35 ∧ byte ≠ 63) ++
          behindPath (utf8 observation.rawDestination) := takeWhile_append_dropWhile.symm
    have hunmarked : ∀ mark : UInt8, mark = 35 ∨ mark = 63 → mark ∉
        (utf8 observation.rawDestination).takeWhile (fun byte => byte ≠ 35 ∧ byte ≠ 63) := by
      intro mark hmark hmem
      have hkept := mem_takeWhile_imp hmem
      rw [decide_eq_true_eq] at hkept
      rcases hmark with rfl | rfl
      · exact hkept.1 rfl
      · exact hkept.2 rfl
    conv_lhs => rw [hsplit]
    exact splitComponents_append_iff.mpr ⟨hunmarked 35 (Or.inl rfl), hunmarked 63 (Or.inr rfl)⟩
  unfold ReadsBack
  rw [hbefore, splitComponents_append_iff]
  refine and_congr_right ?_
  rintro ⟨hhash, hquery⟩
  rw [splitComponents_append hhash hquery, splitComponents_behindPath, append_nil]

/-! ### The bytes of the written path -/

theorem relativeSegments_named (beside : Bytes) (moved : RepoPath) :
    ∀ segment ∈ relativeSegments beside moved.bytes, segment ≠ [] ∧ 47 ∉ segment := by
  intro segment hsegment
  rcases mem_append.mp hsegment with hup | hdown
  · rw [(mem_replicate.mp hup).2]
    exact ⟨by decide, by decide⟩
  · have hmem := mem_of_mem_drop hdown
    exact ⟨(moved.named segment hmem).nonempty, notMem_of_mem_splitOn segment hmem⟩

theorem mem_joined (h : ∀ segment ∈ stack, 47 ∉ segment) (hbyte : byte ≠ 47) :
    byte ∈ joined stack ↔ ∃ segment ∈ stack, byte ∈ segment := by
  by_cases hempty : stack = []
  · rw [hempty]
    simp [joined]
  have hsplit : (joined stack).splitOn 47 = stack := splitOn_intercalate 47 h hempty
  constructor
  · intro hmem
    rcases exists_mem_splitOn hmem hbyte with ⟨segment, hsegment, hin⟩
    exact ⟨segment, hsplit ▸ hsegment, hin⟩
  · rintro ⟨segment, hsegment, hin⟩
    rw [← hsplit] at hsegment
    exact mem_of_mem_splitOn segment hsegment hin

/-- Besides dots, the written segments hold the bytes of the rest of the moved
    path. -/
theorem mem_relativeSegments {beside : Bytes} (hdot : byte ≠ 46) :
    (∃ segment ∈ relativeSegments beside moved.bytes, byte ∈ segment) ↔
      ∃ segment ∈ movedRest beside moved.bytes, byte ∈ segment := by
  constructor
  · rintro ⟨segment, hsegment, hbyte⟩
    rcases mem_append.mp hsegment with hup | hdown
    · rw [(mem_replicate.mp hup).2] at hbyte
      simp only [mem_cons, not_mem_nil, or_false, or_self] at hbyte
      exact absurd hbyte hdot
    · exact ⟨segment, hdown, hbyte⟩
  · rintro ⟨segment, hsegment, hbyte⟩
    exact ⟨segment, mem_append_right _ hsegment, hbyte⟩

theorem sharedSegments_self (segments : List Bytes) :
    sharedSegments segments segments = segments.length := by
  induction segments with
  | nil => rfl
  | cons segment segments ih => rw [sharedSegments, if_pos rfl, ih, length_cons]

theorem RepoPath.joined_segments (path : RepoPath) : joined (path.bytes.splitOn 47) = path.bytes :=
  intercalate_splitOn 47

/-- Nothing is written exactly where the moved path is the directory itself. -/
theorem relativeSegments_eq_nil_iff (document moved : RepoPath) :
    relativeSegments (directory document.bytes) moved.bytes = [] ↔
      moved.bytes = directory document.bytes := by
  rcases directory_segments document with ⟨hdirectory, hsegments, -⟩
  constructor
  · intro hempty
    rcases append_eq_nil_iff.mp hempty with ⟨hups, hrest⟩
    have htake := (sharedSegments_spec (directorySegments (directory document.bytes))
      (moved.bytes.splitOn 47)).2
    have hup : (directorySegments (directory document.bytes)).length ≤ sharedSegments
        (directorySegments (directory document.bytes)) (moved.bytes.splitOn 47) := by
      rw [replicate_eq_nil_iff] at hups
      omega
    have hdown := drop_eq_nil_iff.mp hrest
    rw [take_of_length_le hup, take_of_length_le hdown, hsegments] at htake
    rw [← moved.joined_segments, ← htake, hdirectory]
  · intro hsame
    have hself : directorySegments (directory document.bytes) = moved.bytes.splitOn 47 := by
      rw [directorySegments, ← hsame, filter_eq_self]
      intro segment hsegment
      simp only [Bool.not_eq_true', isEmpty_eq_false_iff]
      exact (moved.named segment hsegment).nonempty
    rw [relativeSegments, movedRest, hself, sharedSegments_self, Nat.sub_self, drop_length]
    rfl

/-- A path of names is split into them, and promises no directory. -/
theorem textSegments_joined (hne : stack ≠ [])
    (h : ∀ segment ∈ stack, segment ≠ [] ∧ 47 ∉ segment) :
    textSegments (joined stack) = stack ∧ promisesTree (joined stack) = false := by
  have hlast : (joined stack).getLast? ≠ some 47 := by
    rcases eq_nil_or_concat' stack with rfl | ⟨init, last, rfl⟩
    · exact absurd rfl hne
    rcases h last (mem_append_right _ (mem_singleton.mpr rfl)) with ⟨hnamed, hslash⟩
    have hends : (joined (init ++ [last])).getLast? = last.getLast? := by
      by_cases hinit : init = []
      · rw [hinit, nil_append, joined_singleton]
      · rw [joined_concat hinit, ← singleton_append, ← append_assoc,
          getLast?_append_of_ne_nil _ hnamed]
    rw [hends]
    intro hslashed
    exact hslash (mem_of_getLast? hslashed)
  constructor
  · rw [textSegments, if_neg hlast]
    exact splitOn_intercalate 47 (fun segment hsegment => (h segment hsegment).2) hne
  · rw [promisesTree, beq_eq_false_iff_ne.mpr hlast, Bool.and_false]

/-! ### Reading the written path -/

variable {base : Bytes}

/-- A walk over names that ends at a path names it. -/
theorem stackPath_eq_ok (hback : 92 ∉ text) (hfilled : [] ∉ textSegments text)
    (himage : ¬ (promisesTree text = true ∧ isImage = true))
    (hwalk : (textSegments text).foldlM stackSegment (baseSegments base) =
      .ok (moved.bytes.splitOn 47)) :
    ∃ kind, stackPath base isImage text = .ok (moved, kind) := by
  have hnonempty : moved.bytes.splitOn 47 ≠ [] := splitOn_ne_nil _ _
  unfold stackPath
  rw [if_neg hback, if_neg (not_or.mpr ⟨hfilled, himage⟩), hwalk]
  simp only [hnonempty, false_and, if_false, moved.joined_segments, fromBytes_eq_some.mpr rfl]
  exact ⟨_, rfl⟩

theorem foldlM_of_stackPath_eq_ok {kind : TargetKind}
    (h : stackPath base isImage text = .ok (moved, kind)) :
    [] ∉ textSegments text ∧ ¬ (promisesTree text = true ∧ isImage = true) ∧
      ∃ last, (textSegments text).foldlM stackSegment (baseSegments base) = .ok last := by
  rcases guard_eq_ok.mp (guard_eq_ok.mp h).2 with ⟨hwalkable, h⟩
  split at h
  · cases h
  next last hlast =>
  exact ⟨(not_or.mp hwalkable).1, (not_or.mp hwalkable).2, last, hlast⟩

/-- Where something is written, with or without a dot in front, it names the
    moved path exactly where the bytes it spells read as themselves. -/
theorem written_names_iff {beside : Bytes}
    (hbeside : directorySegments beside = baseSegments beside)
    (hplain : ∀ byte ∈ moved.bytes, byte ≠ 37 ∧ byte ≠ 92)
    (hne : relativeSegments beside moved.bytes ≠ [])
    (hsegments : segments = relativeSegments beside moved.bytes ∨
      segments = [46] :: relativeSegments beside moved.bytes) :
    ((35 ∉ joined segments ∧ 63 ∉ joined segments) ∧
      ∃ kind, stackPath beside isImage (joined segments) = .ok (moved, kind)) ↔
      ∀ segment ∈ movedRest beside moved.bytes,
        ∀ byte ∈ segment, byte ≠ 35 ∧ byte ≠ 63 ∧ ¬ (byte ≤ 31 ∨ byte = 127) := by
  have hnamed : ∀ segment ∈ segments, segment ≠ [] ∧ 47 ∉ segment := by
    rcases hsegments with rfl | rfl
    · exact relativeSegments_named _ moved
    · exact forall_mem_cons.mpr ⟨⟨by decide, by decide⟩, relativeSegments_named _ moved⟩
  have hnonempty : segments ≠ [] := by
    rcases hsegments with rfl | rfl
    · exact hne
    · exact cons_ne_nil _ _
  have hmem : ∀ byte : UInt8, byte ≠ 47 → byte ≠ 46 → (byte ∈ joined segments ↔
      ∃ segment ∈ movedRest beside moved.bytes, byte ∈ segment) := by
    intro byte hslash hdot
    rw [← mem_relativeSegments hdot,
      mem_joined (fun segment hsegment => (hnamed segment hsegment).2) hslash]
    rcases hsegments with rfl | rfl
    · rfl
    · simp [hdot]
  have hrest : ∀ segment ∈ movedRest beside moved.bytes, segment ∈ segments := by
    intro segment hsegment
    have hrelative := mem_append_right (List.replicate
      ((directorySegments beside).length - sharedSegments
        (directorySegments beside) (moved.bytes.splitOn 47)) [46, 46]) hsegment
    rcases hsegments with rfl | rfl
    · exact hrelative
    · exact mem_cons_of_mem _ hrelative
  have hbytes : ∀ segment ∈ movedRest beside moved.bytes,
      ∀ byte ∈ segment, byte ∈ moved.bytes := by
    intro segment hsegment byte hbyte
    exact mem_of_mem_splitOn segment (mem_of_mem_drop hsegment) hbyte
  rcases textSegments_joined hnonempty hnamed with ⟨htext, htree⟩
  constructor
  · rintro ⟨⟨hhash, hquery⟩, kind, hpath⟩ segment hsegment byte hbyte
    rcases foldlM_of_stackPath_eq_ok hpath with ⟨-, -, last, hwalk⟩
    rw [htext] at hwalk
    refine ⟨?_, ?_, ?_⟩
    · rintro rfl
      exact hhash ((hmem 35 (by decide) (by decide)).mpr ⟨segment, hsegment, hbyte⟩)
    · rintro rfl
      exact hquery ((hmem 63 (by decide) (by decide)).mpr ⟨segment, hsegment, hbyte⟩)
    rcases foldlM_stackSegment_decodes hwalk segment (hrest segment hsegment) with
      ⟨decoded, hdecoded⟩
    have hpercent : 37 ∉ segment := by
      intro hescape
      exact (hplain 37 (hbytes segment hsegment 37 hescape)).1 rfl
    exact decodeComponent_unescaped hpercent hdecoded byte hbyte
  · intro hclean
    have hunmarked : ∀ mark : UInt8, mark = 35 ∨ mark = 63 → mark ∉ joined segments := by
      rintro mark hmark hin
      have hother : mark ≠ 47 ∧ mark ≠ 46 := by rcases hmark with rfl | rfl <;> decide
      rcases (hmem mark hother.1 hother.2).mp hin with ⟨segment, hsegment, hbyte⟩
      rcases hclean segment hsegment mark hbyte with ⟨hhash, hquery, -⟩
      exact hmark.elim hhash hquery
    have hback : 92 ∉ joined segments := by
      intro hin
      rcases (hmem 92 (by decide) (by decide)).mp hin with ⟨segment, hsegment, hbyte⟩
      exact (hplain 92 (hbytes segment hsegment 92 hbyte)).2 rfl
    have hreads : ∀ segment ∈ movedRest beside moved.bytes,
        ∀ byte ∈ segment, plainByte byte := by
      intro segment hsegment byte hbyte
      rcases hplain byte (hbytes segment hsegment byte hbyte) with ⟨hpercent, hbackslash⟩
      refine ⟨hpercent, ?_, hbackslash, (hclean segment hsegment byte hbyte).2.2⟩
      rintro rfl
      exact notMem_of_mem_splitOn segment (mem_of_mem_drop hsegment) hbyte
    have hwalk : segments.foldlM stackSegment (baseSegments beside) =
        .ok (moved.bytes.splitOn 47) := by
      have hrelative := foldlM_stackSegment_relative hreads
      rw [hbeside] at hrelative
      rcases hsegments with rfl | rfl
      · exact hrelative
      · rw [foldlM_cons, stackSegment_dot, ok_bind]
        exact hrelative
    refine ⟨⟨hunmarked 35 (Or.inl rfl), hunmarked 63 (Or.inr rfl)⟩, ?_⟩
    refine stackPath_eq_ok hback ?_ ?_ ?_
    · rw [htext]
      intro hempty
      exact (hnamed [] hempty).1 rfl
    · rw [htree]
      exact fun hpromise => Bool.false_ne_true hpromise.1
    · rw [htext]
      exact hwalk

/-- Where nothing is written, a dot in front still names the directory. -/
theorem dot_names_iff {document : RepoPath} (hsame : moved.bytes = directory document.bytes) :
    (∃ kind, stackPath (directory document.bytes) isImage [46, 47] = .ok (moved, kind)) ↔
      isImage = false := by
  have hsegments : textSegments [46, 47] = [[46]] := by decide
  have htree : promisesTree [46, 47] = true := by decide
  constructor
  · rintro ⟨kind, hpath⟩
    rcases foldlM_of_stackPath_eq_ok hpath with ⟨-, himage, -⟩
    rw [htree] at himage
    exact Bool.eq_false_of_not_eq_true (fun h => himage ⟨rfl, h⟩)
  · rintro rfl
    refine stackPath_eq_ok (by decide) (by rw [hsegments]; decide) ?_ ?_
    · exact fun hpromise => Bool.false_ne_true hpromise.2
    · rw [hsegments, foldlM_cons, stackSegment_dot, ok_bind, ← hsame, moved.baseSegments_eq]
      rfl

theorem empty_names_nothing : ¬ ∃ kind, stackPath base isImage [] = .ok (moved, kind) := by
  rintro ⟨kind, hpath⟩
  exact (foldlM_of_stackPath_eq_ok hpath).1 (by decide)

/-- An offered edit reads back exactly where the bytes of the moved path that
    it spells are no marks of a query or a fragment and no control bytes, and
    the moved path is not the document's own directory, unless the author
    wrote a dot for that directory and the reference is no image. -/
theorem relocationFix_readsBack_iff {observation : Observation} {moved : RepoPath}
    {isImage : Bool} {edit : FindingFix} (h : relocationFix observation moved = some edit) :
    ReadsBack observation moved isImage edit ↔
      (∀ segment ∈ movedRest (directory observation.document.bytes) moved.bytes,
        ∀ byte ∈ segment, byte ≠ 35 ∧ byte ≠ 63 ∧ ¬ (byte ≤ 31 ∨ byte = 127)) ∧
      (moved.bytes ≠ directory observation.document.bytes ∨
        (dotted observation = true ∧ isImage = false)) := by
  rcases relocationFix_eq_some h with ⟨hplain, hreplacement⟩
  have hnil := relativeSegments_eq_nil_iff observation.document moved
  rw [readsBack_iff, normalizedPathUnder_eq_stackPath, hreplacement]
  by_cases hsame : moved.bytes = directory observation.document.bytes
  · -- Nothing is written behind the dot, if there is one.
    have hempty := hnil.mpr hsame
    have hrest : movedRest (directory observation.document.bytes) moved.bytes = [] :=
      (append_eq_nil_iff.mp hempty).2
    have hnothing : joined ([] : List Bytes) = [] := rfl
    rw [hempty, hrest, hnothing]
    simp only [not_mem_nil, false_implies, implies_true, true_and, hsame, ne_eq,
      not_true_eq_false, false_or]
    by_cases hdotted : dotted observation = true
    · rw [if_pos ⟨hdotted, by decide⟩, dot_names_iff hsame]
      simp only [hdotted, true_and, and_iff_right_iff_imp]
      exact fun _ => ⟨by decide, by decide⟩
    · rw [if_neg (fun hboth => hdotted hboth.1)]
      simp only [hdotted, Bool.false_eq_true, false_and, iff_false]
      rintro ⟨-, hnamed⟩
      exact empty_names_nothing hnamed
  · have hne : relativeSegments (directory observation.document.bytes) moved.bytes ≠ [] :=
      fun hempty => hsame (hnil.mp hempty)
    rcases directory_segments observation.document with ⟨-, hdirectory, hbase⟩
    have hbeside := hdirectory.trans hbase.symm
    simp only [ne_eq, hsame, not_false_eq_true, true_or, and_true]
    split
    · have hdot : 46 :: 47 ::
          joined (relativeSegments (directory observation.document.bytes) moved.bytes) =
          joined ([46] :: relativeSegments (directory observation.document.bytes)
            moved.bytes) := by
        rw [joined, joined, intercalate_cons_of_ne_nil hne]
        rfl
      rw [hdot]
      exact written_names_iff hbeside hplain hne (Or.inr rfl)
    · exact written_names_iff hbeside hplain hne (Or.inl rfl)

/-- A reference beside its document to a file that was moved. -/
def movedReference : Observation where
  id := ⟨0⟩
  document := ⟨utf8 "docs/a.md", by decide⟩
  span := (0, 12)
  display := ⟨1, 1, 1, 13⟩
  adapter := .markdown
  construct := .inlineLink
  intent := ⟨.repositoryPath, none, some ⟨utf8 "docs/old.md", by decide⟩, some .either, none, none,
    some "top"⟩
  rawDestination := "old.md#top"
  rawDestinationDigest := ⟨0⟩
  projectionDigest := ⟨0⟩
  resolution := .missing (.pathNotFound ⟨utf8 "docs/old.md", by decide⟩ none none)
  fragmentSpan := none
  pathSpan := some (3, 9)

/-- A file moved within its directory is written by its name. -/
theorem relocationFix_readsBack_iff_moved :
    ∃ edit, relocationFix movedReference ⟨utf8 "docs/new.md", by decide⟩ = some edit ∧
      ReadsBack movedReference ⟨utf8 "docs/new.md", by decide⟩ false edit := by
  have hoffered : (relocationFix movedReference ⟨utf8 "docs/new.md", by decide⟩).isSome = true := by
    decide +kernel
  rcases Option.isSome_iff_exists.mp hoffered with ⟨edit, hedit⟩
  refine ⟨edit, hedit, (relocationFix_readsBack_iff hedit).mpr ⟨?_, Or.inl ?_⟩⟩
  · decide +kernel
  · decide +kernel

/-- A file moved to a name with a mark in it is written by that name, and what
    follows the mark is read as a fragment. -/
theorem relocationFix_marked_misread :
    ∃ edit, relocationFix movedReference ⟨utf8 "docs/c#.md", by decide⟩ = some edit ∧
      ¬ ReadsBack movedReference ⟨utf8 "docs/c#.md", by decide⟩ false edit := by
  have hoffered : (relocationFix movedReference ⟨utf8 "docs/c#.md", by decide⟩).isSome = true := by
    decide +kernel
  rcases Option.isSome_iff_exists.mp hoffered with ⟨edit, hedit⟩
  have hwritten := (relocationFix_eq_some hedit).2
  have hmarked : 35 ∈ utf8 edit.replacement := by
    rw [hwritten]
    decide +kernel
  refine ⟨edit, hedit, ?_⟩
  rw [readsBack_iff]
  rintro ⟨⟨hhash, -⟩, -⟩
  exact hhash hmarked

end Amiss
