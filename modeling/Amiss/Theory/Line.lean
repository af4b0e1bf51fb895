import Amiss.Core.Line

/-!
# Selected Lines Are Lines

Both selectors are compared with the lines of the file, cut by the library: a
range selects lines by their numbers, and a region selects the lines between the
only two that are the markers.

A region is searched by occurrences, not by lines. The two agree because a
marker holds no line ending: an occurrence never crosses a line, so the search
arrives at every line start with nothing of an earlier occurrence left, and an
occurrence at a line start that an ending follows is the whole line. An empty
marker has no such argument, and the search finds it in places that are no line.

## Main definitions

* `markedLines`: The lines that are a marker, as positions.
* `referenceRegion`: The region, read off the lines.

## Theorems

* `selectedLineBytes_lines`: A range selects its lines.
* `namedRegionBytes_reference`: A region is what the lines say.
-/

namespace Amiss

open List

/-! ### The scanner -/

/-- The positions of lines that follow each other. -/
def positions (start : Nat) : List Bytes → List (Nat × Nat)
  | [] => []
  | line :: lines => (start, start + line.length) :: positions (start + line.length) lines

theorem scanLinesFrom_eq (line rest : Bytes) (start : Nat) :
    scanLinesFrom start (start + line.length) rest =
      positions start (splitLinesFrom line rest) := by
  induction line, rest using splitLinesFrom.induct generalizing start with
  | case1 => simp [scanLinesFrom, splitLinesFrom, positions]
  | case2 line hne =>
    have hpos := length_pos_iff.mpr hne
    simp [scanLinesFrom, splitLinesFrom, positions, hne, hpos]
  | case3 line rest ih =>
    have hnext := ih (start + (line.length + 2))
    simp only [length_nil, Nat.add_zero] at hnext
    simp [scanLinesFrom, splitLinesFrom, positions, hnext, Nat.add_assoc]
  | case4 line byte rest hpair hbreak ih =>
    have hends : byte = 10 ∨ byte = 13 := by simpa [isBreak] using hbreak
    have hnext := ih (start + (line.length + 1))
    simp only [length_nil, Nat.add_zero] at hnext
    rw [scanLinesFrom, splitLinesFrom, if_pos hbreak, if_pos hends, positions,
      length_append, length_singleton, Nat.add_assoc, hnext]
    all_goals exact hpair
  | case5 line byte rest hpair hbreak ih =>
    have hends : ¬ (byte = 10 ∨ byte = 13) := by simpa [isBreak] using hbreak
    have hnext := ih start
    rw [length_append, length_singleton, ← Nat.add_assoc] at hnext
    rw [scanLinesFrom, splitLinesFrom, if_neg hbreak, if_neg hends, hnext]
    all_goals exact hpair

theorem scanLines_eq (source : Bytes) : scanLines source = positions 0 (splitLines source) :=
  scanLinesFrom_eq [] source 0

/-! ### Ranges -/

/-- Lines that follow each other, cut out of what they are lines of. -/
theorem slice_flatten (lines : List Bytes) {start stop : Nat} (h : start ≤ stop) :
    slice lines.flatten (lines.take start).flatten.length (lines.take stop).flatten.length =
      some ((lines.take stop).drop start).flatten := by
  have hcut : lines.take start ++ (lines.take stop).drop start = lines.take stop := by
    have hparts := take_append_drop start (lines.take stop)
    rwa [take_take, Nat.min_eq_left h] at hparts
  have hsplit : lines.flatten = (lines.take start).flatten ++
      (((lines.take stop).drop start).flatten ++ (lines.drop stop).flatten) := by
    rw [← append_assoc, ← flatten_append, hcut, ← flatten_append, take_append_drop]
  have hlength : (lines.take start).flatten.length + ((lines.take stop).drop start).flatten.length =
      (lines.take stop).flatten.length := by
    rw [← length_append, ← flatten_append, hcut]
  rw [hsplit]
  exact slice_append _ _ rfl hlength

/-- The walk over the lines that are left, where so many came before. -/
theorem selectLines_eq (source : Bytes) (range : LineRange) (before lines : List Bytes)
    (selection : Option Nat) (hsource : source = (before ++ lines).flatten)
    (hselection : selection = if 1 ≤ range.first ∧ range.first ≤ before.length then
      some (((before ++ lines).take (range.first - 1)).flatten.length) else none)
    (hlast : before.length < range.last ∨ range.last = 0) :
    selectLines source range before.length selection (positions before.flatten.length lines) =
      if 1 ≤ range.first ∧ range.first ≤ range.last ∧ range.last ≤ (before ++ lines).length then
        some (((before ++ lines).take range.last).drop (range.first - 1)).flatten
      else none := by
  induction lines generalizing before selection with
  | nil =>
    rw [positions, selectLines, if_neg]
    rintro ⟨hfirst, hrange, hwithin⟩
    rw [append_nil] at hwithin
    omega
  | cons line lines ih =>
    have happend : before ++ line :: lines = (before ++ [line]) ++ lines := by simp
    have hnext : (before ++ [line]).flatten.length = before.flatten.length + line.length := by simp
    have hcount : (before ++ [line]).length = before.length + 1 := by simp
    -- Where the first selected line starts, once this one is seen.
    have hseen : (if before.length + 1 = range.first then some before.flatten.length
        else selection) = if 1 ≤ range.first ∧ range.first ≤ (before ++ [line]).length then
          some ((((before ++ [line]) ++ lines).take (range.first - 1)).flatten.length)
        else none := by
      rw [hselection, hcount, happend]
      by_cases hhere : before.length + 1 = range.first
      · rw [if_pos hhere, if_pos (by omega), ← hhere]
        simp
      · rw [if_neg hhere]
        refine if_congr ?_ rfl rfl
        omega
    rw [positions, selectLines]
    dsimp only
    rw [hseen]
    by_cases hend : before.length + 1 = range.last
    · rw [if_pos hend]
      by_cases hfirst : 1 ≤ range.first ∧ range.first ≤ range.last
      · have hstop : before.flatten.length + line.length =
            (((before ++ [line]) ++ lines).take range.last).flatten.length := by
          rw [← hend, ← hcount, take_left, hnext]
        rw [if_pos (by omega), Option.bind_some, hstop, hsource, happend,
          slice_flatten _ (by omega), if_pos]
        simp
        omega
      · rw [if_neg (by omega), if_neg (by tauto)]
        rfl
    · rw [if_neg hend, ← hcount, ← hnext, ih (before ++ [line]) _ (by rw [hsource, happend]) rfl
        (by omega), happend]

/-- The lines of a range put together, where the range is one of lines. -/
theorem selectedLineBytes_eq (source : Bytes) (range : LineRange) :
    selectedLineBytes source range =
      if 1 ≤ range.first ∧ range.first ≤ range.last ∧ range.last ≤ (splitLines source).length then
        some (((splitLines source).take range.last).drop (range.first - 1)).flatten
      else none := by
  unfold selectedLineBytes
  rw [scanLines_eq]
  refine selectLines_eq source range [] (splitLines source) none (flatten_splitLines source).symm
    (if_neg ?_).symm ?_
  · rw [length_nil]
    omega
  · rw [length_nil]
    omega

/-- Some of the first lines, and the lines after them, are the lines of what they
    make up. -/
theorem splitLines_parts (text : Bytes) (count : Nat) :
    splitLines ((splitLines text).take count).flatten = (splitLines text).take count ∧
      splitLines ((splitLines text).drop count).flatten = (splitLines text).drop count := by
  induction text using lines_induction generalizing count with
  | nil => simp [show splitLines [] = [] from rfl]
  | last content hne hplain =>
    have halone := splitLines_last hne hplain
    cases count <;> simp [halone, show splitLines [] = [] from rfl]
  | line content ending rest hplain hending ih =>
    have hline := splitLines_line hplain hending
    cases count with
    | zero =>
      rw [drop_zero, flatten_splitLines]
      exact ⟨rfl, rfl⟩
    | succ count =>
      have hmeets : Ending ending ((splitLines rest).take count).flatten := by
        have hparts := congrArg flatten (take_append_drop count (splitLines rest))
        rw [flatten_append, flatten_splitLines] at hparts
        exact hending.mono ⟨_, hparts⟩
      rw [hline, take_succ_cons, drop_succ_cons, flatten_cons,
        append_assoc, splitLines_line hplain hmeets, (ih count).1]
      exact ⟨rfl, (ih count).2⟩

/-- A range selects exactly its lines, endings included. It selects nothing when
    it starts before the first line, is reversed, or ends past the last line.
    Other bytes before and after the lines change nothing, as long as they are
    the same number of lines and neither seam joins lines. -/
theorem selectedLineBytes_lines (source : Bytes) (first last : Nat) :
    (∀ bytes, selectedLineBytes source ⟨first, last⟩ = some bytes →
      bytes = (((splitLines source).take last).drop (first - 1)).flatten) ∧
    (selectedLineBytes source ⟨first, last⟩ = none ↔
      first = 0 ∨ last < first ∨ (splitLines source).length < last) ∧
    ∀ bytes before after, selectedLineBytes source ⟨first, last⟩ = some bytes →
      Cut before (bytes ++ after) → Cut bytes after → (splitLines before).length + 1 = first →
      selectedLineBytes (before ++ (bytes ++ after)) ⟨first, last⟩ = some bytes := by
  have hselected : ∀ bytes, selectedLineBytes source ⟨first, last⟩ = some bytes →
      (1 ≤ first ∧ first ≤ last ∧ last ≤ (splitLines source).length) ∧
        bytes = (((splitLines source).take last).drop (first - 1)).flatten := by
    intro bytes h
    rw [selectedLineBytes_eq] at h
    split at h
    next hrange => exact ⟨hrange, (Option.some.inj h).symm⟩
    next => cases h
  refine ⟨fun bytes h => (hselected bytes h).2, ?_, ?_⟩
  · rw [selectedLineBytes_eq, ite_eq_right_iff]
    simp only [reduceCtorEq, imp_false]
    omega
  · intro bytes before after h hbefore hafter hcount
    rcases hselected bytes h with ⟨hrange, hbytes⟩
    -- The selected lines are the lines of the selected bytes.
    have hlines : splitLines bytes = ((splitLines source).take last).drop (first - 1) := by
      have htake := (splitLines_parts source last).1
      rw [hbytes, ← htake, (splitLines_parts _ (first - 1)).2]
    have hlength : (splitLines bytes).length = last - (first - 1) := by
      rw [hlines, length_drop, length_take]
      omega
    rw [selectedLineBytes_eq, splitLines_append hbefore, splitLines_append hafter]
    rw [if_pos ⟨hrange.1, hrange.2.1, by simp only [length_append]; omega⟩]
    have hstart : first - 1 = (splitLines before).length := by omega
    have hstop : last = (splitLines before).length + (splitLines bytes).length := by omega
    rw [hstart, hstop, take_length_add_append, drop_left, take_left, flatten_splitLines]

/-- A line feed behind a selected carriage return joins the line, and a range
    from line zero selects nothing. -/
theorem selectedLineBytes_joined :
    (¬ ∀ source bytes after : Bytes, selectedLineBytes source ⟨1, 1⟩ = some bytes →
      selectedLineBytes (bytes ++ after) ⟨1, 1⟩ = some bytes) ∧
    ¬ ∀ (source : Bytes) (first last : Nat), selectedLineBytes source ⟨first, last⟩ = none ↔
      last < first ∨ (splitLines source).length < last := by
  refine ⟨fun h => ?_, fun h => ?_⟩
  · exact absurd (h [97, 13, 98] [97, 13] [10] (by decide)) (by decide)
  · exact absurd ((h [97] 0 1).mp (by decide)) (by decide)

/-! ### Named regions -/

/-- The lines that are a marker: where each starts, and what follows it. -/
def markedLines (marker : Bytes) (start : Nat) : List Bytes → List (Nat × Nat)
  | [] => []
  | line :: lines =>
    (if lineContent line = marker then [(start, start + line.length)] else []) ++
      markedLines marker (start + line.length) lines

section markers

variable {marker : Bytes} (hne : marker ≠ []) (hmarker : ∀ byte ∈ marker, isBreak byte = false)

include hne hmarker

variable {content : Bytes}

/-- Without line endings in it, a marker that fits into a line and what follows
    fits into the line. -/
theorem isPrefixOf_content {tail : Bytes} (htail : ∀ byte ∈ tail.head?, isBreak byte = true) :
    marker.isPrefixOf (content ++ tail) = marker.isPrefixOf content := by
  rw [Bool.eq_iff_iff, isPrefixOf_iff_prefix, isPrefixOf_iff_prefix]
  refine ⟨fun h => ?_, fun h => h.trans (prefix_append _ _)⟩
  rcases prefix_or_prefix_of_prefix h (prefix_append content tail) with h' | h'
  · exact h'
  rcases h' with ⟨later, rfl⟩
  cases later with
  | nil => simp
  | cons byte later =>
    -- The marker would hold the ending.
    rw [prefix_append_right_inj] at h
    rcases h with ⟨after, rfl⟩
    have hbreak := htail byte (by simp)
    rw [hmarker byte (by simp)] at hbreak
    cases hbreak

/-- Behind the content of a line the search starts anew. -/
theorem findIter_content (content tail : Bytes) (skip position : Nat)
    (hskip : skip ≤ content.length) (htail : ∀ byte ∈ tail.head?, isBreak byte = true) :
    findIter marker skip position (content ++ tail) = findIter marker skip position content ++
      findIter marker 0 (position + content.length) tail := by
  induction content generalizing skip position with
  | nil =>
    obtain rfl : skip = 0 := by simpa using hskip
    simp [findIter, hne]
  | cons byte content ih =>
    have hshift : position + (byte :: content).length = position + 1 + content.length := by
      rw [length_cons]
      omega
    rw [hshift]
    cases skip with
    | succ skip => exact ih skip (position + 1) (by simpa using hskip)
    | zero =>
      rw [cons_append, findIter, findIter, ← cons_append, isPrefixOf_content hne hmarker htail]
      by_cases hfits : marker.isPrefixOf (byte :: content) = true
      · have hstarts := isPrefixOf_iff_prefix.mp hfits
        have hlength := hstarts.length_le
        rw [length_cons] at hlength
        rw [if_pos hfits, if_pos hfits, ih _ _ (by omega), cons_append]
      · rw [if_neg hfits, if_neg hfits, ih _ _ (Nat.zero_le _)]

variable {ending rest : Bytes}

theorem findIter_ending (h : Ending ending rest) (position : Nat) :
    findIter marker 0 position (ending ++ rest) =
      findIter marker 0 (position + ending.length) rest := by
  have hbreak : ∀ (byte : UInt8) (rest : Bytes) (position : Nat), isBreak byte = true →
      findIter marker 0 position (byte :: rest) = findIter marker 0 (position + 1) rest := by
    intro byte rest position hbreak
    rw [findIter, if_neg]
    intro hstarts
    have hfits := isPrefixOf_iff_prefix.mp hstarts
    rcases exists_cons_of_ne_nil hne with ⟨first, later, rfl⟩
    rw [cons_prefix_cons] at hfits
    rw [← hfits.1, hmarker first mem_cons_self] at hbreak
    cases hbreak
  cases h with
  | pair => exact (hbreak 13 _ _ rfl).trans (hbreak 10 _ _ rfl)
  | feed => exact hbreak 10 _ _ rfl
  | carriage => exact hbreak 13 _ _ rfl

omit hmarker in
theorem le_of_mem_findIter {text : Bytes} {skip position found : Nat}
    (h : found ∈ findIter marker skip position text) :
    position ≤ found ∧ found < position + text.length := by
  induction text generalizing skip position with
  | nil => cases skip <;> simp [findIter, hne] at h
  | cons byte text ih =>
    rw [length_cons]
    cases skip with
    | succ skip =>
      have := ih h
      omega
    | zero =>
      rw [findIter] at h
      split at h
      · rcases mem_cons.mp h with rfl | h
        · omega
        · have := ih h
          omega
      · have := ih h
        omega

/-- Whether a position may start a line: nothing precedes it, or a line ending
    does. -/
def Fresh (before : Bytes) : Prop := ∀ byte ∈ before.getLast?, isBreak byte = true

variable {before : Bytes}

omit hne hmarker in
/-- An occurrence inside a line is no line. -/
theorem markerLine_inside {tail : Bytes} (hplain : ∀ byte ∈ content, isBreak byte = false)
    {position : Nat} (hlow : before.length < position)
    (hhigh : position < before.length + content.length) :
    markerLine (before ++ (content ++ tail)) marker position = none := by
  have hindex : position - 1 - before.length < content.length := by omega
  have hbyte : (before ++ (content ++ tail))[position - 1]? =
      some (content[position - 1 - before.length]) := by
    rw [getElem?_append_right (by omega), getElem?_append_left hindex, getElem?_eq_getElem hindex]
  have hnot := hplain _ (getElem_mem hindex)
  rw [isBreak, Bool.or_eq_false_iff, beq_eq_false_iff_ne, beq_eq_false_iff_ne] at hnot
  rw [markerLine, if_pos]
  rw [hbyte, ne_eq, Option.some.injEq, ne_eq, Option.some.injEq]
  exact ⟨by omega, hnot.2, hnot.1⟩

omit hne hmarker in
/-- An occurrence at the start of a line is the line or only its beginning. -/
theorem markerLine_start (hfresh : Fresh before) (hplain : ∀ byte ∈ content, isBreak byte = false)
    (hending : Ending ending rest ∨ ending = [] ∧ rest = []) (hfits : marker <+: content) :
    markerLine (before ++ (content ++ (ending ++ rest))) marker before.length =
      if content = marker then some (before.length, before.length + (content ++ ending).length)
      else none := by
  have hstart : ¬ (0 < before.length ∧
      (before ++ (content ++ (ending ++ rest)))[before.length - 1]? ≠ some 13 ∧
      (before ++ (content ++ (ending ++ rest)))[before.length - 1]? ≠ some 10) := by
    rintro ⟨hpos, hcarriage, hfeed⟩
    rw [getElem?_append_left (by omega), ← getLast?_eq_getElem?] at hcarriage hfeed
    have hnonempty : before ≠ [] := ne_nil_of_length_pos hpos
    have hbreak := hfresh _ (getLast?_eq_some_getLast hnonempty)
    rw [getLast?_eq_some_getLast hnonempty] at hcarriage hfeed
    simp_all [isBreak]
  rcases hfits with ⟨later, rfl⟩
  have hstop : ∀ i, (before ++ (marker ++ later ++ (ending ++ rest)))[before.length +
      marker.length + i]? = (later ++ (ending ++ rest))[i]? := by
    intro i
    rw [getElem?_append_right (by omega), append_assoc, getElem?_append_right (by omega)]
    congr 1
    omega
  have hzero := hstop 0
  rw [Nat.add_zero] at hzero
  rw [markerLine, if_neg hstart]
  dsimp only
  rw [hzero, hstop 1]
  cases later with
  | nil =>
    rw [append_nil, if_pos rfl, length_append]
    rcases hending with hending | ⟨rfl, rfl⟩
    · cases hending with
      | pair => simp [Nat.add_assoc]
      | feed => simp [Nat.add_assoc]
      | carriage _ hhead =>
        rw [head?_eq_getElem?] at hhead
        simp [Nat.add_assoc, hhead]
    · simp
  | cons byte later =>
    have hbyte := hplain byte (by simp)
    rw [isBreak, Bool.or_eq_false_iff, beq_eq_false_iff_ne, beq_eq_false_iff_ne] at hbyte
    have hlonger : marker ++ byte :: later ≠ marker := by simp
    rw [if_neg hlonger]
    simp [hbyte.1, hbyte.2]

theorem marked_line (hfresh : Fresh before) (hplain : ∀ byte ∈ content, isBreak byte = false)
    (hending : Ending ending rest ∨ ending = [] ∧ rest = []) :
    (findIter marker 0 before.length content).filterMap
        (markerLine (before ++ (content ++ (ending ++ rest))) marker) =
      if content = marker then [(before.length, before.length + (content ++ ending).length)]
      else [] := by
  cases content with
  | nil => simp [findIter, hne, hne.symm]
  | cons byte content =>
    have hlater : ∀ skip, (findIter marker skip (before.length + 1) content).filterMap
        (markerLine (before ++ (byte :: content ++ (ending ++ rest))) marker) = [] := by
      intro skip
      rw [filterMap_eq_nil_iff]
      intro position hposition
      have := le_of_mem_findIter hne hposition
      exact markerLine_inside hplain (by omega) (by rw [length_cons]; omega)
    rw [findIter]
    by_cases hfits : marker.isPrefixOf (byte :: content) = true
    · have hstarts := isPrefixOf_iff_prefix.mp hfits
      rw [if_pos hfits, filterMap_cons, hlater, markerLine_start hfresh hplain hending hstarts]
      split <;> simp_all
    · rw [if_neg hfits, hlater, if_neg]
      rintro rfl
      refine hfits ?_
      exact isPrefixOf_iff_prefix.mpr (prefix_refl _)

/-- The occurrences that fill a line are the lines that are the marker. -/
theorem filterMap_findIter (before rest : Bytes) (hfresh : Fresh before) :
    (findIter marker 0 before.length rest).filterMap (markerLine (before ++ rest) marker) =
      markedLines marker before.length (splitLines rest) := by
  induction rest using lines_induction generalizing before with
  | nil => simp [findIter, hne, show splitLines [] = [] from rfl, markedLines]
  | last content hcontent hplain =>
    have hline := marked_line hne hmarker hfresh hplain (.inr ⟨rfl, rfl⟩)
    simp only [append_nil] at hline
    rw [splitLines_last hcontent hplain, hline, markedLines, markedLines, append_nil,
      lineContent_plain hplain]
  | line content ending rest hplain hending ih =>
    have htail : ∀ byte ∈ (ending ++ rest).head?, isBreak byte = true := by
      cases hending <;> simp [isBreak]
    have hnext : Fresh (before ++ (content ++ ending)) := by
      unfold Fresh
      cases hending <;> simp [isBreak]
    have hrest := ih (before ++ (content ++ ending)) hnext
    rw [length_append, append_assoc, append_assoc] at hrest
    rw [findIter_content hne hmarker _ _ _ _ (Nat.zero_le _) htail,
      findIter_ending hne hmarker hending, filterMap_append,
      marked_line hne hmarker hfresh hplain (.inl hending), splitLines_line hplain hending,
      markedLines, lineContent_append hplain hending, ← hrest, length_append,
      Nat.add_assoc]

end markers

theorem ne_nil_of_mem_splitLines {text line : Bytes} (h : line ∈ splitLines text) : line ≠ [] := by
  induction text using lines_induction with
  | nil => cases h
  | last content hne hplain =>
    rw [splitLines_last hne hplain, mem_singleton] at h
    rw [h]
    exact hne
  | line content ending rest hplain hending ih =>
    rw [splitLines_line hplain hending] at h
    rcases mem_cons.mp h with rfl | h
    · have := hending.length_pos
      exact ne_nil_of_length_pos (by rw [length_append]; omega)
    · exact ih h

/-- Where a line starts. -/
def lineStart (lines : List Bytes) (index : Nat) : Nat := (lines.take index).flatten.length

theorem lineStart_mono (lines : List Bytes) {i j : Nat} (h : i ≤ j) :
    lineStart lines i ≤ lineStart lines j := by
  have hbegins : lines.take i <+: lines.take j := take_isPrefix_take.mpr (.inl h)
  rcases hbegins with ⟨later, hlater⟩
  unfold lineStart
  rw [← hlater]
  simp

theorem lineStart_lt {text : Bytes} {i j : Nat} (h : i < j) (hi : i < (splitLines text).length) :
    lineStart (splitLines text) i < lineStart (splitLines text) j := by
  refine Nat.lt_of_lt_of_le ?_ (lineStart_mono _ (Nat.succ_le_of_lt h))
  have hline := ne_nil_of_mem_splitLines (getElem_mem hi)
  have hpos := length_pos_iff.mpr hline
  unfold lineStart
  rw [take_succ_eq_append_getElem hi]
  simp only [flatten_append, length_append, flatten_cons, flatten_nil, append_nil]
  omega

/-- The line is the marker. -/
def isMarker (marker line : Bytes) : Bool := lineContent line == marker

theorem markedLines_eq (marker : Bytes) (start : Nat) (lines : List Bytes) :
    (markedLines marker start lines).length = lines.countP (isMarker marker) ∧
      (lines.countP (isMarker marker) = 1 → markedLines marker start lines =
        [(start + lineStart lines (lines.findIdx (isMarker marker)),
          start + lineStart lines (lines.findIdx (isMarker marker) + 1))]) := by
  induction lines generalizing start with
  | nil => simp [markedLines]
  | cons line lines ih =>
    rcases ih (start + line.length) with ⟨hlength, hone⟩
    rw [markedLines, countP_cons, findIdx_cons]
    by_cases hline : lineContent line = marker
    · have hmarker : isMarker marker line = true := beq_iff_eq.mpr hline
      rw [hmarker, if_pos hline, if_pos rfl, length_append, hlength, length_singleton]
      refine ⟨Nat.add_comm _ _, fun hcount => ?_⟩
      have hnone : markedLines marker (start + line.length) lines = [] :=
        length_eq_zero_iff.mp (by omega)
      simp [hnone, lineStart]
    · have hmarker : isMarker marker line = false := beq_eq_false_iff_ne.mpr hline
      rw [hmarker, if_neg hline, if_neg Bool.false_ne_true, nil_append]
      refine ⟨hlength, fun hcount => ?_⟩
      rw [hone hcount]
      simp [lineStart, Nat.add_assoc]

theorem uniqueMarkerLine_eq {body marker : Bytes} (hne : marker ≠ [])
    (hmarker : ∀ byte ∈ marker, isBreak byte = false) (absent ambiguous : ProjectionObserved) :
    uniqueMarkerLine body marker absent ambiguous =
      if (splitLines body).countP (isMarker marker) = 0 then .error absent
      else if 1 < (splitLines body).countP (isMarker marker) then .error ambiguous
      else .ok (lineStart (splitLines body) ((splitLines body).findIdx (isMarker marker)),
        lineStart (splitLines body) ((splitLines body).findIdx (isMarker marker) + 1)) := by
  have hfound := filterMap_findIter hne hmarker [] body (by simp [Fresh])
  rw [length_nil, nil_append] at hfound
  rcases markedLines_eq marker 0 (splitLines body) with ⟨hlength, hone⟩
  unfold uniqueMarkerLine
  rw [hfound, ← hlength]
  rw [← hlength] at hone
  rcases hmarked : markedLines marker 0 (splitLines body) with _ | ⟨line, _ | ⟨other, lines⟩⟩
  · simp
  · have hline := hone (by rw [hmarked]; rfl)
    rw [hmarked, singleton_inj] at hline
    simp [hline]
  · simp

/-- The bytes of the lines between the only line that is the start marker and
    the only line that is the end marker. -/
def referenceRegion (body startMarker endMarker : Bytes) : Except ProjectionObserved Bytes :=
  let lines := splitLines body
  if lines.countP (isMarker startMarker) = 0 then .error .sourceStartMarkerAbsent
  else if 1 < lines.countP (isMarker startMarker) then .error .sourceStartMarkerAmbiguous
  else if lines.countP (isMarker endMarker) = 0 then .error .sourceEndMarkerAbsent
  else if 1 < lines.countP (isMarker endMarker) then .error .sourceEndMarkerAmbiguous
  else
    let start := lines.findIdx (isMarker startMarker)
    let stop := lines.findIdx (isMarker endMarker)
    if stop ≤ start then .error .sourceRegionOrderInvalid
    else
      let selected := ((lines.take stop).drop (start + 1)).flatten
      if (textOf selected).isNone then .error .sourceRegionNotUtf8 else .ok selected

/-- A region is what lies between its marker lines, and it fails exactly as the
    lines say, for every pair of markers that are not empty and hold no line
    ending. -/
theorem namedRegionBytes_reference (body startMarker endMarker : Bytes)
    (hstart : startMarker ≠ [] ∧ ∀ byte ∈ startMarker, isBreak byte = false)
    (hend : endMarker ≠ [] ∧ ∀ byte ∈ endMarker, isBreak byte = false) :
    namedRegionBytes body startMarker endMarker = referenceRegion body startMarker endMarker := by
  unfold namedRegionBytes referenceRegion
  rw [uniqueMarkerLine_eq hstart.1 hstart.2, uniqueMarkerLine_eq hend.1 hend.2]
  dsimp only
  split
  · rfl
  split
  · rfl
  next hstartAbsent hstartTwice =>
  rw [Fallible.ok_bind]
  split
  · rfl
  split
  · rfl
  next hendAbsent hendTwice =>
  rw [Fallible.ok_bind]
  dsimp only
  generalize hi : (splitLines body).findIdx (isMarker startMarker) = start
  generalize hj : (splitLines body).findIdx (isMarker endMarker) = stop
  have hstartIn : start < (splitLines body).length := by
    rw [← hi, findIdx_lt_length]
    exact countP_pos_iff.mp (Nat.pos_of_ne_zero hstartAbsent)
  by_cases horder : stop ≤ start
  · rw [if_pos horder, if_pos (.inl (lineStart_mono _ horder))]
    rfl
  have hapart : ¬ (lineStart (splitLines body) stop ≤ lineStart (splitLines body) start ∨
      lineStart (splitLines body) stop < lineStart (splitLines body) (start + 1)) := by
    rw [not_or, not_le, not_lt]
    exact ⟨lineStart_lt (by omega) hstartIn, lineStart_mono _ (by omega)⟩
  have hslice := slice_flatten (splitLines body) (show start + 1 ≤ stop by omega)
  rw [flatten_splitLines] at hslice
  rw [if_neg horder, if_neg hapart]
  simp only [lineStart, hslice]
  split <;> rfl

/-- One line between two markers. -/
theorem namedRegionBytes_reference_line :
    namedRegionBytes [97, 10, 120, 10, 98, 10] [97] [98] = .ok [120, 10] :=
  (namedRegionBytes_reference _ _ _ (by simp [isBreak]) (by simp [isBreak])).trans
    (by decide +kernel)

/-- An empty marker is also found behind the last line ending, where no line
    starts. -/
theorem namedRegionBytes_empty_marker :
    ¬ ∀ body startMarker endMarker : Bytes, (∀ byte ∈ startMarker, isBreak byte = false) →
      (∀ byte ∈ endMarker, isBreak byte = false) →
      namedRegionBytes body startMarker endMarker = referenceRegion body startMarker endMarker := by
  intro h
  exact absurd (h [10, 98, 10] [] [98] (by simp) (by simp [isBreak])) (by decide +kernel)

end Amiss
