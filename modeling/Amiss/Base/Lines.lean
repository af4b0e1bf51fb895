import Mathlib

/-!
# Lines of a Text

A text is cut into lines after every ending: a line feed, a carriage return, or
the two together as one ending. What follows the last ending is a line of its
own unless it is empty, so the lines put back together are the text and no line
is empty.

Two texts put together have the lines of both unless the seam joins two of them:
the first text has to end with an ending, and a carriage return there must not
meet a line feed. `splitLines_append` is stated for such a seam, and it is all
that later proofs need to know about the cuts.

## Main definitions

* `splitLines`: The lines of a text, each with its ending.
* `lineContent`: A line without its ending.
* `Cut`: A seam between two texts that falls between lines.

## Theorems

* `splitLines_append`: The lines around a seam.
* `lines_induction`: Line by line from the front.
-/

namespace Amiss

open List

/-- The byte ends a line. -/
def isBreak (byte : UInt8) : Bool := byte == 10 || byte == 13

/-- The lines of a text that continues one. -/
def splitLinesFrom (line : List UInt8) : List UInt8 → List (List UInt8)
  | [] => if line = [] then [] else [line]
  | 13 :: 10 :: rest => (line ++ [13, 10]) :: splitLinesFrom [] rest
  | byte :: rest =>
    if isBreak byte then (line ++ [byte]) :: splitLinesFrom [] rest
    else splitLinesFrom (line ++ [byte]) rest

/-- The lines of a text, each with its ending. -/
def splitLines (text : List UInt8) : List (List UInt8) := splitLinesFrom [] text

/-- A line without its ending. -/
def lineContent (line : List UInt8) : List UInt8 := line.takeWhile (fun byte => !isBreak byte)

/-- An ending before the text that follows: no line goes on. -/
inductive Ending : List UInt8 → List UInt8 → Prop where
  | pair (rest : List UInt8) : Ending [13, 10] rest
  | feed (rest : List UInt8) : Ending [10] rest
  | carriage (rest : List UInt8) (h : rest.head? ≠ some 10) : Ending [13] rest

/-- A seam between two texts that falls between lines. -/
def Cut (before after : List UInt8) : Prop :=
  before = [] ∨ after = [] ∨ (∃ byte, before.getLast? = some byte ∧ isBreak byte = true ∧
    ¬ (byte = 13 ∧ after.head? = some 10))

variable {ending rest : List UInt8}

theorem splitLinesFrom_ending (h : Ending ending rest) (line : List UInt8) :
    splitLinesFrom line (ending ++ rest) = (line ++ ending) :: splitLinesFrom [] rest := by
  cases h with
  | pair => simp [splitLinesFrom]
  | feed => simp [splitLinesFrom, isBreak]
  | carriage _ h =>
    cases rest with
    | nil => simp [splitLinesFrom, isBreak]
    | cons byte rest =>
      rw [singleton_append, splitLinesFrom]
      · rfl
      · rintro later - hsame
        cases hsame
        exact h rfl

variable {content : List UInt8}

theorem splitLinesFrom_content (h : ∀ byte ∈ content, isBreak byte = false)
    (line rest : List UInt8) :
    splitLinesFrom line (content ++ rest) = splitLinesFrom (line ++ content) rest := by
  induction content generalizing line with
  | nil => simp
  | cons byte content ih =>
    rw [forall_mem_cons] at h
    rw [cons_append, splitLinesFrom]
    · rw [h.1, if_neg Bool.false_ne_true, ih h.2, append_assoc, singleton_append]
    · rintro later rfl -
      exact absurd h.1 (by decide)

/-- A text is empty, one line without an ending, or a line and a text. -/
theorem exists_line (text : List UInt8) :
    (∀ byte ∈ text, isBreak byte = false) ∨ ∃ content ending rest,
      text = content ++ (ending ++ rest) ∧ (∀ byte ∈ content, isBreak byte = false) ∧
        Ending ending rest := by
  induction text with
  | nil => exact .inl (by simp)
  | cons byte text ih =>
    by_cases hbreak : isBreak byte = true
    · right
      rw [isBreak, Bool.or_eq_true, beq_iff_eq, beq_iff_eq] at hbreak
      rcases hbreak with rfl | rfl
      · exact ⟨[], [10], text, rfl, by simp, .feed text⟩
      · by_cases hfeed : text.head? = some 10
        · rcases head?_eq_some_iff.mp hfeed with ⟨rest, rfl⟩
          exact ⟨[], [13, 10], rest, rfl, by simp, .pair rest⟩
        · exact ⟨[], [13], text, rfl, by simp, .carriage text hfeed⟩
    · rw [Bool.not_eq_true] at hbreak
      rcases ih with hplain | ⟨content, ending, rest, rfl, hplain, hending⟩
      · exact .inl (forall_mem_cons.mpr ⟨hbreak, hplain⟩)
      · exact .inr ⟨byte :: content, ending, rest, rfl,
          forall_mem_cons.mpr ⟨hbreak, hplain⟩, hending⟩

theorem Ending.length_pos (h : Ending ending rest) : 0 < ending.length := by
  cases h <;> simp

/-- An ending stays one before a beginning of what followed. -/
theorem Ending.mono {start : List UInt8} (h : Ending ending rest) (hstart : start <+: rest) :
    Ending ending start := by
  cases h with
  | pair => exact .pair start
  | feed => exact .feed start
  | carriage _ hfeed =>
    refine .carriage start (fun hhead => hfeed ?_)
    rcases hstart with ⟨later, rfl⟩
    rcases head?_eq_some_iff.mp hhead with ⟨tail, rfl⟩
    rfl

/-- Line by line from the front. -/
theorem lines_induction {motive : List UInt8 → Prop} (nil : motive [])
    (last : ∀ content, content ≠ [] → (∀ byte ∈ content, isBreak byte = false) → motive content)
    (line : ∀ content ending rest, (∀ byte ∈ content, isBreak byte = false) →
      Ending ending rest → motive rest → motive (content ++ (ending ++ rest)))
    (text : List UInt8) : motive text := by
  induction hlength : text.length using Nat.strong_induction_on generalizing text with
  | _ n ih =>
    rcases exists_line text with hplain | ⟨content, ending, rest, rfl, hplain, hending⟩
    · by_cases hempty : text = []
      · exact hempty ▸ nil
      · exact last text hempty hplain
    · have hpos := hending.length_pos
      refine line content ending rest hplain hending (ih rest.length ?_ rest rfl)
      rw [← hlength, length_append, length_append]
      omega

theorem splitLines_line (hplain : ∀ byte ∈ content, isBreak byte = false)
    (hending : Ending ending rest) :
    splitLines (content ++ (ending ++ rest)) = (content ++ ending) :: splitLines rest := by
  unfold splitLines
  rw [splitLinesFrom_content hplain, splitLinesFrom_ending hending, nil_append]

theorem splitLines_last (hne : content ≠ []) (hplain : ∀ byte ∈ content, isBreak byte = false) :
    splitLines content = [content] := by
  have hcontent := splitLinesFrom_content hplain [] []
  rw [append_nil, nil_append, splitLinesFrom, if_neg hne] at hcontent
  exact hcontent

theorem flatten_splitLines (text : List UInt8) : (splitLines text).flatten = text := by
  induction text using lines_induction with
  | nil => rfl
  | last content hne hplain => simp [splitLines_last hne hplain]
  | line content ending rest hplain hending ih =>
    rw [splitLines_line hplain hending, flatten_cons, ih, append_assoc]

theorem splitLines_append {before after : List UInt8} (h : Cut before after) :
    splitLines (before ++ after) = splitLines before ++ splitLines after := by
  by_cases hafter : after = []
  · subst hafter
    rw [append_nil]
    exact (append_nil _).symm
  induction before using lines_induction with
  | nil => rfl
  | last content hne hplain =>
    rcases h with h | h | ⟨byte, hlast, hbreak, -⟩
    · exact absurd h hne
    · exact absurd h hafter
    · rw [hplain byte (mem_of_getLast? hlast)] at hbreak
      cases hbreak
  | line content ending rest hplain hending ih =>
    have hnonempty := ne_nil_of_length_pos hending.length_pos
    by_cases hrest : rest = []
    · subst hrest
      have hmeets : Ending ending after := by
        rcases h with h | h | ⟨byte, hlast, -, hapart⟩
        · simp [hnonempty] at h
        · exact absurd h hafter
        · cases hending with
          | pair => exact .pair after
          | feed => exact .feed after
          | carriage =>
            simp only [append_nil, getLast?_concat, Option.some.injEq] at hlast
            exact .carriage after (fun hfeed => hapart ⟨hlast.symm, hfeed⟩)
      rw [append_assoc, append_nil, splitLines_line hplain hmeets]
      have halone := splitLines_line hplain hending
      rw [append_nil] at halone
      rw [halone]
      rfl
    · have hmeets : Ending ending (rest ++ after) := by
        cases hending with
        | pair => exact .pair _
        | feed => exact .feed _
        | carriage _ hfeed =>
          refine .carriage _ ?_
          rw [head?_append_of_ne_nil _ hrest]
          exact hfeed
      have hcut : Cut rest after := by
        rcases h with h | h | ⟨byte, hlast, hbyte⟩
        · simp [hnonempty] at h
        · exact .inr (.inl h)
        · rw [getLast?_append_of_ne_nil _ (by simp [hrest]),
            getLast?_append_of_ne_nil _ hrest] at hlast
          exact .inr (.inr ⟨byte, hlast, hbyte⟩)
      rw [append_assoc, append_assoc, splitLines_line hplain hmeets, ih hcut,
        splitLines_line hplain hending]
      rfl

/-- A line without its ending, where the ending is known. -/
theorem lineContent_append (hplain : ∀ byte ∈ content, isBreak byte = false)
    (hending : Ending ending rest) : lineContent (content ++ ending) = content := by
  unfold lineContent
  rw [takeWhile_append_of_pos (fun byte hbyte => by rw [hplain byte hbyte]; rfl)]
  cases hending <;> simp [isBreak]

theorem lineContent_plain (hplain : ∀ byte ∈ content, isBreak byte = false) :
    lineContent content = content :=
  takeWhile_eq_self_iff.mpr (fun byte hbyte => by rw [hplain byte hbyte]; rfl)

end Amiss
