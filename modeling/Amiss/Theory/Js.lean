import Amiss.Core.Js

/-!
# Expressions inside Tags

A chunk of embedded JavaScript may hold elements, a tag of an element may hold
an expression, and the expression may hold elements again. The loop that reads
the chunk saves the count of open elements with the frame an expression opens
and restores it when the expression closes. Whether the tag around the
expression is a closing tag is kept in one variable that every tag overwrites
and that nothing restores.

Here an expression is read twice, on its own and inside the tag that holds it.
The two readings go in lockstep: the second has the frames of the tag around
it, and its variables differ only where the first writes them before it reads
them. At the closing brace the frame of the expression goes, and what is left
of the expression is the kind of the last tag it opened.

## Main definitions

* `Lexer.nested`: A lexer with more frames around it.
* `Lexer.Beneath`: The lockstep of the two readings.
* `InTag`: The text ends inside a tag.
* `ClosesOpened`: Every closing brace closes what a brace opened.
* `tagsOpened`: The tags a text opens, by kind.
* `EndsTag`: The rest of the tag ends it, and reads its kind.

## Theorems

* `Lexer.turn_outside`, `Lexer.turn_inElement`: What one byte can do.
* `Lexer.read_beneath`: One byte keeps the lockstep.
* `Lexer.scan_expression`: What an expression in a tag leaves behind.
* `Lexer.verdict_ofKind`: When the kind of a tag does not matter.
* `completeness_expression_eq`: When the rest of the tag is read the same.
-/

namespace Amiss.Js

open Option

/-- A brace opened the frame. -/
def Frame.braced : Frame → Bool
  | .paren | .bracket => false
  | .brace | .substitution | .tagExpression _ | .textExpression _ => true

/-- An expression inside an element opened the frame. -/
def Frame.inElement : Frame → Bool
  | .paren | .bracket | .brace | .substitution => false
  | .tagExpression _ | .textExpression _ => true

/-- The reading is inside an element: in a tag, or in the text between tags. -/
def Mode.inElement : Mode → Bool
  | .tag | .tagQuote | .text => true
  | .code | .template | .single | .double | .lineComment | .blockComment => false

theorem inside_ne_tagQuote (depth : Nat) : inside depth ≠ .tagQuote := by
  unfold inside
  split <;> exact Mode.noConfusion

theorem Mode.ne_tagQuote_of_inElement {mode : Mode} (h : mode.inElement = false) :
    mode ≠ .tagQuote := by
  rintro rfl
  exact absurd h (by decide)

/-- Closing above frames that do not close leaves them alone. -/
theorem close_append {base : List Frame} {expected : Frame} (hbase : base.head? ≠ some expected)
    (frames : List Frame) : close (frames ++ base) expected = close frames expected ++ base := by
  unfold close
  cases frames with
  | nil => simp [if_neg hbase]
  | cons frame rest =>
    by_cases h : frame = expected
    · simp [h]
    · simp [h]

theorem mem_of_mem_close {frame expected : Frame} {frames : List Frame}
    (h : frame ∈ close frames expected) : frame ∈ frames := by
  unfold close at h
  split at h
  · exact List.mem_of_mem_tail h
  · exact h

namespace Lexer

/-! ### A lexer inside more frames -/

section nested

/-- The lexer with more frames around it, and with other values in the variables
    that only some modes read. -/
def nested (s : Lexer) (base : List Frame) (closing : Bool) (quote previous : UInt8) : Lexer :=
  { s with
    frames := s.frames ++ base, closing := closing, quote := quote, previous := previous }

variable {base : List Frame} {s : Lexer} {closing : Bool} {quote previous byte : UInt8}
  {next : Option UInt8}

theorem closeBrace_nested (hcloses : base = [] ∨ s.frames.head?.any Frame.braced = true) :
    (s.nested base closing quote previous).closeBrace =
      s.closeBrace.nested base closing quote previous := by
  obtain ⟨frames, mode, depth, c, q, p, skip⟩ := s
  rcases frames with _ | ⟨frame, rest⟩
  · rcases hcloses with rfl | h
    · rfl
    · exact absurd h Bool.false_ne_true
  · cases frame with
    | paren | bracket | brace | substitution | tagExpression _ | textExpression _ => rfl

theorem code_nested (hbase : ∀ frame ∈ base.head?, frame.braced = true)
    (hcloses : byte = 125 → base = [] ∨ s.frames.head?.any Frame.braced = true) :
    (s.nested base closing quote previous).code byte next =
      (s.code byte next).nested base closing quote previous := by
  have hclose : ∀ expected : Frame, expected.braced = false →
      close (s.frames ++ base) expected = close s.frames expected ++ base := by
    intro expected hexpected
    refine close_append (fun hhead => ?_) s.frames
    exact absurd (hbase expected hhead) (by rw [hexpected]; decide)
  unfold code
  simp only [apply_ite (fun t : Lexer => t.nested base closing quote previous)]
  -- The three strings, the two comments and the opening brackets read no frame.
  iterate 6 refine ite_congr rfl (fun _ => rfl) (fun _ => ?_)
  refine ite_congr rfl (fun _ => ?_) (fun _ => ?_)
  · simp only [nested, hclose .paren rfl]
  refine ite_congr rfl (fun _ => ?_) (fun _ => ?_)
  · simp only [nested, hclose .bracket rfl]
  exact ite_congr rfl (fun h => closeBrace_nested (hcloses h)) (fun _ => rfl)

theorem literal_nested :
    (s.nested base closing quote previous).literal byte next =
      (s.literal byte next).nested base closing quote previous := by
  obtain ⟨frames, mode, depth, c, q, p, skip⟩ := s
  unfold literal
  cases mode with
  | template => simp only [nested]; split_ifs <;> rfl
  | single => simp only [nested]; split_ifs <;> rfl
  | double => simp only [nested]; split_ifs <;> rfl
  | lineComment => simp only [nested]; split_ifs <;> rfl
  | blockComment => simp only [nested]; split_ifs <;> rfl
  | code | tag | tagQuote | text => rfl

/-- Inside a tag the kind of the tag is read, and a quotation mark is written. -/
theorem tag_nested :
    (s.nested base s.closing quote previous).tag byte next =
      (s.tag byte next).nested base s.closing
        (if byte = 39 ∨ byte = 34 then byte else quote) previous := by
  unfold tag
  split_ifs <;> rfl

theorem opensTag_nested
    (hprevious : s.mode.inElement = false → isValue previous = isValue s.previous) :
    (s.nested base closing quote previous).opensTag byte next = s.opensTag byte next := by
  unfold opensTag opensElement
  by_cases hmode : s.mode = .code
  · simp only [nested, hprevious (by rw [hmode]; rfl)]
  · simp [nested, beq_eq_false_iff_ne.mpr hmode]

theorem remember_nested :
    (s.nested base closing quote previous).remember byte =
      (s.remember byte).nested base closing quote
        (if s.mode = .code ∧ asciiWhitespace byte = false then byte else previous) :=
  rfl

end nested

/-! ### What one byte does -/

section turns

variable {s s' : Lexer} {byte : UInt8} {next : Option UInt8}

/-- No element stands open, not even around the expression at hand. -/
def Plain (s : Lexer) : Prop :=
  s.mode.inElement = false ∧ ∀ frame ∈ s.frames, frame.inElement = false

/-- What a byte outside elements does that opens no tag: an element is entered
    only where an expression ends that the element holds. -/
structure Outside (s s' : Lexer) : Prop where
  closing : s'.closing = s.closing
  previous : s'.previous = s.previous
  quoted : s'.mode ≠ .tagQuote
  frames : ∀ frame ∈ s'.frames, frame.inElement = true → frame ∈ s.frames
  element : s'.mode.inElement = true → ∃ frame ∈ s.frames, frame.inElement = true

theorem Outside.plain (h : s.Outside s') (hs : s.Plain) : s'.Plain := by
  have hnone : ∀ frame ∈ s.frames, frame.inElement ≠ true :=
    fun frame hmem => Bool.eq_false_iff.mp (hs.2 frame hmem)
  constructor
  · refine Bool.eq_false_iff.mpr (fun helement => ?_)
    obtain ⟨frame, hmem, hframe⟩ := h.element helement
    exact hnone frame hmem hframe
  · intro frame hmem
    refine Bool.eq_false_iff.mpr (fun hframe => ?_)
    exact hnone frame (h.frames frame hmem hframe) hframe

theorem Outside.moved {mode : Mode} (hmode : mode.inElement = false) (skip : Bool) :
    s.Outside { s with mode := mode, skip := skip } where
  closing := rfl
  previous := rfl
  quoted := Mode.ne_tagQuote_of_inElement hmode
  frames := fun _ hmem _ => hmem
  element := fun helement => absurd helement (by rw [hmode]; decide)

section

variable (hmode : s.mode.inElement = false)

include hmode

theorem Outside.framed {frames : List Frame}
    (hframes : ∀ frame ∈ frames, frame.inElement = true → frame ∈ s.frames) :
    s.Outside { s with frames := frames } where
  closing := rfl
  previous := rfl
  quoted := Mode.ne_tagQuote_of_inElement hmode
  frames := hframes
  element := fun helement => absurd helement (by simp [hmode])

theorem closeBrace_outside : s.Outside s.closeBrace := by
  obtain ⟨frames, mode, depth, closing, quote, previous, skip⟩ := s
  rcases frames with _ | ⟨frame, rest⟩
  · exact Outside.moved hmode skip
  have hrest : ∀ other ∈ rest, other.inElement = true → other ∈ frame :: rest :=
    fun other hmem _ => List.mem_cons_of_mem frame hmem
  cases frame with
  | paren | bracket => exact Outside.moved hmode skip
  | brace => exact Outside.framed hmode hrest
  | substitution =>
    exact ⟨rfl, rfl, Mode.noConfusion, hrest, fun h => absurd h Bool.false_ne_true⟩
  | tagExpression outer | textExpression outer =>
    exact ⟨rfl, rfl, Mode.noConfusion, hrest, fun _ => ⟨_, List.mem_cons_self, rfl⟩⟩

theorem code_outside : s.Outside (s.code byte next) := by
  have hclose : ∀ expected, s.Outside { s with frames := close s.frames expected } := by
    intro expected
    exact Outside.framed hmode (fun _ hmem _ => mem_of_mem_close hmem)
  have hopened : s.Outside (s.push (opened byte)) := by
    refine Outside.framed hmode (fun frame hmem hframe => ?_)
    refine (List.mem_cons.mp hmem).resolve_left (fun heq => ?_)
    rw [heq] at hframe
    unfold opened at hframe
    split at hframe
    · exact absurd hframe Bool.false_ne_true
    · split at hframe <;> exact absurd hframe Bool.false_ne_true
  unfold code
  split_ifs
  · exact Outside.moved rfl s.skip
  · exact Outside.moved rfl s.skip
  · exact Outside.moved rfl s.skip
  · exact Outside.moved rfl true
  · exact Outside.moved rfl true
  · exact hopened
  · exact hclose .paren
  · exact hclose .bracket
  · exact closeBrace_outside hmode
  · exact Outside.moved hmode s.skip

theorem literal_outside : s.Outside (s.literal byte next) := by
  have hstay : s.Outside s := Outside.moved hmode s.skip
  have hskip : s.Outside { s with skip := true } := Outside.moved hmode true
  have hcode : s.Outside { s with mode := .code } := Outside.moved rfl s.skip
  unfold literal
  split
  · split_ifs
    · refine ⟨rfl, rfl, Mode.noConfusion, fun frame hmem hframe => ?_,
        fun h => absurd h Bool.false_ne_true⟩
      refine (List.mem_cons.mp hmem).resolve_left (fun heq => ?_)
      exact absurd hframe (by rw [heq]; exact Bool.false_ne_true)
    · exact hcode
    · exact hskip
    · exact hstay
  · split_ifs
    · exact hcode
    · exact hskip
    · exact hstay
  · split_ifs
    · exact hcode
    · exact hskip
    · exact hstay
  · split_ifs
    · exact hcode
    · exact hstay
  · split_ifs
    · exact Outside.moved rfl true
    · exact hstay
  all_goals exact hstay

end

theorem turn_opens (hopens : s.opensTag byte next = true) :
    s.turn byte next =
      { s with closing := next == some 47, skip := next == some 47, mode := .tag } := by
  unfold turn
  rw [if_pos hopens]

theorem turn_code (hmode : s.mode = .code) (hopens : s.opensTag byte next = false) :
    s.turn byte next = s.code byte next := by
  unfold turn
  simp [hopens, hmode]

theorem opensTag_eq_false (hcode : s.mode ≠ .code) (htext : s.mode ≠ .text) :
    s.opensTag byte next = false := by
  unfold opensTag
  rw [beq_eq_false_iff_ne.mpr hcode, beq_eq_false_iff_ne.mpr htext]
  exact Bool.and_false _

theorem turn_tag (hmode : s.mode = .tag) : s.turn byte next = s.tag byte next := by
  unfold turn
  simp [opensTag_eq_false, hmode]

theorem turn_tagQuote (hmode : s.mode = .tagQuote) :
    s.turn byte next = if byte = s.quote then { s with mode := .tag } else s := by
  unfold turn
  simp [opensTag_eq_false, hmode]

theorem turn_text (hmode : s.mode = .text) (hopens : s.opensTag byte next = false) :
    s.turn byte next =
      if byte = 123 then { s.push (.textExpression s.depth) with depth := 0, mode := .code }
      else s := by
  unfold turn
  simp [hopens, hmode]

theorem turn_literal (hout : s.mode.inElement = false ∧ s.mode ≠ .code) :
    s.turn byte next = s.literal byte next := by
  rcases hout with ⟨hmode, hcode⟩
  have htext : s.mode ≠ .text := fun h => absurd hmode (by rw [h]; decide)
  unfold turn
  rw [if_neg (by rw [opensTag_eq_false hcode htext]; exact Bool.false_ne_true)]
  split
  next heq => exact absurd heq hcode
  next heq => exact absurd hmode (by rw [heq]; decide)
  next heq => exact absurd hmode (by rw [heq]; decide)
  next heq => exact absurd hmode (by rw [heq]; decide)
  all_goals rfl

theorem turn_outside (hmode : s.mode.inElement = false) (hopens : s.opensTag byte next = false) :
    s.Outside (s.turn byte next) := by
  by_cases hcode : s.mode = .code
  · rw [turn_code hcode hopens]
    exact code_outside hmode
  · rw [turn_literal ⟨hmode, hcode⟩]
    exact literal_outside hmode

/-- The kind of the tag the byte at hand opens, true for a closing one. -/
def tagKind (s : Lexer) (byte : UInt8) (next : Option UInt8) : Option Bool :=
  if s.skip = false ∧ s.opensTag byte next = true then some (next == some 47) else none

/-- A byte inside an element that opens no tag: the kind of the tag stays, and
    the byte that leaves the element is not white space. -/
theorem turn_inElement (hmode : s.mode.inElement = true) (hopens : s.opensTag byte next = false) :
    (s.turn byte next).closing = s.closing ∧ (s.turn byte next).previous = s.previous ∧
      ((s.turn byte next).mode.inElement = false →
        (s.turn byte next).mode = .code ∧ asciiWhitespace byte = false) := by
  have hinside : ∀ depth, (inside depth).inElement = false → inside depth = .code := by
    intro depth
    unfold inside
    split_ifs
    · exact fun _ => rfl
    · exact fun h => absurd h (by decide)
  have hstay : s.mode.inElement = false → s.mode = .code ∧ asciiWhitespace byte = false :=
    fun h => absurd hmode (by rw [h]; decide)
  cases hcase : s.mode with
  | tag =>
    rw [turn_tag hcase]
    unfold tag
    split_ifs with h1 h2 h3 h4
    · exact ⟨rfl, rfl, fun h => absurd h Bool.false_ne_true.symm⟩
    · exact ⟨rfl, rfl, fun _ => ⟨rfl, by rw [h2]; decide⟩⟩
    · exact ⟨rfl, rfl, fun h => ⟨hinside _ h, by rw [h3.1]; decide⟩⟩
    · exact ⟨rfl, rfl, fun h => ⟨hinside _ h, by rw [h4]; decide⟩⟩
    · exact ⟨rfl, rfl, hstay⟩
  | tagQuote =>
    rw [turn_tagQuote hcase]
    split_ifs
    · exact ⟨rfl, rfl, fun h => absurd h Bool.false_ne_true.symm⟩
    · exact ⟨rfl, rfl, hstay⟩
  | text =>
    rw [turn_text hcase hopens]
    split_ifs with hbrace
    · exact ⟨rfl, rfl, fun _ => ⟨rfl, by rw [hbrace]; decide⟩⟩
    · exact ⟨rfl, rfl, hstay⟩
  | code | template | single | double | lineComment | blockComment =>
    exact absurd hmode (by rw [hcase]; decide)

theorem turn_closing :
    (s.turn byte next).closing = if s.opensTag byte next then next == some 47 else s.closing := by
  by_cases hopens : s.opensTag byte next = true
  · rw [turn_opens hopens, if_pos hopens]
  have hnot := Bool.eq_false_iff.mpr hopens
  rw [if_neg hopens]
  by_cases hmode : s.mode.inElement = true
  · exact (turn_inElement hmode hnot).1
  · exact (turn_outside (Bool.eq_false_iff.mpr hmode) hnot).closing

theorem turn_previous : (s.turn byte next).previous = s.previous := by
  by_cases hopens : s.opensTag byte next = true
  · rw [turn_opens hopens]
  · have hnot := Bool.eq_false_iff.mpr hopens
    by_cases hmode : s.mode.inElement = true
    · exact (turn_inElement hmode hnot).2.1
    · exact (turn_outside (Bool.eq_false_iff.mpr hmode) hnot).previous

/-- The variable holds the kind of the last tag opened. -/
theorem read_closing : (s.read byte next).closing = (s.tagKind byte next).getD s.closing := by
  unfold read tagKind
  by_cases hskip : s.skip = true
  · rw [if_pos hskip, if_neg (fun h => absurd (hskip.symm.trans h.1) (by decide))]
    rfl
  have hremember : ((s.turn byte next).remember byte).closing = (s.turn byte next).closing := rfl
  rw [if_neg hskip, hremember, turn_closing]
  by_cases hopens : s.opensTag byte next = true
  · rw [if_pos hopens, if_pos ⟨Bool.eq_false_iff.mpr hskip, hopens⟩]
    rfl
  · rw [if_neg hopens, if_neg (fun h => hopens h.2)]
    rfl

/-- Where no tag is opened, no element opens. -/
theorem read_plain (h : s.Plain) (hsilent : s.tagKind byte next = none) :
    (s.read byte next).Plain := by
  unfold read
  by_cases hskip : s.skip = true
  · rw [if_pos hskip]
    exact h
  have hopens : s.opensTag byte next = false := by
    refine Bool.eq_false_iff.mpr (fun hopens => ?_)
    unfold tagKind at hsilent
    rw [if_pos ⟨Bool.eq_false_iff.mpr hskip, hopens⟩] at hsilent
    exact absurd hsilent (some_ne_none _)
  rw [if_neg hskip]
  exact (turn_outside h.1 hopens).plain h

end turns

/-! ### The lockstep -/

section lockstep

/-- A closing brace of code closes a frame that a brace opened. -/
def Closes (s : Lexer) (byte : UInt8) (_ : Option UInt8) : Prop :=
  s.skip = false → s.mode = .code → byte = 125 → s.frames.head?.any Frame.braced = true

instance (s : Lexer) (byte : UInt8) (next : Option UInt8) : Decidable (s.Closes byte next) :=
  inferInstanceAs (Decidable (_ → _ → _ → _))

/-- The second lexer reads as the first does, in more frames: the variables may
    differ where the first does not read them before it writes them. -/
def Beneath (base : List Frame) (s t : Lexer) : Prop :=
  ∃ closing quote previous, t = s.nested base closing quote previous ∧
    (s.mode = .tagQuote → quote = s.quote) ∧
    (s.mode.inElement = false → isValue previous = isValue s.previous) ∧
    (closing = s.closing ∨ s.Plain)

variable {base : List Frame} {s t : Lexer} {byte : UInt8} {next : Option UInt8}

variable {quote previous : UInt8}

/-- Outside elements no byte that opens no tag touches what is nested. -/
theorem turn_nested_outside {closing : Bool} (hbase : ∀ frame ∈ base.head?, frame.braced = true)
    (hcloses : s.mode = .code → byte = 125 → base = [] ∨ s.frames.head?.any Frame.braced = true)
    (hmode : s.mode.inElement = false) (hopens : s.opensTag byte next = false)
    (hopens' : (s.nested base closing quote previous).opensTag byte next = false) :
    (s.nested base closing quote previous).turn byte next =
      (s.turn byte next).nested base closing quote previous := by
  have hmode' : (s.nested base closing quote previous).mode.inElement = false := hmode
  by_cases hcode : s.mode = .code
  · have hcode' : (s.nested base closing quote previous).mode = .code := hcode
    rw [turn_code hcode hopens, turn_code hcode' hopens', code_nested hbase (hcloses hcode)]
  · have hcode' : (s.nested base closing quote previous).mode ≠ .code := hcode
    rw [turn_literal ⟨hmode, hcode⟩, turn_literal ⟨hmode', hcode'⟩, literal_nested]

/-- Inside an element the quotation mark is the one a tag has just met. -/
theorem turn_nested_inElement (hmode : s.mode.inElement = true)
    (hopens : s.opensTag byte next = false)
    (hopens' : (s.nested base s.closing quote previous).opensTag byte next = false)
    (hquote : s.mode = .tagQuote → quote = s.quote) :
    ∃ quote', (s.nested base s.closing quote previous).turn byte next =
        (s.turn byte next).nested base s.closing quote' previous ∧
      ((s.turn byte next).mode = .tagQuote → quote' = (s.turn byte next).quote) := by
  cases hcase : s.mode with
  | tag =>
    have hcase' : (s.nested base s.closing quote previous).mode = .tag := hcase
    refine ⟨if byte = 39 ∨ byte = 34 then byte else quote, ?_, ?_⟩
    · rw [turn_tag hcase, turn_tag hcase', tag_nested]
    rw [turn_tag hcase]
    unfold tag
    split_ifs
    · exact fun _ => rfl
    · exact False.elim
    · exact fun h => absurd h (inside_ne_tagQuote s.depth)
    · exact fun h => absurd h (inside_ne_tagQuote s.tagged)
    · exact fun h => absurd (hcase.symm.trans h) Mode.noConfusion
  | tagQuote =>
    have hcase' : (s.nested base s.closing quote previous).mode = .tagQuote := hcase
    obtain rfl : quote = s.quote := hquote hcase
    refine ⟨s.quote, ?_, ?_⟩
    · rw [turn_tagQuote hcase, turn_tagQuote hcase']
      by_cases hbyte : byte = s.quote
      · rw [if_pos hbyte]
        exact if_pos hbyte
      · rw [if_neg hbyte]
        exact if_neg hbyte
    · rw [turn_tagQuote hcase]
      split_ifs <;> exact fun _ => rfl
  | text =>
    have hcase' : (s.nested base s.closing quote previous).mode = .text := hcase
    refine ⟨quote, ?_, ?_⟩
    · rw [turn_text hcase hopens, turn_text hcase' hopens']
      split_ifs <;> rfl
    · rw [turn_text hcase hopens]
      split_ifs
      · exact False.elim
      · exact fun h => absurd (hcase.symm.trans h) Mode.noConfusion
  | code | template | single | double | lineComment | blockComment =>
    exact absurd hmode (by rw [hcase]; decide)

theorem turn_nested {closing : Bool} (hbase : ∀ frame ∈ base.head?, frame.braced = true)
    (hcloses : s.mode = .code → byte = 125 → base = [] ∨ s.frames.head?.any Frame.braced = true)
    (hquote : s.mode = .tagQuote → quote = s.quote)
    (hprevious : s.mode.inElement = false → isValue previous = isValue s.previous)
    (hclosing : closing = s.closing ∨ s.Plain) :
    ∃ closing' quote',
      (s.nested base closing quote previous).turn byte next =
        (s.turn byte next).nested base closing' quote' previous ∧
      ((s.turn byte next).mode = .tagQuote → quote' = (s.turn byte next).quote) ∧
      (closing' = (s.turn byte next).closing ∨ (s.turn byte next).Plain) := by
  have hsame : (s.nested base closing quote previous).opensTag byte next = s.opensTag byte next :=
    opensTag_nested hprevious
  by_cases hopens : s.opensTag byte next = true
  · refine ⟨next == some 47, quote, ?_, ?_, ?_⟩
    · rw [turn_opens hopens, turn_opens (hsame.trans hopens)]
      rfl
    · rw [turn_opens hopens]
      exact fun h => absurd h Mode.noConfusion
    · rw [turn_opens hopens]
      exact Or.inl rfl
  have hnot : s.opensTag byte next = false := Bool.eq_false_iff.mpr hopens
  by_cases hmode : s.mode.inElement = true
  · obtain rfl : closing = s.closing :=
      hclosing.resolve_right (fun hplain => absurd hmode (by rw [hplain.1]; decide))
    obtain ⟨quote', hturn, hquote'⟩ :=
      turn_nested_inElement hmode hnot (hsame.trans hnot) hquote
    exact ⟨s.closing, quote', hturn, hquote', Or.inl (turn_inElement hmode hnot).1.symm⟩
  · have hout := turn_outside (Bool.eq_false_iff.mpr hmode) hnot
    refine ⟨closing, quote, ?_, fun h => absurd h hout.quoted, ?_⟩
    · exact turn_nested_outside hbase hcloses (Bool.eq_false_iff.mpr hmode) hnot (hsame.trans hnot)
    · rw [hout.closing]
      exact hclosing.imp_right hout.plain

/-- One byte keeps the lockstep, where what it closes was opened inside. -/
theorem read_beneath (hbase : ∀ frame ∈ base.head?, frame.braced = true) (h : Beneath base s t)
    (hcloses : base = [] ∨ s.Closes byte next) :
    Beneath base (s.read byte next) (t.read byte next) := by
  obtain ⟨closing, quote, previous, rfl, hquote, hprevious, hclosing⟩ := h
  unfold read
  by_cases hskip : s.skip = true
  · rw [if_pos hskip]
    exact ⟨closing, quote, previous, if_pos hskip, hquote, hprevious, hclosing⟩
  have hskip' : ¬(s.nested base closing quote previous).skip = true := hskip
  have hbrace : s.mode = .code → byte = 125 →
      base = [] ∨ s.frames.head?.any Frame.braced = true := by
    intro hmode hbyte
    exact hcloses.imp_right (fun hinner => hinner (Bool.eq_false_iff.mpr hskip) hmode hbyte)
  obtain ⟨closing', quote', hturn, hquote', hclosing'⟩ :=
    turn_nested hbase hbrace hquote hprevious hclosing
  rw [if_neg hskip, if_neg hskip', hturn, remember_nested]
  refine ⟨closing', quote', _, rfl, hquote', ?_, hclosing'⟩
  intro hmode
  by_cases hcode : (s.turn byte next).mode = .code ∧ asciiWhitespace byte = false
  · simp only [remember, if_pos hcode]
  simp only [remember, if_neg hcode, turn_previous]
  -- The byte did not come out of an element, so the one before was shared.
  refine hprevious (Bool.eq_false_iff.mpr (fun helement => hcode ?_))
  by_cases hopens : s.opensTag byte next = true
  · rw [turn_opens hopens] at hmode
    exact absurd hmode Bool.false_ne_true.symm
  · exact (turn_inElement helement (Bool.eq_false_iff.mpr hopens)).2.2 hmode

theorem tagKind_beneath (byte : UInt8) (next : Option UInt8) (h : Beneath base s t) :
    s.tagKind byte next = t.tagKind byte next := by
  obtain ⟨closing, quote, previous, rfl, -, hprevious, -⟩ := h
  unfold tagKind
  rw [opensTag_nested hprevious]
  rfl

end lockstep

/-! ### The byte in sight -/

section ahead

variable {s : Lexer} {byte ahead : UInt8}

section

variable (hahead : ahead = 123 ∨ ahead = 125)

include hahead

theorem opensTag_ahead :
    s.opensTag byte (some ahead) = s.opensTag byte none := by
  have hnot : ∀ previous, opensElement (some ahead) previous = opensElement none previous := by
    intro previous
    rcases hahead with rfl | rfl <;> rfl
  unfold opensTag
  rw [hnot]

theorem tagKind_ahead (s : Lexer) (byte : UInt8) :
    s.tagKind byte (some ahead) = s.tagKind byte none := by
  unfold tagKind
  rw [opensTag_ahead hahead]
  rcases hahead with rfl | rfl <;> rfl

/-- A brace in sight and no byte in sight are told apart by a template only. -/
theorem turn_ahead (hmode : (s.turn byte none).mode ≠ .template) :
    s.turn byte (some ahead) = s.turn byte none := by
  have hne : ∀ other : UInt8, other ≠ 123 → other ≠ 125 → some ahead ≠ some other := by
    intro other h1 h2 h
    rcases hahead with rfl | rfl
    · exact h1 (some.inj h).symm
    · exact h2 (some.inj h).symm
  have h47 : some ahead ≠ some 47 := hne 47 (by decide) (by decide)
  have hsame : s.opensTag byte (some ahead) = s.opensTag byte none := opensTag_ahead hahead
  by_cases hopens : s.opensTag byte none = true
  · rw [turn_opens hopens, turn_opens (hsame.trans hopens), beq_eq_false_iff_ne.mpr h47]
    rfl
  have hnot : s.opensTag byte none = false := Bool.eq_false_iff.mpr hopens
  cases hcase : s.mode with
  | code =>
    have h42 : some ahead ≠ some 42 := hne 42 (by decide) (by decide)
    rw [turn_code hcase hnot, turn_code hcase (hsame.trans hnot)]
    simp [code, h47, h42]
  | tag =>
    have h62 : some ahead ≠ some 62 := hne 62 (by decide) (by decide)
    rw [turn_tag hcase, turn_tag hcase]
    simp [tag, h62]
  | tagQuote => rw [turn_tagQuote hcase, turn_tagQuote hcase]
  | text => rw [turn_text hcase hnot, turn_text hcase (hsame.trans hnot)]
  | template =>
    have hout : s.mode.inElement = false ∧ s.mode ≠ .code := by rw [hcase]; decide
    rw [turn_literal hout] at hmode ⊢
    rw [turn_literal hout]
    simp only [literal, hcase] at hmode ⊢
    by_cases hdollar : byte = 36
    · exact absurd (by rw [hdollar]; exact hcase) hmode
    · simp [hdollar]
  | single | double | lineComment | blockComment =>
    have hout : s.mode.inElement = false ∧ s.mode ≠ .code := by rw [hcase]; decide
    rw [turn_literal hout, turn_literal hout]
    simp [literal, hcase, h47]

end

/-- An escape passes over a byte and leaves the literal open. -/
theorem literal_none_skip (s : Lexer) (byte : UInt8) :
    (s.literal byte none).skip = s.skip ∨ (s.literal byte none).mode = s.mode := by
  unfold literal
  simp only [reduceCtorEq, and_false, if_false]
  split
  all_goals try split_ifs
  all_goals first | exact Or.inl rfl | exact Or.inr rfl

/-- With nothing in sight only an escape passes over a byte. -/
theorem turn_none_skip (hskip : s.skip = false)
    (hmode : (s.turn byte none).mode = .code ∨ (s.turn byte none).mode.inElement = true) :
    (s.turn byte none).skip = false := by
  by_cases hopens : s.opensTag byte none = true
  · rw [turn_opens hopens]
    rfl
  have hnot : s.opensTag byte none = false := Bool.eq_false_iff.mpr hopens
  cases hcase : s.mode with
  | code =>
    have hbrace : s.closeBrace.skip = s.skip := by
      unfold closeBrace
      split <;> rfl
    rw [turn_code hcase hnot, ← hskip]
    unfold code
    simp only [reduceCtorEq, and_false, if_false]
    split_ifs
    all_goals first | rfl | exact hbrace
  | tag =>
    rw [turn_tag hcase, ← hskip]
    unfold tag
    simp only [reduceCtorEq, and_false, if_false]
    split_ifs <;> rfl
  | tagQuote =>
    rw [turn_tagQuote hcase, ← hskip]
    split_ifs <;> rfl
  | text =>
    rw [turn_text hcase hnot, ← hskip]
    split_ifs <;> rfl
  | template | single | double | lineComment | blockComment =>
    have hout : s.mode.inElement = false ∧ s.mode ≠ .code := by rw [hcase]; decide
    rw [turn_literal hout] at hmode ⊢
    rcases literal_none_skip s byte with h | h
    · exact h.trans hskip
    · rw [h, hcase] at hmode
      exact absurd hmode (by decide)

/-- A chunk that ends in code or in a tag ends the same before a brace. -/
theorem scan_ahead {bytes : Bytes} (hahead : ahead = 123 ∨ ahead = 125) (hstart : s.skip = false)
    (hend : (scan read s bytes none).mode = .code ∨ (scan read s bytes none).mode = .tag) :
    scan read s bytes (some ahead) = scan read s bytes none ∧
      (scan read s bytes none).skip = false := by
  rcases List.eq_nil_or_concat bytes with rfl | ⟨left, byte, rfl⟩
  · exact ⟨rfl, hstart⟩
  rw [List.concat_eq_append] at hend ⊢
  rw [scan_concat] at hend ⊢
  rw [scan_concat]
  generalize scan read s left (some byte) = t at hend ⊢
  unfold read at hend ⊢
  by_cases hskip : t.skip = true
  · simp [if_pos hskip]
  simp only [if_neg hskip] at hend ⊢
  have hmode : (t.turn byte none).mode = .code ∨ (t.turn byte none).mode = .tag := hend
  refine ⟨?_, ?_⟩
  · rw [turn_ahead hahead (fun h => by rw [h] at hmode; revert hmode; decide)]
  · refine turn_none_skip (Bool.eq_false_iff.mpr hskip) (hmode.imp_right (fun h => ?_))
    rw [h]
    rfl

end ahead

/-! ### An expression inside a tag -/

section expression

variable {s : Lexer}

/-- The frames around an expression in the tag at hand. -/
def around (s : Lexer) : List Frame := .tagExpression s.depth :: s.frames

/-- The lexer where an expression in the tag at hand starts. -/
def entered (s : Lexer) : Lexer := ({} : Lexer).nested s.around s.closing s.quote 123

theorem beneath_entered (s : Lexer) : Beneath s.around {} s.entered :=
  ⟨s.closing, s.quote, 123, rfl, fun h => absurd h Mode.noConfusion, fun _ => by decide,
    Or.inr ⟨rfl, fun _ hmem => absurd hmem List.not_mem_nil⟩⟩

theorem read_openBrace (hmode : s.mode = .tag) (hskip : s.skip = false) (next : Option UInt8) :
    s.read 123 next = s.entered := by
  unfold read
  rw [if_neg (by rw [hskip]; exact Bool.false_ne_true), turn_tag hmode]
  simp [tag, push, remember, entered, around, nested, hskip, asciiWhitespace]

theorem read_closeBrace {base : List Frame} {outer : Nat} (hmode : s.mode = .code)
    (hskip : s.skip = false) (hframes : s.frames = .tagExpression outer :: base)
    (next : Option UInt8) :
    s.read 125 next = { s with frames := base, depth := outer, mode := .tag } := by
  have hopens : s.opensTag 125 next = false := rfl
  unfold read
  rw [if_neg (by rw [hskip]; exact Bool.false_ne_true), turn_code hmode hopens]
  simp [code, closeBrace, remember, hframes]

variable {expression : Bytes}

theorem read_around {u v : Lexer} {byte : UInt8} {next : Option UInt8}
    (h : Beneath s.around u v) (hcloses : u.Closes byte next) :
    Beneath s.around (u.read byte next) (v.read byte next) := by
  refine read_beneath (fun frame hframe => ?_) h (Or.inr hcloses)
  rw [← some.inj hframe]
  rfl

/-- The expression is read in lockstep with itself alone. -/
theorem scan_entered (hcloses : Along read Closes {} expression none) :
    Beneath s.around (scan read {} expression (some 125))
      (scan read s.entered expression (some 125)) :=
  scan_rel (Beneath s.around) Closes (fun _ _ _ _ => read_around) (beneath_entered s)
    (hcloses.congr_ahead (fun _ _ _ _ h => h))

/-- The variable holds the last kind of tag the expression opens, alone or not. -/
theorem closing_entered (hcloses : Along read Closes {} expression none) :
    (scan read s.entered expression (some 125)).closing =
      (outputs read tagKind {} expression none).getLast?.getD s.closing := by
  have hkinds : outputs read tagKind {} expression (some 125) =
      outputs read tagKind s.entered expression (some 125) :=
    outputs_rel (Beneath s.around) Closes (fun _ _ _ _ => read_around)
      (fun _ _ byte next => tagKind_beneath byte next) (beneath_entered s)
      (hcloses.congr_ahead (fun _ _ _ _ h => h))
  have hahead : outputs read tagKind {} expression (some 125) =
      outputs read tagKind {} expression none :=
    outputs_congr_ahead (tagKind_ahead (Or.inr rfl)) expression {}
  rw [← hahead, hkinds]
  exact latest_scan (fun _ _ _ => read_closing) expression (some 125) s.entered

/-- An expression in a tag leaves behind the kind of the last tag it opens. -/
theorem scan_expression (hmode : s.mode = .tag) (hskip : s.skip = false)
    (hcode : (scan read {} expression none).mode = .code)
    (hframes : (scan read {} expression none).frames = [])
    (hcloses : Along read Closes {} expression none) (ahead : Option UInt8) :
    ∃ quote previous, scan read s ([123] ++ expression ++ [125]) ahead =
      { s with
        closing := (outputs read tagKind {} expression none).getLast?.getD s.closing,
        quote := quote, previous := previous } := by
  have hclosing := closing_entered (s := s) hcloses
  obtain ⟨closing, quote, previous, hnested, -⟩ := scan_entered (s := s) hcloses
  obtain ⟨halone, hrest⟩ := scan_ahead (Or.inr rfl) rfl (Or.inl hcode)
  rw [halone] at hnested
  rw [hnested] at hclosing
  refine ⟨quote, previous, ?_⟩
  rw [scan_concat]
  simp only [List.cons_append, List.nil_append, scan]
  rw [read_openBrace hmode hskip, hnested, ← hclosing]
  generalize scan read {} expression none = alone at hcode hframes hrest ⊢
  have hmode' : (alone.nested s.around closing quote previous).mode = .code := hcode
  have hinner : (alone.nested s.around closing quote previous).frames =
      .tagExpression s.depth :: s.frames := by
    unfold nested
    rw [hframes]
    rfl
  rw [read_closeBrace hmode' hrest hinner]
  simp only [nested, hrest, hskip, hmode]

end expression

/-! ### The rest of the chunk -/

section rest

/-- The lexer in a tag of another kind. -/
def ofKind (s : Lexer) (closing : Bool) : Lexer := { s with closing := closing }

/-- What the byte at hand does with the kind of the tag: a `>` that ends the tag
    reads it, true here, and what opens the next tag writes it. -/
def kindUse (s : Lexer) (byte : UInt8) (next : Option UInt8) : Option Bool :=
  if s.skip = false ∧ s.mode = .tag ∧ byte = 62 then some true
  else (s.tagKind byte next).map fun _ => false

variable {s : Lexer} {byte : UInt8} {next : Option UInt8} {kind : Bool}

theorem closeBrace_ofKind : (s.ofKind kind).closeBrace = s.closeBrace.ofKind kind := by
  obtain ⟨frames, mode, depth, closing, quote, previous, skip⟩ := s
  rcases frames with _ | ⟨frame, rest⟩
  · rfl
  · cases frame <;> rfl

/-- A byte that neither ends nor opens a tag does not look at the kind. -/
theorem turn_ofKind (hends : s.mode = .tag → byte ≠ 62) (hopens : s.opensTag byte next = false) :
    (s.ofKind kind).turn byte next = (s.turn byte next).ofKind kind := by
  have hopens' : (s.ofKind kind).opensTag byte next = false := hopens
  have hmode : (s.ofKind kind).mode = s.mode := rfl
  cases hcase : s.mode with
  | code =>
    rw [turn_code hcase hopens, turn_code (hmode.trans hcase) hopens']
    simp only [code, closeBrace_ofKind, apply_ite (ofKind · kind)]
    rfl
  | tag =>
    rw [turn_tag hcase, turn_tag (hmode.trans hcase)]
    simp only [tag, if_neg (hends hcase), apply_ite (ofKind · kind)]
    rfl
  | tagQuote =>
    rw [turn_tagQuote hcase, turn_tagQuote (hmode.trans hcase), apply_ite (ofKind · kind)]
    rfl
  | text =>
    rw [turn_text hcase hopens, turn_text (hmode.trans hcase) hopens', apply_ite (ofKind · kind)]
    rfl
  | template | single | double | lineComment | blockComment =>
    have hout : s.mode.inElement = false ∧ s.mode ≠ .code := by rw [hcase]; decide
    rw [turn_literal hout, turn_literal (hmode ▸ hout)]
    simp only [literal, hmode, hcase, apply_ite (ofKind · kind)]
    rfl

theorem read_ofKind (huse : s.kindUse byte next = none) :
    (s.ofKind kind).read byte next = (s.read byte next).ofKind kind := by
  unfold read
  have hskip' : (s.ofKind kind).skip = s.skip := rfl
  by_cases hskip : s.skip = true
  · rw [hskip', if_pos hskip, if_pos hskip]
    rfl
  have hfalse := Bool.eq_false_iff.mpr hskip
  simp only [kindUse, tagKind, hfalse, true_and] at huse
  split_ifs at huse with hends hopens
  · cases huse
  rw [hskip', if_neg hskip, if_neg hskip,
    turn_ofKind (fun htag hbyte => hends ⟨htag, hbyte⟩) (Bool.eq_false_iff.mpr hopens)]
  rfl

/-- What opens a tag writes its kind over the one before. -/
theorem read_ofKind_opens (huse : s.kindUse byte next = some false) :
    (s.ofKind kind).read byte next = s.read byte next := by
  unfold kindUse tagKind at huse
  split_ifs at huse with hends hopens
  · cases huse
  swap
  · cases huse
  have hopens' : (s.ofKind kind).opensTag byte next = true := hopens.2
  unfold read
  rw [turn_opens hopens.2, turn_opens hopens']
  have hskip' : (s.ofKind kind).skip = s.skip := rfl
  rw [hskip', if_neg (by rw [hopens.1]; decide), if_neg (by rw [hopens.1]; decide)]
  rfl

/-- The kind of the tag at hand matters only where a `>` ends the tag. -/
theorem verdict_ofKind {bytes : Bytes}
    (huse : (outputs read kindUse s bytes none).head? ≠ some true) :
    (scan read (s.ofKind kind) bytes none).verdict = (scan read s bytes none).verdict := by
  induction bytes generalizing s with
  | nil => rfl
  | cons byte rest ih =>
    simp only [scan, outputs] at huse ⊢
    cases hbyte : s.kindUse byte (rest.head?.or none) with
    | none =>
      rw [hbyte] at huse
      rw [read_ofKind hbyte]
      exact ih huse
    | some ends =>
      rw [hbyte] at huse
      cases ends with
      | true => exact absurd rfl huse
      | false => rw [read_ofKind_opens hbyte]

/-- A lexer in a tag does not read what came before the tag, nor a quotation
    mark the tag has closed. -/
theorem verdict_eq_of_tag {quote previous : UInt8} (hmode : s.mode = .tag) (bytes : Bytes) :
    (scan read { s with quote := quote, previous := previous } bytes none).verdict =
      (scan read s bytes none).verdict := by
  have hstart : Beneath [] s { s with quote := quote, previous := previous } := by
    refine ⟨s.closing, quote, previous, ?_, ?_, ?_, Or.inl rfl⟩
    · simp [nested]
    · exact fun h => absurd (hmode.symm.trans h) Mode.noConfusion
    · exact fun h => absurd h (by rw [hmode]; decide)
  have hstep : ∀ u v byte next, Beneath [] u v → True →
      Beneath [] (u.read byte next) (v.read byte next) := by
    intro u v byte next h _
    exact read_beneath (fun _ hmem => absurd hmem (not_mem_none _)) h (Or.inl rfl)
  obtain ⟨closing, quote', previous', hend, -⟩ := scan_rel (Beneath []) (fun _ _ _ => True) hstep
    hstart (Along.of_forall (fun _ _ _ => trivial) bytes none s)
  rw [hend]
  simp [verdict, nested]

end rest
end Lexer

/-! ### The rest of a tag -/

variable (text : String)

/-- The text of an expression, in braces. -/
def expression : String := "\x7b" ++ text ++ "\x7d"

/-- The lexer after a text. -/
def lexed : Lexer := scan Lexer.read {} (utf8 text) none

/-- The text ends inside a tag. -/
def InTag : Prop := (lexed text).mode = .tag

instance (text : String) : Decidable (InTag text) := inferInstanceAs (Decidable (_ = _))

/-- Every closing brace of the text closes a brace opened before it. -/
def ClosesOpened : Prop :=
  Along Lexer.read Lexer.Closes {} (utf8 text) none

instance (text : String) : Decidable (ClosesOpened text) :=
  inferInstanceAs (Decidable (Along _ _ _ _ _))

/-- The tags the text opens, true for a closing tag. -/
def tagsOpened : List Bool :=
  outputs Lexer.read Lexer.tagKind {} (utf8 text) none

/-- Read behind the first text, the second ends the tag by a `>` before it opens
    another tag. -/
def EndsTag (before after : String) : Prop :=
  (outputs Lexer.read Lexer.kindUse (lexed before) (utf8 after) none).head? = some true

instance (before after : String) : Decidable (EndsTag before after) :=
  inferInstanceAs (Decidable (_ = _))

section tags

open Lexer

variable {before inner : String}

theorem utf8_expression (before text after : String) :
    utf8 (before ++ expression text ++ after) =
      utf8 before ++ (([123] ++ utf8 text ++ [125]) ++ utf8 after) := by
  unfold expression
  rw [utf8_append, utf8_append, utf8_append, utf8_append, List.append_assoc]
  rfl

/-- What follows an expression is read in the tag, of the kind last opened. -/
theorem completeness_expression (hbefore : InTag before)
    (hcomplete : completeness inner = .complete) (hcloses : ClosesOpened inner) (after : String) :
    completeness (before ++ expression inner ++ after) =
      (scan read
        ((lexed before).ofKind ((tagsOpened inner).getLast?.getD (lexed before).closing))
        (utf8 after) none).verdict := by
  obtain ⟨halone, hskip⟩ := scan_ahead (Or.inl rfl) rfl (Or.inr hbefore)
  obtain ⟨hcode, hframes⟩ : (lexed inner).mode = .code ∧ (lexed inner).frames = [] := by
    by_contra h
    exact absurd ((if_neg h).symm.trans hcomplete) Completeness.noConfusion
  obtain ⟨quote, previous, hscan⟩ := scan_expression hbefore hskip hcode hframes hcloses
    ((utf8 after).head?.or none)
  have hhead : ((([123] ++ utf8 inner ++ [125]) ++ utf8 after).head?.or none : Option UInt8) =
      some 123 := rfl
  unfold completeness
  rw [utf8_expression, scan_append, hhead, halone, scan_append]
  have htag : ((lexed before).ofKind
      ((tagsOpened inner).getLast?.getD (lexed before).closing)).mode = .tag := hbefore
  exact (congrArg (fun t => (scan read t (utf8 after) none).verdict) hscan).trans
    (verdict_eq_of_tag htag (utf8 after))

/-- The tag a text ends in was opened by the text. -/
theorem getLast?_tagsOpened (hbefore : InTag before) :
    (tagsOpened before).getLast? = some (lexed before).closing := by
  have hlatest : (lexed before).closing = (tagsOpened before).getLast?.getD false :=
    latest_scan (fun _ _ _ => read_closing) (utf8 before) none {}
  cases hlast : (tagsOpened before).getLast? with
  | some kind =>
    rw [hlatest, hlast]
    rfl
  | none =>
    have hsilent : tagsOpened before = [] := List.getLast?_eq_none_iff.mp hlast
    have hplain : (lexed before).Plain :=
      scan_silent (fun _ _ _ => read_plain) ⟨rfl, fun _ hmem => absurd hmem List.not_mem_nil⟩
        hsilent
    have htag : (lexed before).mode = .tag := hbefore
    exact absurd hplain.1 (by rw [htag]; decide)

/-- An expression in a tag leaves the rest to be read as it is without it, where
    no `>` ends the tag before another tag opens, and where the last tag the
    expression opens is of the kind of the last tag opened before it. -/
theorem completeness_expression_eq (hbefore : InTag before)
    (hcomplete : completeness inner = .complete) (hcloses : ClosesOpened inner) (after : String)
    (hkind : EndsTag before after →
      ∀ kind ∈ (tagsOpened inner).getLast?, kind ∈ (tagsOpened before).getLast?) :
    completeness (before ++ expression inner ++ after) =
      completeness (before ++ expression "0" ++ after) := by
  have hzero : ClosesOpened "0" := ⟨fun _ _ h => absurd h (by decide), trivial⟩
  rw [completeness_expression hbefore hcomplete hcloses, completeness_expression hbefore rfl hzero]
  by_cases hends : EndsTag before after
  · rw [getLast?_tagsOpened hbefore] at hkind
    cases hlast : (tagsOpened inner).getLast? with
    | none => rfl
    | some kind =>
      rw [some.inj (hkind hends kind hlast)]
      rfl
  · -- Neither reading looks at the kind of the tag.
    exact (verdict_ofKind hends).trans (verdict_ofKind hends).symm

/-- A tag that closes itself is an opening tag, as the one around it is, and
    whatever the expression opens does not matter to a tag that closes itself. -/
theorem completeness_expression_selfClosing :
    (∀ after, completeness ("<Card icon=" ++ expression "<i/>" ++ after) =
        completeness ("<Card icon=" ++ expression "0" ++ after)) ∧
      completeness ("<Card icon=" ++ expression "<i></i>" ++ "/>") =
        completeness ("<Card icon=" ++ expression "0" ++ "/>") := by
  have hbefore : InTag "<Card icon=" := by decide +kernel
  refine ⟨fun after => completeness_expression_eq hbefore (by decide +kernel) (by decide +kernel)
    after (fun _ => by decide +kernel), ?_⟩
  refine completeness_expression_eq hbefore (by decide +kernel) (by decide +kernel) "/>" ?_
  exact fun hends => absurd hends (by decide +kernel)

/-- An element with a closing tag of its own makes the tag around it a closing
    one: the text of the element is then read as code, and its apostrophe opens
    a string. -/
theorem completeness_expression_misread :
    InTag "<Card icon=" ∧ completeness "<i></i>" = .complete ∧ ClosesOpened "<i></i>" ∧
      completeness ("<Card icon=" ++ expression "<i></i>" ++ ">we've</Card>") = .incomplete ∧
      completeness ("<Card icon=" ++ expression "0" ++ ">we've</Card>") = .complete := by
  decide +kernel

end tags

end Amiss.Js
