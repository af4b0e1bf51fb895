import Amiss.Base.Lookahead
import Amiss.Core.Wire

/-!
# Embedded JavaScript

Whether a chunk of JavaScript inside a document can end where it ends: no
literal, comment, tag or element is open, and every bracket has been closed.
Only the lexical grammar is read, one byte after the other, with the byte that
follows in sight.

The source moves its position by one or by two. Here the reading goes over
every byte, and a byte that a step of two passes over is read in a state that
says so.

## Main definitions

* `Lexer`: The variables of the loop.
* `Lexer.turn`: What one byte does.
* `Lexer.read`: One turn of the loop.
* `completeness`: Whether a chunk can end.
-/

namespace Amiss.Js

inductive Completeness where
  | complete
  | incomplete
  deriving DecidableEq, Repr

/-- What stands open around the byte at hand. An expression in a tag or between
    tags keeps the count of elements open around it. -/
inductive Frame where
  | paren
  | bracket
  | brace
  | substitution
  | tagExpression (outer : Nat)
  | textExpression (outer : Nat)
  deriving DecidableEq, Repr

inductive Mode where
  | code
  | template
  | single
  | double
  | lineComment
  | blockComment
  | tag
  | tagQuote
  | text
  deriving DecidableEq, Repr

/-- The variables of the loop, the innermost frame first. `skip` holds where the
    last step was one of two bytes, so that the byte at hand is passed over. -/
structure Lexer where
  frames : List Frame := []
  mode : Mode := .code
  depth : Nat := 0
  closing : Bool := false
  quote : UInt8 := 0
  previous : UInt8 := 0
  skip : Bool := false
  deriving DecidableEq, Repr

/-- A byte that can end an expression. -/
def isValue (previous : UInt8) : Bool :=
  asciiAlphanumeric previous || previous == 95 || previous == 36 || previous == 41 || previous == 93

/-- Whether a `<` opens an element rather than a comparison: a name, a slash or
    the `>` of a fragment follows it, and the byte before it cannot end an
    expression. -/
def opensElement (next : Option UInt8) (previous : UInt8) : Bool :=
  next.any (fun byte => asciiAlphabetic byte || byte == 47 || byte == 62) && !isValue previous

/-- Where a finished tag leaves the reading. -/
def inside (depth : Nat) : Mode := if depth = 0 then .code else .text

/-- The frame an opening bracket pushes. -/
def opened (byte : UInt8) : Frame :=
  if byte = 40 then .paren else if byte = 91 then .bracket else .brace

/-- The frames without the innermost, where that is the one expected. -/
def close (frames : List Frame) (expected : Frame) : List Frame :=
  if frames.head? = some expected then frames.tail else frames

namespace Lexer

def push (s : Lexer) (frame : Frame) : Lexer := { s with frames := frame :: s.frames }

variable (s : Lexer)

variable (byte : UInt8)

variable (next : Option UInt8)

/-- The byte at hand opens a tag. -/
def opensTag : Bool :=
  byte == 60 && (s.mode == .text || (s.mode == .code && opensElement next s.previous))

/-- A closing brace in code: the frame it closes says where the reading goes on,
    and a frame no brace opened stays. -/
def closeBrace : Lexer :=
  match s.frames with
  | .substitution :: frames => { s with frames := frames, mode := .template }
  | .tagExpression outer :: frames => { s with frames := frames, depth := outer, mode := .tag }
  | .textExpression outer :: frames => { s with frames := frames, depth := outer, mode := .text }
  | .brace :: frames => { s with frames := frames }
  | .paren :: _ | .bracket :: _ | [] => s

/-- One byte of code that opens no tag. -/
def code : Lexer :=
  if byte = 39 then { s with mode := .single }
  else if byte = 34 then { s with mode := .double }
  else if byte = 96 then { s with mode := .template }
  else if byte = 47 ∧ next = some 47 then { s with mode := .lineComment, skip := true }
  else if byte = 47 ∧ next = some 42 then { s with mode := .blockComment, skip := true }
  else if byte = 40 ∨ byte = 91 ∨ byte = 123 then s.push (opened byte)
  else if byte = 41 then { s with frames := close s.frames .paren }
  else if byte = 93 then { s with frames := close s.frames .bracket }
  else if byte = 125 then s.closeBrace
  else s

/-- The count of open elements once the tag at hand ends. -/
def tagged : Nat := if s.closing then s.depth - 1 else s.depth + 1

/-- One byte inside a tag. -/
def tag : Lexer :=
  if byte = 39 ∨ byte = 34 then { s with quote := byte, mode := .tagQuote }
  else if byte = 123 then { s.push (.tagExpression s.depth) with depth := 0, mode := .code }
  else if byte = 47 ∧ next = some 62 then { s with mode := inside s.depth, skip := true }
  else if byte = 62 then { s with depth := s.tagged, mode := inside s.tagged }
  else s

/-- One byte of a string, a template or a comment. -/
def literal : Lexer :=
  match s.mode with
  | .template =>
    if byte = 36 ∧ next = some 123 then
      { s.push .substitution with mode := .code, skip := true }
    else if byte = 96 then { s with mode := .code }
    else if byte = 92 then { s with skip := true }
    else s
  | .single =>
    if byte = 39 then { s with mode := .code }
    else if byte = 92 then { s with skip := true }
    else s
  | .double =>
    if byte = 34 then { s with mode := .code }
    else if byte = 92 then { s with skip := true }
    else s
  | .lineComment => if byte = 10 then { s with mode := .code } else s
  | .blockComment =>
    if byte = 42 ∧ next = some 47 then { s with mode := .code, skip := true } else s
  | .code | .tag | .tagQuote | .text => s

/-- What one byte does. -/
def turn : Lexer :=
  if s.opensTag byte next then
    { s with closing := next == some 47, skip := next == some 47, mode := .tag }
  else
    match s.mode with
    | .code => s.code byte next
    | .tag => s.tag byte next
    | .tagQuote => if byte = s.quote then { s with mode := .tag } else s
    | .text =>
      if byte = 123 then { s.push (.textExpression s.depth) with depth := 0, mode := .code } else s
    | .template | .single | .double | .lineComment | .blockComment => s.literal byte next

end Lexer

/-- Tab, line feed, form feed, carriage return and space. -/
def asciiWhitespace (byte : UInt8) : Bool := [9, 10, 12, 13, 32].contains byte

namespace Lexer

/-- The last byte of code that is not white space. -/
def remember (s : Lexer) (byte : UInt8) : Lexer :=
  { s with
    previous := if s.mode = .code ∧ asciiWhitespace byte = false then byte else s.previous }

/-- One turn of the loop, at a byte and with the one that follows it in sight. -/
def read (s : Lexer) (byte : UInt8) (next : Option UInt8) : Lexer :=
  if s.skip then { s with skip := false } else (s.turn byte next).remember byte

/-- What the variables say at the end of a chunk. -/
def verdict (s : Lexer) : Completeness :=
  if s.mode = .code ∧ s.frames = [] then .complete else .incomplete

end Lexer

/-- Whether a chunk of embedded JavaScript can end where it ends. -/
def completeness (source : String) : Completeness :=
  (scan Lexer.read {} (utf8 source) none).verdict

end Amiss.Js
