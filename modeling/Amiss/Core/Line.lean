import Amiss.Base.Lines
import Amiss.Base.Reading
import Amiss.Core.Finding

/-!
# Selected Lines

The two ways a selector names bytes of a file: a range of lines, and the region
between two marker lines. A range walks the shared line scanner. A region looks
for each marker anywhere in the file, keeps the occurrences that fill a whole
line, and takes what lies between the only two left.

The scanner's lines are positions, a line ends behind its ending. The search for
a marker yields its occurrences from the front, none of which overlap.

## Main definitions

* `scanLines`: The shared line scanner.
* `selectedLineBytes`: The bytes of a range of lines.
* `uniqueMarkerLine`: The one line that is a marker.
* `namedRegionBytes`: The bytes between two marker lines.
-/

namespace Amiss

/-- The start and the end of every line, from the start of the current one. -/
def scanLinesFrom (start cursor : Nat) : Bytes → List (Nat × Nat)
  | [] => if start < cursor then [(start, cursor)] else []
  | 13 :: 10 :: rest => (start, cursor + 2) :: scanLinesFrom (cursor + 2) (cursor + 2) rest
  | byte :: rest =>
    if byte = 10 ∨ byte = 13 then
      (start, cursor + 1) :: scanLinesFrom (cursor + 1) (cursor + 1) rest
    else scanLinesFrom start (cursor + 1) rest

def scanLines (source : Bytes) : List (Nat × Nat) := scanLinesFrom 0 0 source

structure LineRange where
  first : Nat
  last : Nat
  deriving DecidableEq

/-- The walk over the lines, which remembers where the first selected one
    starts. -/
def selectLines (source : Bytes) (range : LineRange) :
    Nat → Option Nat → List (Nat × Nat) → Option Bytes
  | _, _, [] => none
  | number, selection, line :: lines =>
    let number := number + 1
    let selection := if number = range.first then some line.1 else selection
    if number = range.last then selection.bind (fun start => slice source start line.2)
    else selectLines source range number selection lines

/-- The bytes from the first selected line through the last, endings included. -/
def selectedLineBytes (source : Bytes) (range : LineRange) : Option Bytes :=
  selectLines source range 0 none (scanLines source)

/-! ### Named regions -/

/-- `memmem::find_iter` of the `memchr` crate: the occurrences of a marker from the
    front that do not overlap; so many bytes ahead belong to the last one. -/
def findIter (marker : Bytes) : Nat → Nat → Bytes → List Nat
  | 0, position, [] => if marker = [] then [position] else []
  | _ + 1, _, [] => []
  | 0, position, byte :: rest =>
    if marker.isPrefixOf (byte :: rest) then
      position :: findIter marker (marker.length - 1) (position + 1) rest
    else findIter marker 0 (position + 1) rest
  | skip + 1, position, _ :: rest => findIter marker skip (position + 1) rest

/-- An occurrence that fills a line: where the line starts, and what follows it. -/
def markerLine (body marker : Bytes) (position : Nat) : Option (Nat × Nat) :=
  if 0 < position ∧ body[position - 1]? ≠ some 13 ∧ body[position - 1]? ≠ some 10 then none
  else
    let stop := position + marker.length
    if body[stop]? = some 13 ∧ body[stop + 1]? = some 10 then some (position, stop + 2)
    else if body[stop]? = some 13 ∨ body[stop]? = some 10 then some (position, stop + 1)
    else if body[stop]? = none then some (position, stop)
    else none

def uniqueMarkerLine (body marker : Bytes) (absent ambiguous : ProjectionObserved) :
    Except ProjectionObserved (Nat × Nat) :=
  match (findIter marker 0 0 body).filterMap (markerLine body marker) with
  | [] => .error absent
  | [line] => .ok line
  | _ => .error ambiguous

/-- The bytes between two marker lines, which have to be text. -/
def namedRegionBytes (body startMarker endMarker : Bytes) : Except ProjectionObserved Bytes := do
  let startLine ← uniqueMarkerLine body startMarker .sourceStartMarkerAbsent
    .sourceStartMarkerAmbiguous
  let endLine ← uniqueMarkerLine body endMarker .sourceEndMarkerAbsent .sourceEndMarkerAmbiguous
  if endLine.1 ≤ startLine.1 ∨ endLine.1 < startLine.2 then throw .sourceRegionOrderInvalid
  match slice body startLine.2 endLine.1 with
  | none => throw .sourceRegionOrderInvalid
  | some selected =>
    if (textOf selected).isNone then throw .sourceRegionNotUtf8
    return selected

end Amiss
