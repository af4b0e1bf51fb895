import Amiss.Base.Hex
import Amiss.Base.Reading
import Amiss.Core.Resolution

/-!
# Relative Destinations

How a destination written in a document becomes a repository path: segments
decode once, `.` and inner `..` normalize away, and a path that leaves the
repository is refused.

Texts are handled as their UTF-8 bytes. Every character the sources split or
test at is ASCII, and an ASCII byte never occurs inside a longer encoding.

## Main definitions

* `splitComponents`: The path, the query and the fragment of a destination.
* `directory`: The directory a document sits in.
* `decodeComponent`: One segment with its escapes decoded.
* `normalizedPathUnder`: A destination relative to one directory.
-/

namespace Amiss

/-- What precedes the first mark, and what follows it where there is one. -/
def splitOnce (mark : UInt8) (text : Bytes) : Bytes × Option Bytes :=
  (cutAt mark text).elim (text, none) (fun parts => (parts.1, some parts.2))

/-- The path, the query and the fragment: the first `#` opens the fragment, and
    within what precedes it the first `?` opens the query. -/
def splitComponents (semantic : Bytes) : Bytes × Option Bytes × Option Bytes :=
  let (before, fragment) := splitOnce 35 semantic
  let (path, query) := splitOnce 63 before
  (path, query, fragment)

/-- What precedes the last slash, nothing where there is none. -/
def beforeLastSlash (bytes : Bytes) : Bytes :=
  ((bytes.reverse.dropWhile (fun byte => byte ≠ 47)).drop 1).reverse

/-- The directory a document sits in, empty at the root. -/
def directory (document : Bytes) : Bytes := beforeLastSlash document

/-- Some percent sign is not followed by two hexadecimal digits. -/
def hasMalformedEscape : Bytes → Bool
  | [] => false
  | byte :: rest =>
    (byte == 37 && !(match rest with
      | a :: b :: _ => (hexValue a).isSome && (hexValue b).isSome
      | _ => false)) || hasMalformedEscape rest

/-- `percent_decode_str` of the `percent-encoding` crate: a percent sign that
    starts no escape stands for itself. -/
def percentDecode : Bytes → Bytes
  | 37 :: a :: b :: rest =>
    match hexValue a, hexValue b with
    | some high, some low => UInt8.ofNat (16 * high + low) :: percentDecode rest
    | _, _ => 37 :: percentDecode (a :: b :: rest)
  | byte :: rest => byte :: percentDecode rest
  | [] => []

/-- Decode one component once. A malformed escape outranks a refused byte. -/
def decodeComponent (text : Bytes) (invalid : UInt8 → Option InvalidReference) :
    Except InvalidReference Bytes :=
  if hasMalformedEscape text then .error .percentEncoding
  else
    let decoded := percentDecode text
    match decoded.findSome? invalid with
    | some reason => .error reason
    | none => .ok decoded

def invalidPathByte (byte : UInt8) : Option InvalidReference :=
  if byte = 47 then some .encodedSlash
  else if byte = 92 then some .backslashSeparator
  else if byte ≤ 31 ∨ byte = 127 then some .decodedPathControl
  else none

/-- Walk one segment from the path reached so far. -/
def walkSegment (resolved segment : Bytes) : Except InvalidReference Bytes :=
  match decodeComponent segment invalidPathByte with
  | .error reason => .error reason
  | .ok decoded =>
    if decoded = [46] then .ok resolved
    else if decoded = [46, 46] then
      if resolved = [] then .error .pathTraversal else .ok (beforeLastSlash resolved)
    else if resolved = [] then .ok decoded
    else .ok (resolved ++ 47 :: decoded)

/-- A destination relative to one directory, and the kind it promises. -/
def normalizedPathUnder (parent : Bytes) (isImage : Bool) (pathPart : Bytes) :
    Except (Resolution RepoPath) (RepoPath × TargetKind) :=
  if 92 ∈ pathPart then .error (.invalid .backslashSeparator)
  else
    let trailingSlash := pathPart.length > 1 && pathPart.getLast? == some 47
    let path := if pathPart.getLast? = some 47 then pathPart.dropLast else pathPart
    let segments := path.splitOn 47
    if [] ∈ segments ∨ (trailingSlash ∧ isImage) then .error (.invalid .invalidSyntax)
    else
      let targetKind : TargetKind :=
        if trailingSlash then .tree else if isImage then .blob else .either
      match segments.foldlM walkSegment parent with
      | .error reason => .error (.invalid reason)
      | .ok resolved =>
        if resolved = [] ∧ ¬ isImage then .error (.unsupportedSemantics .repositoryRoot)
        else
          match RepoPath.fromBytes resolved with
          | none => .error (.invalid .invalidSyntax)
          | some joined => .ok (joined, targetKind)

end Amiss
