import Amiss.Core.Finding
import Amiss.Core.Route

/-!
# Provable Edits of Missing References

The one edit that repairs a group of missing references: a respelled anchor, a
respelled path, or the path the change moved the missed bytes to. An edit is
offered only where every member of the group needs that same edit.

## Main definitions

* `anchorFix`, `pathFix`, `relocationFix`: The three edits.
* `missingFix`: The edit of a group.
-/

namespace Amiss

variable (observation : Observation)

def anchorFix (near : String) : Option FindingFix := do
  let path ← observation.document.asText
  let span ← observation.fragmentSpan
  pure ⟨path, span, near, .anchorRespelling⟩

/-- The intent is the resolver's join, so only its tail is the author's
    spelling to respell. -/
def pathFix (near : RepoPath) : Option FindingFix := do
  let span ← observation.pathSpan
  let part := (utf8 observation.rawDestination).takeWhile (fun byte => byte ≠ 35)
  let missed ← observation.intent.repositoryPath
  guard (part.length ≤ missed.bytes.length)
  let tailAt := missed.bytes.length - part.length
  guard (missed.bytes.drop tailAt = part)
  -- The tail starts a segment.
  guard (tailAt = 0 ∨ missed.bytes[tailAt - 1]? = some 47)
  guard (tailAt ≤ near.bytes.length ∧ near.bytes.take tailAt = missed.bytes.take tailAt)
  let _ ← near.asStr
  let replacement ← textOf (near.bytes.drop tailAt)
  let path ← observation.document.asText
  pure ⟨path, span, replacement, .pathRespelling⟩

/-- A spelling that reads back as it is written. -/
def plainSpelling (text : Bytes) : Bool :=
  !text.isEmpty && text.head? != some 47 &&
    text.all (fun byte => byte ∉ ([37, 32, 40, 41, 60, 62, 92, 58] : Bytes))

/-- How many leading segments two lists share. -/
def sharedSegments : List Bytes → List Bytes → Nat
  | left :: lefts, right :: rights =>
    if left = right then sharedSegments lefts rights + 1 else 0
  | _, _ => 0

/-- The path to `target` written from the directory `beside`. -/
def relativeSpelling (beside target : Bytes) : Bytes :=
  let source := (beside.splitOn 47).filter (fun segment => !segment.isEmpty)
  let goal := target.splitOn 47
  let shared := sharedSegments source goal
  let written := List.replicate (source.length - shared) [46, 46] ++ goal.drop shared
  (written.intersperse [47]).flatten

/-- A plain relative path that reached the missed file from beside its
    document is rewritten, relative the same way, to the one path the change
    moved identical bytes to. -/
def relocationFix (moved : RepoPath) : Option FindingFix := do
  let span ← observation.pathSpan
  let part := (utf8 observation.rawDestination).takeWhile (fun byte => byte ≠ 35 ∧ byte ≠ 63)
  let _ ← moved.asStr
  let target := moved.bytes
  guard (plainSpelling part ∧ plainSpelling target)
  let beside := directory observation.document.bytes
  let reached ← (normalizedPathUnder beside false part).toOption
  guard (some reached.1 = observation.intent.repositoryPath)
  let _ ← textOf beside
  let relative := relativeSpelling beside target
  let written :=
    if part.take 2 = [46, 47] ∧ relative.take 3 ≠ [46, 46, 47] then 46 :: 47 :: relative
    else relative
  let replacement ← textOf written
  let path ← observation.document.asText
  pure ⟨path, span, replacement, .pathRelocation⟩

/-- The edit one missing reference needs. -/
def memberFix : Option FindingFix :=
  match observation.resolution with
  | .missing (.headingAnchorNotFound _ (some near)) => anchorFix observation near
  | .missing (.pathNotFound _ (some near) _) => pathFix observation near
  | .missing (.pathNotFound _ none (some moved)) => relocationFix observation moved
  | _ => none

/-- The edit of a group: the one every member needs. -/
def missingFix : List Observation → Option FindingFix
  | [] => none
  | first :: rest => do
    let edit ← memberFix first
    guard (rest.all (fun other => memberFix other = some edit))
    pure edit

end Amiss
