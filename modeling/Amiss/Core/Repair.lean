import Amiss.Base.Sorted
import Amiss.Core.Wire

/-!
# Repairs

`amiss fix` replaces spans of a staged document and writes the result to the
worktree. What the file system answers about the document's path is the
argument, and what is handed to it for writing stands beside the outcome.

## Main definitions

* `splice`: The staged bytes with every span replaced.
* `crlfCheckout`: The bytes a CRLF checkout has for a blob.
* `repairDocument`: One document of a repair.
-/

namespace Amiss

/-- A span of the staged document, and what is to stand in its place. -/
structure Fix where
  start : Nat
  stop : Nat
  replacement : String
  deriving DecidableEq

inductive DocumentOutcome where
  | applied (count : Nat)
  | alreadyApplied (count : Nat)
  | refused (reason : String)
  deriving DecidableEq

/-- One span replaced. -/
def Fix.apply (fix : Fix) (repaired : Bytes) : Option Bytes :=
  if fix.stop < fix.start ∨ repaired.length < fix.stop then none
  else some (repaired.take fix.start ++ utf8 fix.replacement ++ repaired.drop fix.stop)

/-- The repairs by their spans. References that share one definition each carry
    the same edit to it, which is kept once. -/
def ordered (rows : List Fix) : List Fix :=
  (sortBy (fun fix => toLex (fix.start, fix.stop)) rows).destutter (· ≠ ·)

/-- The spans replaced back to front, so that earlier offsets stay true. -/
def splice (source : Bytes) (rows : List Fix) : Option Bytes :=
  if (ordered rows).IsChain (fun first second => first.stop ≤ second.start) then
    (ordered rows).foldrM Fix.apply source
  else none

/-- The bytes a CRLF checkout writes for a blob that holds no carriage return. -/
def crlfCheckout (blob : Bytes) : Option Bytes :=
  if 13 ∈ blob then none
  else some (blob.flatMap (fun byte => if byte = 10 then [13, byte] else [byte]))

/-- What the file system answers about the path of a document. -/
structure DocumentFile where
  contained : Bool
  regular : Bool
  current : Option Bytes
  writable : Bool

/-- Repair one document: the outcome, and the bytes that were handed to the file
    system. -/
def repairDocument (file : DocumentFile) (rows : List Fix) (staged : Option Bytes) :
    DocumentOutcome × Option Bytes :=
  match staged with
  | none => (.refused "not in the staged index", none)
  | some staged =>
    match splice staged rows with
    | none => (.refused "overlapping or out-of-range spans", none)
    | some repaired =>
      if !file.contained then (.refused "resolves outside the worktree", none)
      else if !file.regular then (.refused "not a regular worktree file", none)
      else
        match file.current with
        | none => (.refused "unreadable in the worktree", none)
        | some current =>
          let converted := crlfCheckout repaired
          if current = repaired ∨ converted = some current then (.alreadyApplied rows.length, none)
          else
            let written := if current = staged then some repaired
              else if crlfCheckout staged = some current then converted else none
            match written with
            | none => (.refused "worktree differs from the staged bytes the fixes name", none)
            | some written =>
              (if file.writable then .applied rows.length else .refused "could not be written",
                some written)

end Amiss
