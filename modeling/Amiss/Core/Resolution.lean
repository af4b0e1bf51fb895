import Amiss.Core.Wire

/-!
# Resolutions

The outcome of resolving one authored reference. The outer constructors are
the partitions that correlation and evaluation branch on; the leaves keep the
diagnostic each of them owns. Everything is generic in the path type `P`, as
in the sources.

A located target is a tree or a blob, and only a blob that is not an LFS
pointer carries a projection digest. `Target.projectionDigest` is therefore
partial, and so is every comparison of what two references located.

## Main definitions

* `Target`: A located tree or blob.
* `Missing`: A target absent at a known path.
* `UnsupportedSemantics`: A reference whose meaning is not evaluated.
* `Resolution`: The outcome of resolving one reference.
* `ResolutionTag`, `MissingTag`, `TargetTag`: The constructors without data.
-/

namespace Amiss

/-- The two ordinary Git blob modes. -/
inductive BlobMode where
  | regular
  | executable
  deriving DecidableEq

/-- The content evidence of a located blob. -/
inductive BlobContent where
  | available (rawDigest projectionDigest : Digest)
  | lfsPointer (rawDigest : Digest)
  deriving DecidableEq

/-- An available blob has a projection digest, an LFS pointer has none. -/
def BlobContent.projectionDigest : BlobContent → Option Digest
  | .available _ projectionDigest => some projectionDigest
  | .lfsPointer _ => none

def BlobContent.isLfsPointer : BlobContent → Bool
  | .available _ _ => false
  | .lfsPointer _ => true

/-- A located ordinary blob and the evidence read from it. -/
structure BlobTarget (P : Type) where
  path : P
  mode : BlobMode
  content : BlobContent
  deriving DecidableEq

/-- A located target. -/
inductive Target (P : Type) where
  | tree (path : P)
  | blob (target : BlobTarget P)
  deriving DecidableEq

/-- The constructors of `Target`. -/
inductive TargetTag where
  | tree
  | blob
  deriving DecidableEq

def Target.tag {P : Type} : Target P → TargetTag
  | .tree _ => .tree
  | .blob _ => .blob

def Target.projectionDigest {P : Type} : Target P → Option Digest
  | .tree _ => none
  | .blob target => target.content.projectionDigest

def Target.isLfsPointer {P : Type} : Target P → Bool
  | .tree _ => false
  | .blob target => target.content.isLfsPointer

/-- A target that was absent at a known repository path. -/
inductive Missing (P : Type) where
  | pathNotFound (path : P) (near sameObjectAt : Option P)
  | lineFragmentOutOfRange (path : P)
  | headingAnchorNotFound (path : P) (near : Option String)
  | labelNotDeclared
  | selectionNotFound (path : P)
  deriving DecidableEq

/-- The constructors of `Missing`. -/
inductive MissingTag where
  | pathNotFound
  | lineFragmentOutOfRange
  | headingAnchorNotFound
  | labelNotDeclared
  | selectionNotFound
  deriving DecidableEq

def Missing.tag {P : Type} : Missing P → MissingTag
  | .pathNotFound _ _ _ => .pathNotFound
  | .lineFragmentOutOfRange _ => .lineFragmentOutOfRange
  | .headingAnchorNotFound _ _ => .headingAnchorNotFound
  | .labelNotDeclared => .labelNotDeclared
  | .selectionNotFound _ => .selectionNotFound

/-- A target absent at a path the ignore rules name literally. -/
structure DeclaredUntracked (P : Type) where
  path : P
  declaredBy : P
  deriving DecidableEq

/-- A special Git entry that cannot be followed. -/
inductive UnsupportedTarget (P : Type) where
  | symlink (path : P)
  | gitlink (path : P)
  deriving DecidableEq

/-- Reference syntax whose meaning is outside the evaluator. -/
inductive UnsupportedSemantics (P : Type) where
  | query (target : Target P)
  | fragment (target : BlobTarget P)
  | codeFragment (target : Target P)
  | siteRoute
  | unmodelledRoute
  | networkPath
  | attributeDependent
  | duplicateLabel
  | externalInventory
  | repositoryRoot
  | oversizedDestination
  deriving DecidableEq

def UnsupportedSemantics.isLfsPointer {P : Type} : UnsupportedSemantics P → Bool
  | .query target | .codeFragment target => target.isLfsPointer
  | .fragment target => target.content.isLfsPointer
  | .siteRoute | .unmodelledRoute | .networkPath | .attributeDependent | .duplicateLabel
  | .externalInventory | .repositoryRoot | .oversizedDestination => false

/-- What a version-scoped forge reference identifies. -/
inductive VersionScope (P : Type) where
  | knownPath (path : P)
  | knownCommit (commitOid : Oid) (path : P)
  | unknownPath
  deriving DecidableEq

/-- A syntax defect of a reference. -/
inductive InvalidReference where
  | uri
  | percentEncoding
  | decodedPathControl
  | pathTraversal
  | backslashSeparator
  | encodedSlash
  | fragmentEncoding
  | invalidSyntax
  deriving DecidableEq

/-- References intentionally outside the evaluated repository. -/
inductive ExternalReference where
  | url
  | foreignRepository
  | intersphinxInventory
  | siteBuild
  deriving DecidableEq

/-- The total outcome of resolving one authored reference. -/
inductive Resolution (P : Type) where
  | resolved (target : Target P)
  | missing (missing : Missing P)
  | declaredUntracked (declared : DeclaredUntracked P)
  | typeMismatch (target : Target P)
  | unsupportedTarget (target : UnsupportedTarget P)
  | unsupportedSemantics (semantics : UnsupportedSemantics P)
  | unsupportedVersion (scope : VersionScope P)
  | invalid (reason : InvalidReference)
  | external (reason : ExternalReference)
  deriving DecidableEq

/-- The constructors of `Resolution`. -/
inductive ResolutionTag where
  | resolved
  | missing
  | declaredUntracked
  | typeMismatch
  | unsupportedTarget
  | unsupportedSemantics
  | unsupportedVersion
  | invalid
  | external
  deriving DecidableEq

def Resolution.tag {P : Type} : Resolution P → ResolutionTag
  | .resolved _ => .resolved
  | .missing _ => .missing
  | .declaredUntracked _ => .declaredUntracked
  | .typeMismatch _ => .typeMismatch
  | .unsupportedTarget _ => .unsupportedTarget
  | .unsupportedSemantics _ => .unsupportedSemantics
  | .unsupportedVersion _ => .unsupportedVersion
  | .invalid _ => .invalid
  | .external _ => .external

def Resolution.isLfsPointer {P : Type} : Resolution P → Bool
  | .resolved target | .typeMismatch target => target.isLfsPointer
  | .unsupportedSemantics semantics => semantics.isLfsPointer
  | .missing _ | .declaredUntracked _ | .unsupportedTarget _ | .unsupportedVersion _
  | .invalid _ | .external _ => false

end Amiss
