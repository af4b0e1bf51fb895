import Amiss.Base.BigEndian
import Amiss.Base.Entries

/-!
# Wire Values

The identifiers and closed enumerations every crate shares: digests, paths,
object ids, and the taxonomies whose declaration order is their order.

A `Digest` is the number its bytes spell in big-endian order, so the byte
order the source compares by is the order of numbers. The width is not
bounded here: SHA-256 itself lies outside the sources and enters every model
as a parameter, and no function of the sources reads a digest's width.

A `RepoPath` carries the proof that its bytes pass `pathBytesValid`, so a
path that is not a path cannot be built. Both `RepoPath` and text compare by
bytes.

## Main definitions

* `Digest`: A digest, compared by its bytes.
* `pathBytesValid`: The byte grammar of a repository path.
* `RepoPath`: A repository path.
* `Oid`: A full object id of one object format.
* `domainDigest`: A domain-separated digest.
-/

namespace Amiss

/-- Raw bytes. -/
abbrev Bytes := List UInt8

instance : LawfulBEq Bytes := inferInstance

/-- The UTF-8 bytes of a text. -/
def utf8 (text : String) : Bytes := text.toUTF8.data.toList

theorem utf8_injective : Function.Injective utf8 := by
  intro left right h
  have hbytes : left.toUTF8 = right.toUTF8 :=
    ByteArray.ext (Array.toList_inj.mp h)
  exact String.toByteArray_inj.mp hbytes

theorem utf8_append (left right : String) : utf8 (left ++ right) = utf8 left ++ utf8 right := by
  unfold utf8
  simp

/-- An ASCII letter. -/
def asciiAlphabetic (byte : UInt8) : Bool :=
  (65 ≤ byte && byte ≤ 90) || (97 ≤ byte && byte ≤ 122)

/-- An ASCII letter or digit. -/
def asciiAlphanumeric (byte : UInt8) : Bool :=
  (48 ≤ byte && byte ≤ 57) || (65 ≤ byte && byte ≤ 90) || (97 ≤ byte && byte ≤ 122)

/-- A text from bytes, where they are text. -/
def textOf (bytes : Bytes) : Option String := String.fromUTF8? ⟨bytes.toArray⟩

theorem textOf_eq_some {bytes : Bytes} {text : String} :
    textOf bytes = some text ↔ bytes = utf8 text := by
  unfold textOf String.fromUTF8?
  constructor
  · intro h
    split at h
    next => rw [← Option.some.inj h]; rfl
    next => cases h
  · intro h
    have hbytes : (⟨bytes.toArray⟩ : ByteArray) = text.toUTF8 := by rw [h]; rfl
    rw [hbytes]
    exact dif_pos text.isValidUTF8

/-- The largest 64-bit count. -/
def u64Max : Nat := 2 ^ 64 - 1

def saturatingAdd (left right : Nat) : Nat := min (left + right) u64Max

/-- A digest, as the number its bytes spell. -/
structure Digest where
  value : Nat
  deriving DecidableEq

theorem Digest.value_injective : Function.Injective Digest.value := by
  intro a b h
  cases a
  cases b
  simp only at h
  rw [h]

instance : LinearOrder Digest := orderBy Digest.value Digest.value_injective

/-- A digest without collisions: the number that the bytes spell behind a one. -/
def Digest.spelled (bytes : Bytes) : Digest := ⟨ofBeBytes (1 :: bytes)⟩

theorem Digest.spelled_injective : Function.Injective Digest.spelled := by
  intro left right h
  exact ofBeBytes_lead_injective (congrArg Digest.value h)

/-- The digest of `bytes` under `domain`: the domain, a zero byte, the bytes. -/
def domainDigest (sha256 : Bytes → Digest) (domain : String) (bytes : Bytes) : Digest :=
  sha256 (utf8 domain ++ 0 :: bytes)

/-- Under one domain, digests of different bytes differ. -/
theorem domainDigest_injective {sha256 : Bytes → Digest} (h : Function.Injective sha256)
    (domain : String) : Function.Injective (domainDigest sha256 domain) := by
  intro left right heq
  have hbytes := h heq
  rw [List.append_right_inj, List.cons.injEq] at hbytes
  exact hbytes.2

/-- What a path segment holds so far: a name once it holds anything other
    than one or two dots. -/
inductive Segment where
  | empty
  | dot
  | dotDot
  | named
  deriving DecidableEq

/-- One byte of the path grammar, `none` where the path is refused. -/
def Segment.next (segment : Segment) (byte : UInt8) : Option Segment :=
  if byte = 47 ∧ segment = .named then some .empty
  else if byte = 0 ∨ byte = 92 ∨ byte = 47 then none
  else if byte = 46 then
    match segment with
    | .empty => some .dot
    | .dot => some .dotDot
    | .dotDot | .named => some .named
  else some .named

/-- The path grammar over the remaining bytes. -/
def Segment.scan : Segment → Bytes → Option Segment
  | segment, [] => some segment
  | segment, byte :: tail =>
    match segment.next byte with
    | none => none
    | some next => next.scan tail

/-- The byte grammar of a repository path. -/
def pathBytesValid (raw : Bytes) : Bool :=
  if raw.isEmpty || raw.length > 4096 then false
  else Segment.empty.scan raw == some .named

/-- The bytes of a byte string as numbers, the form byte strings are compared in. -/
def spellingOf (bytes : Bytes) : List Nat := bytes.map UInt8.toNat

theorem spellingOf_injective : Function.Injective spellingOf := by
  refine List.map_injective_iff.mpr ?_
  intro x y hxy
  exact UInt8.toNat_inj.mp hxy

/-- A repository path: bytes that pass the grammar. -/
structure RepoPath where
  bytes : Bytes
  valid : pathBytesValid bytes = true
  deriving DecidableEq

/-- Validates the byte grammar. -/
def RepoPath.fromBytes (raw : Bytes) : Option RepoPath :=
  if h : pathBytesValid raw = true then some ⟨raw, h⟩ else none

/-- The bytes of a path as numbers, the form paths are compared in. -/
def RepoPath.spelling (path : RepoPath) : List Nat := path.bytes.map UInt8.toNat

theorem RepoPath.spelling_injective : Function.Injective RepoPath.spelling := by
  intro a b h
  have hbytes : a.bytes = b.bytes := spellingOf_injective h
  cases a
  cases b
  simp only at hbytes
  subst hbytes
  rfl

instance : LinearOrder RepoPath := orderBy RepoPath.spelling RepoPath.spelling_injective

/-- A path and the directories above it, the nearest first. -/
def ancestors (path : Bytes) : List Bytes :=
  path :: (((List.range path.length).reverse.filter (fun i => path[i]? = some 47)).map path.take)

/-- Git object formats. -/
inductive ObjectFormat where
  | sha1
  | sha256
  deriving DecidableEq

instance : LinearOrder ObjectFormat :=
  orderBy ObjectFormat.ctorIdx
    (Function.LeftInverse.injective ObjectFormat.ofNat_ctorIdx)

/-- The number of hexadecimal digits of an object id. -/
def ObjectFormat.hexLength : ObjectFormat → Nat
  | .sha1 => 40
  | .sha256 => 64

/-- A lowercase hexadecimal digit. -/
def lowercaseHex (c : Char) : Bool :=
  ('0' ≤ c && c ≤ '9') || ('a' ≤ c && c ≤ 'f')

/-- Full lowercase hexadecimal of exactly the format's length. -/
def oidHex (objectFormat : ObjectFormat) (raw : String) : Bool :=
  raw.length == objectFormat.hexLength && raw.toList.all lowercaseHex

/-- A full lowercase object id for one declared object format. -/
structure Oid where
  objectFormat : ObjectFormat
  raw : String
  valid : oidHex objectFormat raw = true
  deriving DecidableEq

/-- None unless the text is an object id of the format. -/
def Oid.new (objectFormat : ObjectFormat) (raw : String) : Option Oid :=
  if h : oidHex objectFormat raw = true then some ⟨objectFormat, raw, h⟩ else none

/-- The derived field order of an object id. -/
def Oid.fields (oid : Oid) : ObjectFormat ×ₗ String := toLex (oid.objectFormat, oid.raw)

theorem Oid.fields_injective : Function.Injective Oid.fields := by
  intro a b h
  cases a
  cases b
  simp only [Oid.fields, EmbeddingLike.apply_eq_iff_eq, Prod.mk.injEq] at h
  rcases h with ⟨rfl, rfl⟩
  rfl

instance : LinearOrder Oid := orderBy Oid.fields Oid.fields_injective

/-- The five closed source adapters. -/
inductive Adapter where
  | asciiDoc
  | markdown
  | mdx
  | plainAdvisory
  | rst
  deriving DecidableEq

instance : LinearOrder Adapter :=
  orderBy Adapter.ctorIdx (Function.LeftInverse.injective Adapter.ofNat_ctorIdx)

/-- The syntax that carries one reference. -/
inductive SourceConstruct where
  | inlineLink
  | fullReferenceLink
  | collapsedReferenceLink
  | shortcutReferenceLink
  | autolink
  | inlineImage
  | fullReferenceImage
  | collapsedReferenceImage
  | shortcutReferenceImage
  | asciidocCrossReference
  | asciidocInternalCrossReference
  | asciidocLinkMacro
  | asciidocBlockImage
  | asciidocInlineImage
  | asciidocInclude
  | asciidocUrl
  | rstInlineHyperlink
  | rstNamedTarget
  | rstImageDirective
  | rstIncludeDirective
  | rstFileOption
  | rstDocRole
  | rstRefRole
  | rstTocTreeEntry
  | rstDownloadRole
  | rstNumrefRole
  | rstTermRole
  | rstTargetOption
  | linkReferenceDefinition
  | mdbookInclude
  | mkdocsSnippet
  | markdownLiquidLink
  | markdownLiquidUrl
  | markdownHugoRef
  | markdownUndefinedReference
  | markdownUndefinedImageReference
  | markdownAgentImport
  | htmlAnchor
  | htmlImage
  deriving DecidableEq

instance : LinearOrder SourceConstruct :=
  orderBy SourceConstruct.ctorIdx
    (Function.LeftInverse.injective SourceConstruct.ofNat_ctorIdx)

/-- The construct shows an image. -/
def SourceConstruct.isImage : SourceConstruct → Bool
  | .inlineImage | .fullReferenceImage | .collapsedReferenceImage | .shortcutReferenceImage
  | .asciidocBlockImage | .asciidocInlineImage | .rstImageDirective | .htmlImage
  | .markdownUndefinedImageReference => true
  | _ => false

/-- What kind of entry a reference promises. -/
inductive TargetKind where
  | blob
  | tree
  | either
  deriving DecidableEq

instance : LinearOrder TargetKind :=
  orderBy TargetKind.ctorIdx
    (Function.LeftInverse.injective TargetKind.ofNat_ctorIdx)

/-- The modes of a Git tree entry. -/
inductive GitMode where
  | regularFile
  | executableFile
  | tree
  | symlink
  | gitlink
  deriving DecidableEq

instance : LinearOrder GitMode :=
  orderBy GitMode.ctorIdx (Function.LeftInverse.injective GitMode.ofNat_ctorIdx)

/-- What a reference asks for, before any lookup. -/
inductive IntentKind where
  | repositoryPath
  | sameRepositoryGithub
  | sameRepositoryGitlab
  | sameRepositoryGitea
  | sameRepositoryBitbucketCloud
  | sameRepositoryBitbucketDataCenter
  | externalUrl
  | siteRoute
  | label
  | unsupported
  deriving DecidableEq

instance : LinearOrder IntentKind :=
  orderBy IntentKind.ctorIdx
    (Function.LeftInverse.injective IntentKind.ofNat_ctorIdx)

end Amiss
