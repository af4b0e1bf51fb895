import Amiss.Base.Metered
import Amiss.Core.Document
import Amiss.Core.Git.Tree
import Amiss.Core.Observation

/-!
# Scanning a Document

One document body, parsed by its adapter's grammar and charged against the
budgets of its snapshot: embedded code, nodes and nesting, then every
reference in document order. The first crossing or fault ends the document.

A scan that succeeded can be met again, on the other side of a run or under
another path. Its charges are then replayed from what it recorded, without the
bytes.

The grammars are parameters. Only MDX is given an allowance, because only its
grammar rescans embedded code.

## Main definitions

* `Scanned`: What one document's scan holds.
* `ScanResources`: The budgets of a snapshot and what was charged to them.
* `scanBytes`: The scan of one document body.
* `replayScanCharges`: The charges of a scan that is already there.
-/

namespace Amiss

/-! ### Errors -/

/-- The faults of a parse. -/
inductive Fault where
  | documentInvalid
  | documentUnparsable
  | parserError
  | parserPanic
  | invalidSourceSpan
  deriving DecidableEq

/-- The budgets a snapshot's discovery can cross. -/
inductive ResourceName where
  | gitTreeEntriesPerSnapshot
  | rawPathBytes
  | documentsPerSnapshot
  | documentBlobBytes
  | aggregateDocumentBytesPerSnapshot
  | parserNesting
  | parserNodesPerDocument
  | parserNodesPerSnapshot
  | aggregateEmbeddedCodeEvaluationBytesPerSnapshot
  | referencesPerDocument
  | referencesPerSnapshot
  | declaredLabelsPerSnapshot
  deriving DecidableEq

/-- The defects of reading a snapshot. -/
inductive SnapshotError where
  | parse (fault : Fault)
  | git (defect : GitDefect)
  | unrepresentablePath
  | internal
  | resourceLimit (resource : ResourceName) (configuredLimit observedLowerBound : Nat)
  deriving DecidableEq

/-- A defect that fails its document alone. -/
def SnapshotError.isDocumentScoped : SnapshotError → Bool
  | .parse _ | .git _ | .unrepresentablePath => true
  | .internal => false
  | .resourceLimit resource _ _ =>
    resource = .documentBlobBytes || resource = .parserNesting ||
      resource = .parserNodesPerDocument || resource = .referencesPerDocument

/-! ### What a scan holds -/

structure Occurrence where
  construct : SourceConstruct
  rawDestination : String
  semanticDestination : String
  span : Nat × Nat
  blockSpan : Nat × Nat
  fragmentSpan : Option (Nat × Nat)
  pathSpan : Option (Nat × Nat)
  deriving DecidableEq

/-- An occurrence with what the report needs beyond it. -/
structure ScannedOccurrence where
  occurrence : Occurrence
  display : SpanDisplay
  projectionDigest : Digest
  rawDestinationDigest : Digest
  deriving DecidableEq

inductive TransclusionKind where
  | parsed
  | literal
  deriving DecidableEq

/-- Why an include cannot join the local expansion graph. -/
inductive TransclusionRefusal where
  | context
  | dynamicTarget
  | options
  | template
  | liquid
  deriving DecidableEq

structure Transclusion where
  target : String
  span : Nat × Nat
  kind : TransclusionKind ⊕ TransclusionRefusal
  deriving DecidableEq

structure HeadingAttribute where
  id : String
  suffix : String
  deriving DecidableEq

inductive HeadingSource where
  | markdown
  | asciiDoc
  | rst
  | rawHtml
  | definitionTerm
  | footnoteReference
  | footnoteDefinition
  deriving DecidableEq

structure Heading where
  text : String
  attributeBlock : Option HeadingAttribute
  source : HeadingSource
  span : Nat × Nat
  deriving DecidableEq

structure SemanticCodeBlock where
  span : Nat × Nat
  value : String

structure GovernedDefinition where
  span : Nat × Nat
  url : String
  title : Option String
  label : String
  angled : Bool
  previousCode : Option SemanticCodeBlock

/-- The opaque partition of a document. -/
structure Opaque where
  frontmatterBytes : Nat
  mdx : List (Nat × Nat)
  html : List (Nat × Nat)
  deriving DecidableEq

structure Extraction where
  occurrences : List Occurrence
  transclusions : List Transclusion
  opaqueParts : Opaque
  governed : List GovernedDefinition
  headings : List Heading
  htmlAnchors : List String
  declaredAnchors : List String

structure Work where
  nodes : Nat
  nesting : Nat
  deriving DecidableEq

structure Analysis where
  work : Work
  embeddedCodeBytes : Nat
  extraction : Option Extraction

inductive AnalyzeError where
  | fault (fault : Fault)
  | embeddedCodeAllowance (spent : Nat)
  deriving DecidableEq

structure ValueClaim where
  name : String
  path : RepoPath
  line : Nat
  expected : String
  deriving DecidableEq

/-- What a reserved governed definition spells. -/
inductive GovernedForm where
  | value (claim : ValueClaim)
  | projection (name : String)
  | unknown
  deriving DecidableEq

structure SemanticCodeSink where
  span : Nat × Nat
  display : SpanDisplay
  digest : Digest
  value : Bytes
  deriving DecidableEq

structure GovernedSource where
  span : Nat × Nat
  display : SpanDisplay
  digest : Digest
  form : GovernedForm
  previousCode : Option SemanticCodeSink
  deriving DecidableEq

/-- What the resolver reads anchors from. -/
structure AnchorSource where
  headings : List Heading
  htmlAnchors : List String
  transclusions : List Transclusion
  deriving DecidableEq

/-- What a document's frontmatter says about its publication. -/
structure PagePublication where
  slug : Option String
  id : Option String
  redirects : List String
  layout : Bool
  deriving DecidableEq

/-- Where an AsciiDoc document's images resolve from. -/
inductive ImagesDir where
  | beside
  | under (images : String)
  | unknown
  deriving DecidableEq

structure Scanned where
  adapter : Adapter
  work : Work
  embeddedCodeBytes : Nat
  occurrences : List ScannedOccurrence
  opaqueParts : Opaque
  governed : List GovernedSource
  declaredAnchors : List String
  publication : PagePublication
  imagesDir : ImagesDir
  anchorSource : Option AnchorSource
  commented : Bool
  deriving DecidableEq

/-! ### Budgets -/

/-- The discovery and parse ceilings. -/
structure ScanLimits where
  documentsPerSnapshot : Nat
  documentBlobBytes : Nat
  aggregateDocumentBytesPerSnapshot : Nat
  parserNesting : Nat
  parserNodesPerDocument : Nat
  parserNodesPerSnapshot : Nat
  aggregateEmbeddedCodeEvaluationBytesPerSnapshot : Nat
  referencesPerDocument : Nat
  referencesPerSnapshot : Nat
  declaredLabelsPerSnapshot : Nat

/-- What two scans must agree in to be one: the object, the adapter, and for
    MDX the allowance the parse was given. -/
structure ScanIdentity where
  oid : Oid
  adapter : Adapter
  embeddedCodeAllowance : Option Nat
  deriving DecidableEq

/-- The derived field order of an identity. -/
def ScanIdentity.fields (identity : ScanIdentity) : Oid ×ₗ Adapter ×ₗ WithBot Nat :=
  toLex (identity.oid, toLex (identity.adapter, identity.embeddedCodeAllowance))

theorem ScanIdentity.fields_injective : Function.Injective ScanIdentity.fields := by
  intro a b h
  cases a
  cases b
  simp only [ScanIdentity.fields, EmbeddingLike.apply_eq_iff_eq, Prod.mk.injEq] at h
  rcases h with ⟨rfl, rfl, rfl⟩
  rfl

instance : LinearOrder ScanIdentity := orderBy ScanIdentity.fields ScanIdentity.fields_injective

/-- One scanned blob as it may be met again. -/
structure ScanMemo where
  scanned : Scanned
  byteCount : Nat
  rawDigest : Digest

/-- The charge state of one snapshot. -/
structure ScanResources where
  scans : BTreeMap ScanIdentity ScanMemo
  limits : ScanLimits
  documents : Nat
  documentBytes : Nat
  nodes : Nat
  embeddedCodeBytes : Nat
  references : Nat
  labels : Nat

/-- A computation charged to a snapshot. -/
abbrev Charging := Metered ScanResources SnapshotError

def withinLimit (value limit : Nat) (resource : ResourceName) (observedLowerBound : Nat) :
    Except SnapshotError Unit :=
  if value ≤ limit then .ok () else .error (.resourceLimit resource limit observedLowerBound)

/-- A count is charged before it is compared, and observes one past the
    limit. -/
def chargeCount (total : ScanResources → Nat) (put : Nat → ScanResources → ScanResources)
    (increment : Nat) (limit : ScanLimits → Nat) (resource : ResourceName) : Charging Unit :=
  fun resources =>
    let charged := saturatingAdd (total resources) increment
    (withinLimit charged (limit resources.limits) resource
      (saturatingAdd (limit resources.limits) 1), put charged resources)

/-- An aggregate refuses a member whole where the sum crosses. -/
def chargeAggregate (total : ScanResources → Nat) (put : Nat → ScanResources → ScanResources)
    (amount : Nat) (limit : ScanLimits → Nat) (resource : ResourceName) : Charging Unit :=
  fun resources =>
    let charged := saturatingAdd (total resources) amount
    match withinLimit charged (limit resources.limits) resource charged with
    | .error e => (.error e, resources)
    | .ok () => (.ok (), put charged resources)

/-- Counts one selected document, before its bytes are read. -/
def admitDocument : Charging Unit :=
  chargeCount ScanResources.documents (fun n resources => { resources with documents := n }) 1
    ScanLimits.documentsPerSnapshot .documentsPerSnapshot

/-- One admitted document's size: its own ceiling, then the aggregate. -/
def chargeDocumentBytes (declaredBytes : Nat) : Charging Unit := do
  let limits ← Metered.reading ScanResources.limits
  Metered.ofExcept (withinLimit declaredBytes limits.documentBlobBytes .documentBlobBytes
    declaredBytes)
  chargeAggregate ScanResources.documentBytes
    (fun n resources => { resources with documentBytes := n }) declaredBytes
    ScanLimits.aggregateDocumentBytesPerSnapshot .aggregateDocumentBytesPerSnapshot

/-- One parsed document's nesting and nodes. -/
def chargeWork (work : Work) : Charging Unit := do
  let limits ← Metered.reading ScanResources.limits
  Metered.ofExcept (withinLimit work.nesting limits.parserNesting .parserNesting
    (saturatingAdd limits.parserNesting 1))
  Metered.ofExcept (withinLimit work.nodes limits.parserNodesPerDocument .parserNodesPerDocument
    (saturatingAdd limits.parserNodesPerDocument 1))
  chargeCount ScanResources.nodes (fun n resources => { resources with nodes := n }) work.nodes
    ScanLimits.parserNodesPerSnapshot .parserNodesPerSnapshot

/-- One reference, as the given one of its document. -/
def chargeReference (documentReferences : Nat) : Charging Unit := do
  let limits ← Metered.reading ScanResources.limits
  Metered.ofExcept (withinLimit documentReferences limits.referencesPerDocument
    .referencesPerDocument (saturatingAdd limits.referencesPerDocument 1))
  chargeCount ScanResources.references (fun n resources => { resources with references := n }) 1
    ScanLimits.referencesPerSnapshot .referencesPerSnapshot

/-- One declared label. -/
def chargeLabel : Charging Unit :=
  chargeCount ScanResources.labels (fun n resources => { resources with labels := n }) 1
    ScanLimits.declaredLabelsPerSnapshot .declaredLabelsPerSnapshot

/-- The embedded-code bytes still grantable to the next parse. -/
def ScanResources.embeddedCodeAllowance (resources : ScanResources) : Nat :=
  resources.limits.aggregateEmbeddedCodeEvaluationBytesPerSnapshot - resources.embeddedCodeBytes

def chargeEmbeddedCode (spent : Nat) : Charging Unit :=
  Metered.update (fun resources =>
    { resources with embeddedCodeBytes := saturatingAdd resources.embeddedCodeBytes spent })

/-- The crossing of a parse the meter ended. -/
def embeddedCodeCrossing {α : Type} (spent : Nat) : Charging α := fun resources =>
  (.error (.resourceLimit .aggregateEmbeddedCodeEvaluationBytesPerSnapshot
    resources.limits.aggregateEmbeddedCodeEvaluationBytesPerSnapshot
    (saturatingAdd resources.embeddedCodeBytes spent)), resources)

/-! ### Line endings -/

/-- A carriage return, with a line feed behind it or alone, becomes a line
    feed. -/
def normalizeNewlines : Bytes → Bytes
  | 13 :: 10 :: rest => 10 :: normalizeNewlines rest
  | 13 :: rest => 10 :: normalizeNewlines rest
  | byte :: rest => byte :: normalizeNewlines rest
  | [] => []

/-- The same by positions, with what was put out for the bytes before one. -/
def normalizeNewlinesFrom (source : Bytes) (position : Nat) (out : Bytes) : Bytes :=
  match hbyte : source[position]? with
  | none => out
  | some byte =>
    if byte = 13 then
      if source[position + 1]? = some 10 then
        normalizeNewlinesFrom source (position + 2) (out ++ [10])
      else normalizeNewlinesFrom source (position + 1) (out ++ [10])
    else normalizeNewlinesFrom source (position + 1) (out ++ [byte])
termination_by source.length - position
decreasing_by all_goals
  have := (List.getElem?_eq_some_iff.mp hbyte).1
  omega

/-- The same over an iterator that can be asked for its next byte. -/
def normalizedFrom : Bytes → Bytes → Bytes
  | [], normalized => normalized
  | byte :: bytes, normalized =>
    if byte = 13 then
      if bytes.head? = some 10 then normalizedFrom bytes.tail (normalized ++ [10])
      else normalizedFrom bytes (normalized ++ [10])
    else normalizedFrom bytes (normalized ++ [byte])
termination_by bytes => bytes.length

/-- Bytes without a carriage return are handed back as they are. -/
def normalizedLineEndings (selected : Bytes) : Bytes :=
  if 13 ∉ selected then selected else normalizedFrom selected []

/-! ### Grammars -/

/-- The parsers and the readers of one document's own bytes. -/
structure Grammar where
  sha256 : Bytes → Digest
  /-- The grammars that ask for no embedded code. -/
  analyze : Adapter → Bytes → Except Fault (Work × Option Extraction)
  /-- The MDX grammar under an allowance. -/
  analyzeMdx : Bytes → Nat → Except AnalyzeError Analysis
  /-- The source with the HTML comments MDX refused read as comments. -/
  commentsRead : Bytes → Option Bytes
  declaredPublication : Adapter → Bytes → PagePublication
  imagesDir : Bytes → ImagesDir
  /-- The display positions of a span. -/
  display : Bytes → Nat × Nat → SpanDisplay
  /-- The claim form a definition spells. -/
  form : GovernedDefinition → GovernedForm

variable (grammar : Grammar)

/-- The one place an adapter is chosen. -/
def Grammar.parse (adapter : Adapter) (source : Bytes) (embeddedCodeAllowance : Nat) :
    Except AnalyzeError Analysis :=
  match adapter with
  | .mdx => grammar.analyzeMdx source embeddedCodeAllowance
  | .asciiDoc | .markdown | .plainAdvisory | .rst =>
    match grammar.analyze adapter source with
    | .ok (work, extraction) => .ok ⟨work, 0, extraction⟩
    | .error fault => .error (.fault fault)

def sourceProjectionDomain : String := "amiss/scanner-source-projection"

def rawDestinationDomain : String := "amiss/scanner-raw-destination"

def rawEvidenceDomain : String := "amiss/raw-evidence"

def governedSourceDomain : String := "amiss/scanner-governed-definition-source"

def projectionSinkDomain : String := "amiss/scanner-projection-sink"

variable (source : Bytes)

/-- The digest of the block an occurrence stands in; the block of the
    occurrence before is not read twice. -/
def sourceProjectionDigest (span : Nat × Nat)
    (previous : Option ((Nat × Nat) × Digest)) : Except SnapshotError Digest :=
  match previous.filter (fun cached => cached.1 = span) with
  | some cached => .ok cached.2
  | none =>
    match slice source span.1 span.2 with
    | none => .error (.parse .invalidSourceSpan)
    | some block =>
      .ok (domainDigest grammar.sha256 sourceProjectionDomain (normalizeNewlines block))

/-- What the loop over a document's occurrences holds. -/
structure OccurrenceScan where
  occurrences : List ScannedOccurrence
  documentReferences : Nat
  previousProjection : Option ((Nat × Nat) × Digest)

def scanOccurrence (scan : OccurrenceScan) (occurrence : Occurrence) :
    Charging OccurrenceScan := do
  let documentReferences := saturatingAdd scan.documentReferences 1
  chargeReference documentReferences
  let projectionDigest ← Metered.ofExcept
    (sourceProjectionDigest grammar source occurrence.blockSpan scan.previousProjection)
  pure {
    occurrences := scan.occurrences ++ [{
      occurrence := occurrence
      display := grammar.display source occurrence.span
      projectionDigest := projectionDigest
      rawDestinationDigest := domainDigest grammar.sha256 rawDestinationDomain
        (utf8 occurrence.rawDestination) }]
    documentReferences := documentReferences
    previousProjection := some (occurrence.blockSpan, projectionDigest) }

/-- The code block before a governed definition, as a sink. -/
def semanticCodeSink (code : SemanticCodeBlock) :
    Except SnapshotError SemanticCodeSink :=
  match slice source code.span.1 code.span.2 with
  | none => .error (.parse .invalidSourceSpan)
  | some _ =>
    let value := normalizeNewlines (utf8 code.value)
    .ok ⟨code.span, grammar.display source code.span,
      domainDigest grammar.sha256 projectionSinkDomain value, value⟩

def governedSource (scan : List GovernedSource × Nat)
    (definition : GovernedDefinition) : Charging (List GovernedSource × Nat) := do
  let documentReferences := saturatingAdd scan.2 1
  chargeReference documentReferences
  match slice source definition.span.1 definition.span.2 with
  | none => Metered.fail (.parse .invalidSourceSpan)
  | some bytes => do
    let previousCode ← Metered.ofExcept
      (definition.previousCode.elim (.ok none)
        (fun code => (semanticCodeSink grammar source code).map some))
    pure (scan.1 ++ [⟨definition.span, grammar.display source definition.span,
      domainDigest grammar.sha256 governedSourceDomain bytes, grammar.form definition,
      previousCode⟩], documentReferences)

/-- Parses and extracts one admitted document body. -/
def scanBytes (adapter : Adapter) (source : Bytes) : Charging Scanned := do
  let allowance ← Metered.reading ScanResources.embeddedCodeAllowance
  let analysis ← match grammar.parse adapter source allowance with
    | .ok analysis => (pure analysis : Charging Analysis)
    | .error (.fault fault) => Metered.fail (.parse fault)
    | .error (.embeddedCodeAllowance spent) => embeddedCodeCrossing spent
  chargeEmbeddedCode analysis.embeddedCodeBytes
  chargeWork analysis.work
  let publication := grammar.declaredPublication adapter source
  let imagesDir := if adapter = .asciiDoc then grammar.imagesDir source else .beside
  match analysis.extraction with
  | none =>
    pure ⟨adapter, analysis.work, analysis.embeddedCodeBytes, [], ⟨0, [], []⟩, [], [],
      publication, imagesDir, none, false⟩
  | some extraction => do
    let scan ← extraction.occurrences.foldlM (scanOccurrence grammar source) ⟨[], 0, none⟩
    let governed ← extraction.governed.foldlM (governedSource grammar source)
      ([], scan.documentReferences)
    pure ⟨adapter, analysis.work, analysis.embeddedCodeBytes, scan.occurrences,
      extraction.opaqueParts, governed.1, extraction.declaredAnchors, publication, imagesDir,
      some ⟨extraction.headings, extraction.htmlAnchors, extraction.transclusions⟩, false⟩

/-- The charges of a scan that is already there. -/
def replayScanCharges (scanned : Scanned) : Charging Unit := do
  let allowance ← Metered.reading ScanResources.embeddedCodeAllowance
  if allowance < scanned.embeddedCodeBytes then embeddedCodeCrossing scanned.embeddedCodeBytes
  else do
    chargeEmbeddedCode scanned.embeddedCodeBytes
    chargeWork scanned.work
    let references := scanned.occurrences.length + scanned.governed.length
    (List.range references).forM (fun before => chargeReference (before + 1))

/-- A document the MDX grammar refused, tried again with its HTML comments
    read as comments. -/
def scanCommented (adapter : Adapter) (source : Bytes) (defect : SnapshotError) :
    Charging Scanned :=
  if adapter = .mdx ∧ defect = .parse .documentUnparsable then
    match grammar.commentsRead source with
    | none => Metered.fail defect
    | some read => do
      let scanned ← scanBytes grammar adapter read
      pure { scanned with commented := true }
  else Metered.fail defect

end Amiss
