import Amiss.Base.Worklist
import Amiss.Core.Antora
import Amiss.Core.Git.Index

/-!
# Discovery

How a snapshot is discovered: a commit tree is walked depth first, a shared
subtree at every path it stands at, or the rows of an index are taken in their
order. Each entry is charged, its path is vetted, and a document among them is
read and scanned. What the configurations in the tree declare is settled once
every entry is there: which further files are documents, which documents keep
their comments, where pages are published, and which documents read roles.

A defect scoped to one document fails that document; a budget of the snapshot,
an unreadable tree or a cycle of trees ends the discovery.

The object database charges a state of its own and is a parameter, as are the
readers of the configurations' texts.

## Main definitions

* `Repository`, `Readers`, `Scanner`: What a discovery runs with.
* `sideStatus`: The outcome of one document.
* `recordDocument`: One entry that may be a document.
* `walk`: The walk over the trees.
* `discoverWalk`, `discoverIndex`: The discovery of a tree and of an index.
-/

namespace Amiss

inductive ObjectKind where
  | commit
  | tree
  | blob
  deriving DecidableEq

/-- A cap on the size of one object, with the resource that is crossed. -/
structure ValueCap where
  resource : ResourceName
  limit : Nat

structure GitLimits where
  treeEntriesPerSnapshot : Nat
  rawPathBytes : Nat

/-- The object database of a run, charged to a state of its own. -/
structure Repository (γ : Type) where
  objectFormat : ObjectFormat
  limits : GitLimits
  /-- The body of an object of the kind. -/
  read : Oid → ObjectKind → Option ValueCap → Metered γ SnapshotError Bytes
  hasObject : Oid → Metered γ SnapshotError Bool

/-- The readers of configurations, and the tables of Unicode. -/
structure Readers where
  antoraDescriptor : Bytes → Option AntoraComponent
  sourceSuffixes : Bytes → BTreeSet String
  sphinxConfig : Bytes → SphinxConfig
  /-- The rule what a shared configuration binds selects. -/
  addressedRule : Bytes → Option RouteRule
  /-- The content roots of a Hugo project with their bases, and whether it is
      served in lowercase. -/
  hugoProject : Bytes → BTreeMap String String × Bool
  astroBase : Bytes → Option String
  bookSource : Bytes → Bytes → Option Bytes
  declaredRouter : Bytes → Option (String × Option String)
  isPointer : Bytes → Bool
  lowercase : String → String
  normalizedLabel : String → String
  /-- The text of bytes, with what is no text replaced. -/
  lossyText : Bytes → String

/-- What a discovery runs with. -/
structure Scanner (γ : Type) where
  repository : Repository γ
  grammar : Grammar
  readers : Readers

/-- What a discovery charges. -/
structure Resources (γ : Type) where
  git : γ
  scan : ScanResources

/-- A step of a discovery. -/
abbrev Discovering (γ : Type) := Metered (Resources γ) SnapshotError

namespace Discovering

variable {γ α : Type}

def git (program : Metered γ SnapshotError α) : Discovering γ α :=
  Metered.inside Resources.git (fun git resources => { resources with git := git }) program

def scan (program : Charging α) : Discovering γ α :=
  Metered.inside Resources.scan (fun scan resources => { resources with scan := scan }) program

end Discovering

/-! ### One document -/

section document

variable {γ : Type} (scanner : Scanner γ)

/-- What a defect makes of the document it is scoped to. -/
def documentOutcome (defect : SnapshotError) : Except SnapshotError DocumentStatus :=
  if defect.isDocumentScoped = false then .error defect
  else match defect with
    | .parse .documentInvalid => .ok (.unsupported .undecodable)
    | .parse .documentUnparsable => .ok (.unsupported .unparsable)
    | .resourceLimit _ _ _ => .ok (.unsupported .ceiling)
    | .parse .parserError | .parse .parserPanic | .parse .invalidSourceSpan | .git _
    | .unrepresentablePath | .internal => .ok (.failed defect)

/-- A status with the size and the digest of what was read. -/
abbrev SideStatus := DocumentStatus × Nat × Option Digest

/-- A scan tried again with the comments MDX refused, and remembered. -/
def scanAndRemember (identity : ScanIdentity) (body : Bytes) (raw : Digest) :
    Charging (Except SnapshotError Scanned) := do
  let first ← Metered.attempt (scanBytes scanner.grammar identity.adapter body)
  let outcome ← match first with
    | .ok scanned => (pure (.ok scanned) : Charging (Except SnapshotError Scanned))
    | .error defect =>
      Metered.attempt (scanCommented scanner.grammar identity.adapter body defect)
  match outcome with
  | .error defect => pure (.error defect)
  | .ok scanned => do
    Metered.update (fun resources =>
      { resources with scans := resources.scans.insert identity ⟨scanned, body.length, raw⟩ })
    pure (.ok scanned)

/-- The status of a scan that ended. -/
def scannedStatus (scanned : Except SnapshotError Scanned) (byteCount : Nat) (raw : Digest) :
    Except SnapshotError SideStatus :=
  match scanned with
  | .ok scanned => .ok (.scanned scanned, byteCount, some raw)
  | .error defect => (documentOutcome defect).map (fun status => (status, byteCount, some raw))

/-- The outcome of one blob: the scan of the same blob is not made again. -/
def blobStatus (adapter : Option Adapter) (oid : Oid) : Discovering γ SideStatus := do
  Discovering.scan admitDocument
  let allowance ← Discovering.scan (Metered.reading ScanResources.embeddedCodeAllowance)
  let identity := adapter.map (fun adapter => ScanIdentity.mk oid adapter
    (if adapter = .mdx then some allowance else none))
  let scans ← Discovering.scan (Metered.reading ScanResources.scans)
  match identity.bind (fun identity => scans[identity]?) with
  | some memo => do
    Discovering.scan (chargeDocumentBytes memo.byteCount)
    let replayed ← Discovering.scan (Metered.attempt (replayScanCharges memo.scanned))
    Metered.ofExcept (scannedStatus (replayed.map (fun _ => memo.scanned)) memo.byteCount
      memo.rawDigest)
  | none => do
    let limits ← Discovering.scan (Metered.reading ScanResources.limits)
    let read ← Metered.attempt (Discovering.git (scanner.repository.read oid .blob
      (some ⟨.documentBlobBytes, limits.documentBlobBytes⟩)))
    match read with
    | .error defect =>
      Metered.ofExcept ((documentOutcome defect).map (fun status => (status, 0, none)))
    | .ok body => do
      Discovering.scan (chargeDocumentBytes body.length)
      let raw := domainDigest scanner.grammar.sha256 rawEvidenceDomain body
      if scanner.readers.isPointer body then
        pure (.unsupported .lfsPointer, body.length, some raw)
      else match identity with
        | none => pure (.unsupported .format, body.length, some raw)
        | some identity => do
          let scanned ← Discovering.scan (scanAndRemember scanner identity body raw)
          Metered.ofExcept (scannedStatus scanned body.length raw)

/-- The outcome of one selected entry: an excluded one is not read, and neither
    is a symlink or a gitlink. -/
def sideStatus (includes : Includes) (adapter : Option Adapter) (path : RepoPath)
    (entry : TreeEntry) : Discovering γ SideStatus :=
  if excludedByBuiltIn path.bytes && !includes.selects path then pure (.excludedBuiltIn, 0, none)
  else match entry.mode with
    | .symlink => pure (.unsupported .symlink, 0, none)
    | .gitlink => pure (.unsupported .gitlink, 0, none)
    | .tree => Metered.fail (.git .objectUnreadable)
    | .regularFile | .executableFile => blobStatus scanner adapter entry.oid

/-- What a discovery selects: the includes of the run, and where one is given
    the exact documents. -/
structure DocumentContext where
  includes : Includes
  scope : Option (BTreeSet RepoPath)

variable (context : DocumentContext)

/-- The class of an entry, `none` outside the document set. An advisory file
    that an include names with a grammar is read under it. -/
def DocumentContext.classification (path : RepoPath)
    (declared : Option DocumentClassification) : Option DocumentClassification :=
  match (classifyPath path.bytes).or declared with
  | some .plainAdvisory =>
    if context.includes.documentBindings.contains path then some .policyIncluded
    else some .plainAdvisory
  | some native => some native
  | none => if context.includes.selects path then some .policyIncluded else none

def DocumentContext.adapter (path : RepoPath)
    (classification : DocumentClassification) : Option Adapter :=
  if classification = .policyIncluded then context.includes.binding path
  else nativeAdapter classification

/-- The path is among the documents the discovery is restricted to. -/
def DocumentContext.inScope (path : RepoPath) : Bool :=
  context.scope.all (fun documents => documents.contains path)

/-- One entry: outside the document set it is counted, out of scope it is
    passed by, and otherwise it becomes a document. -/
def recordDocument (discovery : SnapshotDiscovery) (path : RepoPath)
    (entry : TreeEntry) (declared : Option DocumentClassification) :
    Discovering γ SnapshotDiscovery :=
  match context.classification path declared with
  | none =>
    pure { discovery with outsideDocumentSet := saturatingAdd discovery.outsideDocumentSet 1 }
  | some classification =>
    if context.inScope path = false then pure discovery
    else do
      let adapter := context.adapter path classification
      let (status, byteCount, rawDigest) ← sideStatus scanner context.includes adapter path entry
      pure { discovery with
        documents := discovery.documents ++
          [⟨path, classification, adapter, status, entry.oid, entry.mode, byteCount, rawDigest⟩] }

end document

/-! ### Declarations -/

/-- What one pass over the configurations read. -/
structure Declared where
  antoraComponents : BTreeMap RepoPath AntoraComponent := ∅
  sourceSuffixes : BTreeMap RawPath (BTreeSet String) := ∅
  sphinxConfigs : BTreeMap RawPath SphinxConfig := ∅
  routers : RouterDeclarations := ∅
  refusedRouters : BTreeSet RepoPath := ∅
  publishedRoots : BTreeMap RawPath (List (Bytes × String)) := ∅
  boundConfigs : BTreeMap RepoPath (List String) := ∅
  bookSources : BTreeMap RawPath Bytes := ∅
  starlightRoots : BTreeSet RawPath := ∅
  foldedRoots : BTreeSet RawPath := ∅

section declarations

variable (readers : Readers)

/-- The path names a configuration of the rule, fixtures apart. -/
def declaresOutside (rule : RouteRule) (path : RepoPath) : Bool :=
  declares rule path.bytes && !excludedByBuiltIn path.bytes

/-- The path is one of the files read for what they declare. -/
def declaring (path : RepoPath) : Bool :=
  (declaringDirectory path.bytes routerDeclaration).isSome ||
    declares RouteRule.antora path.bytes || declaresOutside .sphinx path ||
    declaresOutside .hugo path || declaresOutside .mdbookPages path ||
    declares RouteRule.astro path.bytes

variable (discovery : SnapshotDiscovery)

/-- What one generator configuration says. Under a shared name the rule its
    bindings select owns it, and Hugo's only where a content root it names is a
    directory of the tree. -/
def recordPublication (declared : Declared) (path : RepoPath)
    (body : Bytes) : Declared :=
  match declaringName .hugo path.bytes with
  | none => declared
  | some name =>
    let shared := sharedConfigs.contains name
    match if shared then readers.addressedRule body else some RouteRule.hugo with
    | none => declared
    | some rule =>
      let project := (declaringDirectory path.bytes name).getD []
      let lowercased := (readers.hugoProject body).2
      let roots := (readers.hugoProject body).1.toList.map (fun root =>
        (join project (utf8 root.1), root.2))
      let hugo := rule.name = RouteRule.hugo.name
      let content := roots.any (fun root => (RepoPath.fromBytes root.1).any (fun root =>
        (discovery.locate root).any Located.isTree))
      if shared ∧ hugo ∧ content = false then declared
      else
        let bound := if shared then
            { declared with boundConfigs := declared.boundConfigs.insert path rule.declaredBy }
          else declared
        if hugo then
          { bound with
            foldedRoots := if lowercased then
                (roots.map (fun root => RawPath.mk root.1)).foldl (fun held root =>
                  held.insert root) bound.foldedRoots
              else bound.foldedRoots
            publishedRoots := bound.publishedRoots.insert ⟨project⟩ roots }
        else bound

/-- Some window of the bytes is the text. -/
def holdsText (body : Bytes) (text : String) : Bool :=
  body.tails.any (fun tail => (utf8 text).isPrefixOf tail)

/-- What one configuration's own bytes say, under the reading its name
    selects. -/
def recordDeclaration (declared : Declared) (path : RepoPath)
    (body : Bytes) : Declared :=
  let project := RawPath.mk (directory path.bytes)
  if declares RouteRule.antora path.bytes then
    match readers.antoraDescriptor body with
    | none => declared
    | some component =>
      { declared with antoraComponents := declared.antoraComponents.insert path component }
  else if declaresOutside .sphinx path then
    { declared with
      sourceSuffixes := if (readers.sourceSuffixes body).isEmpty then declared.sourceSuffixes
        else declared.sourceSuffixes.insert project (readers.sourceSuffixes body)
      sphinxConfigs := declared.sphinxConfigs.insert project (readers.sphinxConfig body) }
  else if declaresOutside .hugo path then recordPublication readers discovery declared path body
  else if declares RouteRule.astro path.bytes then
    if holdsText body "@astrojs/starlight" then
      let starlight := { declared with
        starlightRoots := declared.starlightRoots.insert project }
      match readers.astroBase body with
      | none => starlight
      | some base =>
        let root := join project.bytes (utf8 starlightContent)
        { starlight with
          foldedRoots := declared.foldedRoots.insert ⟨root⟩
          publishedRoots := declared.publishedRoots.insert project [(root, base)] }
    else declared
  else if declaresOutside .mdbookPages path then
    match readers.bookSource project.bytes body with
    | none => declared
    | some source => { declared with bookSources := declared.bookSources.insert project source }
  else match readers.declaredRouter body with
    | some router => { declared with routers := declared.routers.insert path router }
    | none => { declared with refusedRouters := declared.refusedRouters.insert path }

variable {γ : Type} (scanner : Scanner γ)

/-- The configurations of a snapshot, each read once. One that cannot be read
    declares nothing. -/
def descriptors (discovery : SnapshotDiscovery) : Discovering γ Declared :=
  let wanted := discovery.entries.toList.filter (fun entry =>
    entry.2.1.isFile && declaring entry.1)
  wanted.foldlM (fun declared entry => do
    let limits ← Discovering.scan (Metered.reading ScanResources.limits)
    let read ← Metered.attempt (Discovering.git (scanner.repository.read entry.2.2 .blob
      (some ⟨.documentBlobBytes, limits.documentBlobBytes⟩)))
    match read with
    | .error _ => pure declared
    | .ok body => do
      Discovering.scan (chargeDocumentBytes body.length)
      pure (recordDeclaration scanner.readers discovery declared entry.1 body)) {}

/-- The files a Sphinx root reads under a suffix it declares, as the documents
    that root reads them as. -/
def declaredDocuments (context : DocumentContext) (discovery : SnapshotDiscovery) :
    Discovering γ SnapshotDiscovery :=
  if discovery.sourceSuffixes.isEmpty then pure discovery
  else do
    let sources := discovery.entries.toList.filter (fun entry =>
      entry.2.1.isFile && (discovery.document entry.1.bytes).isNone && context.inScope entry.1 &&
        declaredSource discovery entry.1.bytes)
    let added ← sources.foldlM (fun discovery entry =>
      recordDocument scanner context
        { discovery with outsideDocumentSet := discovery.outsideDocumentSet - 1 } entry.1
        ⟨entry.2.1, entry.1.bytes, entry.2.2⟩ (some .structuredRst)) discovery
    pure { added with documents := sortBy (fun record => record.path.spelling) added.documents }

/-- A document only its comments made readable stays read where a Docusaurus
    site holds it. -/
def settleComments : SnapshotDiscovery :=
  { discovery with
    documents := discovery.documents.map (fun record =>
      match record.status with
      | .scanned scanned =>
        if scanned.commented ∧ siteRoot discovery record.path.bytes .docusaurus = none then
          { record with status := .unsupported .unparsable }
        else record
      | .excludedBuiltIn | .unsupported _ | .failed _ => record) }

end declarations

/-! ### Roles -/

section roles

/-- A leading scheme: a letter, then letters, digits, `+`, `.` and `-`, up to a
    colon. -/
def hasScheme (text : Bytes) : Bool :=
  match text with
  | [] => false
  | first :: rest =>
    asciiAlphabetic first &&
      (rest.dropWhile (fun byte =>
        asciiAlphanumeric byte || byte == 43 || byte == 46 || byte == 45)).head? = some 58

/-- The file an include names, read from the root where one is given and from
    beside the document otherwise. -/
def localTarget (root : Option Bytes) (document : RepoPath) (target : Bytes) : Option RepoPath :=
  if target.head? = some 47 ∨ 37 ∈ target ∨ 63 ∈ target ∨ 35 ∈ target ∨ hasScheme target then none
  else ((normalizedPathUnder (root.getD (directory document.bytes)) false target).toOption.filter
    (fun located => located.2 ≠ .tree)).map Prod.fst

/-- The includes an expansion walks: a call a template answers is none. -/
def followed (transclusions : List Transclusion) : List Transclusion :=
  transclusions.filter (fun entry =>
    entry.kind ≠ .inr .template ∧ entry.kind ≠ .inr .liquid)

variable (snapshot : SnapshotDiscovery)

/-- The scan of the document at a path. -/
def SnapshotDiscovery.scannedAt (path : RepoPath) :
    Option Scanned :=
  (snapshot.document path.bytes).bind (fun record => match record.status with
    | .scanned scanned => some scanned
    | .excludedBuiltIn | .unsupported _ | .failed _ => none)

/-- The documents one document renders in place of its includes, each marked
    where it carries no option block. -/
def includedDocuments (document readFrom : RepoPath) :
    List (RepoPath × Bool) :=
  match (snapshot.scannedAt document).bind Scanned.anchorSource with
  | none => []
  | some source =>
    let root := snippetRoot snapshot .markdown document
    ((followed source.transclusions).filter (fun entry => entry.kind ≠ .inl .literal)).filterMap
      (fun entry => (localTarget root readFrom (utf8 entry.target)).map
        (fun target => (target, entry.kind.isLeft)))

/-- Every document the seeds include, and every one those reach in turn. Each
    round takes one document off the frontier, and an admitted target joins it
    when it is found, so there are as many rounds as seeds and documents. -/
def includedClosure (seed admitted : DocumentRecord → Bool) :
    BTreeSet RepoPath :=
  let frontier := (snapshot.documents.filter seed).map DocumentRecord.path
  ((setMarks RepoPath).drain (fun target => (snapshot.document target.bytes).any admitted)
    (fun document => (includedDocuments snapshot document document).map Prod.fst)
    (frontier.length + snapshot.documents.length) (frontier.reverse, ∅)).2

/-- The files an AsciiDoc file includes, each read from the file itself and
    marked where it selects nothing. -/
def antoraIncludes (file : RepoPath) : List (RepoPath × Bool) :=
  match (snapshot.scannedAt file).bind Scanned.anchorSource with
  | none => []
  | some source =>
    ((followed source.transclusions).filter (fun entry => entry.kind ≠ .inl .literal)).filterMap
      (fun entry =>
        let (parent, relative) :=
          (antoraAnchor snapshot file (some .asciidocInclude) (utf8 entry.target)).head?.getD
            (directory file.bytes, utf8 entry.target)
        (normalizedPathUnder parent false relative).toOption.map
          (fun located => (located.1, entry.kind.isLeft)))

variable (discovery : SnapshotDiscovery)

/-- What a file includes when a page renders it: an AsciiDoc file reads its
    includes from itself, any other from the page. -/
def rendered (file page : RepoPath) : List (RepoPath × Bool) :=
  if (discovery.document file.bytes).any (fun record => record.adapter = some .asciiDoc) then
    antoraIncludes discovery file
  else includedDocuments discovery file page

/-- The files some document includes. -/
def includedFiles : BTreeSet RepoPath :=
  Std.ExtTreeSet.ofList ((discovery.documents.flatMap (fun record =>
    rendered discovery record.path record.path)).map Prod.fst)

/-- The document is a page that renders the files it includes. -/
def rendersIncludes (record : DocumentRecord) : Bool :=
  if record.adapter = some .asciiDoc then antoraPage discovery record.path
  else (siteRoot discovery record.path.bytes .sphinx).isSome

/-- The mark of one page on the files it renders. -/
def pageMarks (page : RepoPath) : Marks RepoPath (BTreeMap RepoPath (BTreeSet RepoPath)) where
  has pages target := pages[target]?.any (fun listed => listed.contains page)
  mark pages target := upsert pages target (fun listed => (listed.getD ∅).insert page)
  has_mark pages target other := by
    rw [getElem?_upsert]
    by_cases h : target = other
    · subst h
      rw [if_pos rfl, Option.any_some, Std.ExtTreeSet.contains_iff_mem, mem_inserted]
      exact ⟨fun _ => .inl rfl, fun _ => .inl rfl⟩
    · rw [if_neg h]
      exact ⟨.inr, fun hmarked => hmarked.resolve_left (fun hsame => h hsame.symm)⟩

/-- The pages each included file is rendered into: from each page that no file
    includes, every include without options is followed. -/
def fragmentPages : BTreeMap RepoPath (BTreeSet RepoPath) :=
  let included := includedFiles discovery
  discovery.documents.foldl (fun pages record =>
    let page := record.path
    if included.contains page || !rendersIncludes discovery record then pages
    else ((pageMarks page).drain (fun target => included.contains target)
      (fun file => ((rendered discovery file page).filter Prod.snd).map Prod.fst)
      (included.size + 1) ([page], pages)).2) ∅

def roleOccurrence (entry : ScannedOccurrence) : Bool :=
  [SourceConstruct.rstDocRole, .rstDownloadRole, .rstImageDirective, .rstIncludeDirective,
    .rstRefRole, .rstNumrefRole, .rstTermRole, .rstTocTreeEntry].contains entry.occurrence.construct

/-- The agent instruction files whose lines import another file. -/
def agentImporters : List String := ["CLAUDE.md", "CLAUDE.local.md", "GEMINI.md"]

/-- An include or import line is plain text outside what expands it. -/
def unexpanded (book snippets agent : Bool) (entry : ScannedOccurrence) : Bool :=
  (entry.occurrence.construct = .mdbookInclude && !book) ||
    (entry.occurrence.construct = .mkdocsSnippet && !snippets) ||
    (entry.occurrence.construct = .markdownAgentImport && !agent)

/-- The chapters of a book hold the document. -/
def inBook (raw : Bytes) : Bool :=
  ((siteRoot discovery raw .mdbookPages).bind (fun root =>
    discovery.bookSources[RawPath.mk root]?)).any (fun source =>
      (source ++ [47]).isPrefixOf raw)

/-- The document reads cross-reference roles. -/
def readsRoles (record : DocumentRecord) (scanned : Scanned) :
    Bool :=
  match scanned.adapter with
  | .rst => true
  | .markdown => record.adapter = some .markdown && sphinxGoverned discovery record.path
  | .mdx | .asciiDoc | .plainAdvisory => false

/-- A scan without the lines its site does not expand, and without roles where
    the document reads none. -/
def settledScan (record : DocumentRecord) (scanned : Scanned) :
    Scanned :=
  let raw := record.path.bytes
  let agent := agentImporters.any (fun name => utf8 name = basename raw)
  let snippets := (snippetRoot discovery .markdown record.path).isSome
  let expanded := scanned.occurrences.filter (fun entry =>
    !unexpanded (inBook discovery raw) snippets agent entry)
  { scanned with
    occurrences := if readsRoles discovery record scanned then expanded
      else expanded.filter (fun entry => !roleOccurrence entry) }

variable (readers : Readers)

/-- The labels the autosectionlabel extension gives a document's titles. -/
def sectionLabels (discovery : SnapshotDiscovery) (record : DocumentRecord) (scanned : Scanned) :
    List String :=
  let raw := record.path.bytes
  match declaredRoot discovery raw RouteRule.sphinx.declaredBy with
  | none => []
  | some root =>
    match (discovery.sphinxConfigs[RawPath.mk root]?).filter
        (fun config => config.extensions.contains "sphinx.ext.autosectionlabel") with
    | none => []
    | some config =>
      let rest := raw.drop root.length
      let inside := (([47] : Bytes).isPrefixOf? rest).getD rest
      let docname := readers.lossyText
        (if 46 ∈ inside then ((inside.reverse.dropWhile (· ≠ 46)).drop 1).reverse else inside)
      (scanned.anchorSource.elim [] AnchorSource.headings).map (fun heading =>
        if config.prefixDocument then docname ++ ":" ++ heading.text else heading.text)

/-- One declared label joins the table; a second declaration marks it. -/
def declareLabel (path : RepoPath) (labels : BTreeMap String LabelState) (label : String) :
    Charging (BTreeMap String LabelState) := do
  chargeLabel
  pure (upsert labels (readers.normalizedLabel label)
    (fun held => held.elim (.declared path) (fun _ => .duplicated)))

/-- One document settled: its scan, and the labels it declares. -/
def settleDocument (discovery : SnapshotDiscovery)
    (settled : List DocumentRecord × BTreeMap String LabelState) (record : DocumentRecord) :
    Charging (List DocumentRecord × BTreeMap String LabelState) :=
  match record.status with
  | .excludedBuiltIn | .unsupported _ | .failed _ => pure (settled.1 ++ [record], settled.2)
  | .scanned scanned => do
    let kept := { record with status := .scanned (settledScan discovery record scanned) }
    if readsRoles discovery record scanned then do
      let labels ←
        (scanned.declaredAnchors ++ sectionLabels readers discovery record scanned).foldlM
          (declareLabel readers record.path) settled.2
      pure (settled.1 ++ [kept], labels)
    else pure (settled.1 ++ [kept], settled.2)

/-- What a Sphinx declaration decides once the walk is over: which documents
    read roles, and whose labels join the table. -/
def settleRoles (discovery : SnapshotDiscovery) : Charging SnapshotDiscovery := do
  let markdown := fun record : DocumentRecord => decide (record.adapter = some .markdown)
  let asciidoc := fun record : DocumentRecord => decide (record.adapter = some .asciiDoc)
  let included := { discovery with
    sphinxIncluded := includedClosure discovery
      (fun record => markdown record && sphinxGoverned discovery record.path) markdown }
  let included := { included with
    asciidocIncluded := includedClosure included asciidoc asciidoc }
  let included := { included with fragmentPages := fragmentPages included }
  let (documents, labels) ← included.documents.foldlM (settleDocument readers included)
    ([], included.labels)
  pure { included with documents := documents, labels := labels }

end roles

/-! ### The walk -/

/-- One tree of the walk: the path it stands at and the entries still ahead. -/
structure WalkFrame where
  oid : Oid
  above : Bytes
  entries : List TreeEntry

/-- What a walk is for: the entries alone, where a root may ask whether
    everything below it was admitted, or the documents. -/
inductive WalkMode where
  | entries (selection : Option Bytes)
  | documents (context : DocumentContext)

/-- What a walk found so far. -/
structure Walk where
  discovery : SnapshotDiscovery
  complete : Bool

/-- The next entry of the innermost tree that has one. -/
def nextEntry : List WalkFrame → Option (WalkFrame × TreeEntry × List WalkFrame)
  | [] => none
  | frame :: frames =>
    match frame.entries with
    | [] => nextEntry frames
    | entry :: entries => some (frame, entry, { frame with entries := entries } :: frames)

/-- Counts one entry against the budget of the snapshot. -/
def chargeEntry (limit : Nat) (discovery : SnapshotDiscovery) :
    Except SnapshotError SnapshotDiscovery :=
  let treeEntries := saturatingAdd discovery.treeEntries 1
  if limit < treeEntries then
    .error (.resourceLimit .gitTreeEntriesPerSnapshot limit (saturatingAdd limit 1))
  else .ok { discovery with treeEntries := treeEntries }

/-- Vets one raw name under a directory: its length first, then the grammar. -/
def admittedPath (pathLimit : Nat) (above name : Bytes) : Except PathDefect RepoPath :=
  let raw := join above name
  if pathLimit < raw.length then
    .error ⟨.resourceLimit .rawPathBytes pathLimit raw.length, none⟩
  else match RepoPath.fromBytes raw with
    | some path => .ok path
    | none => .error ⟨.unrepresentablePath, some raw⟩

/-- A refused path lies at the root a walk asks about or below it. -/
def selectionBroken (mode : WalkMode) (above : Bytes) (defect : PathDefect) : Bool :=
  match mode with
  | .entries (some root) =>
    let path := defect.raw.getD above
    path = root || (root ++ [47]).isPrefixOf path
  | .entries none | .documents _ => false

section walk

variable {γ : Type} (scanner : Scanner γ)

/-- One entry of the walk: what stands ahead of it afterwards, and what was
    found. -/
def walkEntry (mode : WalkMode) (frame : WalkFrame) (entry : TreeEntry) (frames : List WalkFrame)
    (walk : Walk) : Discovering γ (List WalkFrame × Walk) := do
  let charged ← Metered.ofExcept
    (chargeEntry scanner.repository.limits.treeEntriesPerSnapshot walk.discovery)
  match admittedPath scanner.repository.limits.rawPathBytes frame.above entry.name with
  | .error defect =>
    pure (frames, ⟨{ charged with pathDefects := charged.pathDefects ++ [defect] },
      walk.complete && !selectionBroken mode frame.above defect⟩)
  | .ok path =>
    let found := { charged with entries := charged.entries.insert path (entry.mode, entry.oid) }
    if entry.mode = .tree then
      -- A tree that stands above itself has no end.
      if frames.any (fun ancestor => ancestor.oid = entry.oid) then
        Metered.fail (.git .objectUnreadable)
      else do
        let body ← Discovering.git (scanner.repository.read entry.oid .tree none)
        let entries ← Metered.ofExcept
          ((parseTree scanner.repository.objectFormat body).mapError .git)
        pure (⟨entry.oid, path.bytes, entries⟩ :: frames, ⟨found, walk.complete⟩)
    else match mode with
      | .entries _ => pure (frames, ⟨found, walk.complete⟩)
      | .documents context => do
        let recorded ← recordDocument scanner context found path entry none
        pure (frames, ⟨recorded, walk.complete⟩)

/-- The walk over every entry ahead. The rounds are one more than the budget,
    so that the charge ends the walk before they do. -/
def walk (mode : WalkMode) : Nat → List WalkFrame → Walk → Discovering γ Walk
  | rounds, frames, found =>
    match nextEntry frames with
    | none => pure found
    | some (frame, entry, ahead) =>
      match rounds with
      | 0 => Metered.fail (.resourceLimit .gitTreeEntriesPerSnapshot
          scanner.repository.limits.treeEntriesPerSnapshot
          (saturatingAdd scanner.repository.limits.treeEntriesPerSnapshot 1))
      | rounds + 1 => do
        let (frames, found) ← walkEntry scanner mode frame entry ahead found
        walk mode rounds frames found

/-- What is settled once every entry is there. -/
def settleDeclarations (context : DocumentContext) (discovery : SnapshotDiscovery) :
    Discovering γ SnapshotDiscovery := do
  let declared ← descriptors scanner discovery
  let configured := { discovery with
    antoraComponents := declared.antoraComponents
    sourceSuffixes := declared.sourceSuffixes
    sphinxConfigs := declared.sphinxConfigs
    declaredRouters := declared.routers
    refusedRouters := declared.refusedRouters
    publishedRoots := declared.publishedRoots
    boundConfigs := declared.boundConfigs
    bookSources := declared.bookSources
    starlightRoots := declared.starlightRoots
    foldedRoots := declared.foldedRoots }
  let documented ← declaredDocuments scanner context configured
  let routed := withRoutes scanner.readers.lowercase (settleComments documented)
  Discovering.scan (settleRoles scanner.readers routed)

/-- Discovers one snapshot tree completely. -/
def discoverWalk (mode : WalkMode) (rootTree : Oid) : Discovering γ Walk := do
  let body ← Discovering.git (scanner.repository.read rootTree .tree none)
  let entries ← Metered.ofExcept ((parseTree scanner.repository.objectFormat body).mapError .git)
  let found ← walk scanner mode (scanner.repository.limits.treeEntriesPerSnapshot + 1)
    [⟨rootTree, [], entries⟩] ⟨emptyDiscovery, true⟩
  let sited := { found.discovery with soleSites := soleSites found.discovery }
  match mode with
  | .entries _ => pure ⟨withRoutes scanner.readers.lowercase sited, found.complete⟩
  | .documents context => do
    let settled ← settleDeclarations scanner context sited
    pure ⟨settled, found.complete⟩

/-- One row of an index. -/
def indexRow (context : DocumentContext) (discovery : SnapshotDiscovery) (row : IndexEntry) :
    Discovering γ SnapshotDiscovery := do
  let charged ← Metered.ofExcept
    (chargeEntry scanner.repository.limits.treeEntriesPerSnapshot discovery)
  match admittedPath scanner.repository.limits.rawPathBytes [] row.path with
  | .error defect => pure { charged with pathDefects := charged.pathDefects ++ [defect] }
  | .ok path => do
    let present ← if row.mode = .gitlink then pure true
      else Discovering.git (scanner.repository.hasObject row.oid)
    if present = false then Metered.fail (.git .objectMissing)
    else
      recordDocument scanner context
        { charged with entries := charged.entries.insert path (row.mode, row.oid) } path
        ⟨row.mode, row.path, row.oid⟩ none

/-- Discovers the rows of an index in place of a tree. -/
def discoverIndex (includes : Includes) (index : LogicalIndex) :
    Discovering γ SnapshotDiscovery := do
  let context : DocumentContext := ⟨includes, none⟩
  let found ← index.entries.foldlM (indexRow scanner context) emptyDiscovery
  settleDeclarations scanner context { found with soleSites := soleSites found }

end walk

end Amiss
