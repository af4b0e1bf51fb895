import Amiss.Core.Document
import Amiss.Core.Route

/-!
# Router Rules

The generators the resolver knows, each with the files that declare it and the
spellings it serves for a source file beyond its own path. A spelling reaches
a source file only where the tree holds it, so a rule widens what resolves and
never invents a target.

A rule is declared by files on a document's ancestor chain. Three names are
shared between generators; a file under one of them declares the rule that
what it binds selects, which the discovery settles.

## Main definitions

* `RouteRule`: A router and what it serves.
* `routers`: Every rule.
* `ancestorRoot`: The nearest directory above a document with a property.
* `declaringDirectory`: The directory a file declares its rule from.
* `pageRoute`: The route a page is published at.
* `soleClaims`: The document of each route that only one claims.
-/

namespace Amiss

/-- A spelling a router serves for a page whose source file is named
    otherwise. -/
inductive Spelling where
  | extensionless
  | outputExtension
  | readmeIndex
  | antoraResource
  | siteAlias
  | contentRoot
  | documentId
  | sourceRoot
  | directoryUrl
  | pageUrl
  | pageDirectory
  | bookRoute
  | builtPage
  | builtRoute
  deriving DecidableEq

/-- One router's rule. -/
structure RouteRule where
  name : String
  declaredBy : List String
  serves : List Spelling
  deriving DecidableEq

namespace RouteRule

def antora : RouteRule := ⟨"antora", ["antora.yml"], [.antoraResource]⟩

def docusaurus : RouteRule :=
  ⟨"docusaurus",
    ["docusaurus.config.ts", "docusaurus.config.mts", "docusaurus.config.cts",
      "docusaurus.config.js", "docusaurus.config.mjs", "docusaurus.config.cjs"],
    [.siteAlias, .contentRoot, .documentId]⟩

def mkdocs : RouteRule :=
  ⟨"mkdocs", ["mkdocs.yml", "mkdocs.yaml", "zensical.toml"], [.directoryUrl]⟩

def sphinx : RouteRule := ⟨"sphinx", ["conf.py"], [.sourceRoot]⟩

def mdbookPages : RouteRule := ⟨"mdbook-pages", ["book.toml"], [.bookRoute, .builtPage]⟩

def zola : RouteRule := ⟨"zola", ["config.toml"], [.contentRoot]⟩

def astro : RouteRule :=
  ⟨"astro",
    ["astro.config.ts", "astro.config.mts", "astro.config.js", "astro.config.mjs",
      "astro.config.cjs"],
    [.builtRoute]⟩

def nextjsApp : RouteRule :=
  ⟨"nextjs-app",
    ["next.config.js", "next.config.mjs", "next.config.ts", "next.config.cjs", "next.config.mts"],
    [.pageDirectory]⟩

def eleventy : RouteRule :=
  ⟨"eleventy",
    ["eleventy.config.ts", "eleventy.config.js", "eleventy.config.mjs", "eleventy.config.cjs",
      ".eleventy.js"],
    [.builtRoute]⟩

def hugo : RouteRule :=
  ⟨"hugo",
    ["hugo.toml", "hugo.yaml", "hugo.json", "config.toml", "config.yaml", "config.json",
      "config/_default/hugo.toml", "config/_default/hugo.yaml", "config/_default/hugo.json",
      "config/_default/config.toml", "config/_default/config.yaml",
      "config/_default/config.json"],
    [.builtRoute]⟩

def jekyll : RouteRule := ⟨"jekyll", ["_config.yml"], [.builtRoute]⟩

def directoryPages : RouteRule := ⟨"directory-pages", [], [.pageUrl]⟩

/-- A repository's own declaration may name the rule: every spelling it serves
    resolves a destination against the tree. -/
def declarable (rule : RouteRule) : Bool :=
  rule.serves.all (fun spelling =>
    [Spelling.siteAlias, .contentRoot, .documentId, .sourceRoot, .directoryUrl, .pageUrl,
      .pageDirectory].contains spelling)

end RouteRule

/-- Every router rule, in the order they are asked. -/
def routers : List RouteRule :=
  [⟨"mdbook", [], [.outputExtension, .readmeIndex]⟩,
    ⟨"vitepress", [], [.extensionless, .outputExtension]⟩,
    ⟨"vitepress-readme", [], [.extensionless, .outputExtension, .readmeIndex]⟩,
    .antora, .docusaurus, .mkdocs, .sphinx, .mdbookPages, .zola, .astro, .nextjsApp, .eleventy,
    .hugo, .directoryPages, .jekyll]

/-- The names more than one generator is configured under. -/
def sharedConfigs : List String := ["config.toml", "config.yaml", "config.json"]

/-- The file a repository names its own router in. -/
def routerDeclaration : String := ".amiss/router.yml"

/-- The directory the loader of a Starlight site reads pages from. -/
def starlightContent : String := "src/content/docs"

/-! ### Paths -/

/-- A name in a directory, the empty directory being the root. -/
def join (above name : Bytes) : Bytes :=
  if above = [] then name else above ++ 47 :: name

/-- A document sits inside a project, which the root holds every document of. -/
def within (document project : Bytes) : Bool :=
  project = [] || (project.isPrefixOf? document).any (fun rest => rest.head? = some 47)

/-- The nearest directory above a document the test holds for, the document's
    own directory first and the root last. -/
def ancestorRoot (document : Bytes) (holds : Bytes → Bool) : Option Bytes :=
  ((ancestors document).tail ++ [[]]).find? holds

/-- The directory a file declares its rule from, where its path spells the
    name: the name is read against that directory. -/
def declaringDirectory (path : Bytes) (name : String) : Option Bytes :=
  match (utf8 name).isSuffixOf? path with
  | none => none
  | some above => if above = [] then some above else ([47] : Bytes).isSuffixOf? above

/-- The longest of a rule's names that a path spells. -/
def declaringName (rule : RouteRule) (path : Bytes) : Option String :=
  (rule.declaredBy.filter (fun name => (declaringDirectory path name).isSome)).foldl
    (fun longest name => match longest with
      | none => some name
      | some held => if (utf8 name).length < (utf8 held).length then some held else some name) none

/-- A path's own name is one of the files declaring the rule's generator. -/
def declares (rule : RouteRule) (path : Bytes) : Bool :=
  rule.declaredBy.any (fun name => (declaringDirectory path name).isSome)

/-- A name without its extension; a name that is all extension stays whole. -/
def stem (name : Bytes) : Bytes :=
  let before := ((name.reverse.dropWhile (· ≠ 46)).drop 1).reverse
  if before = [] then name else before

/-- The route a page is published at: the source name without its extension,
    or the document's own directory for that directory's index. -/
def pageRoute (document : Bytes) (bundles : Bool) : Bytes :=
  let parent := directory document
  let stem := stem (basename document)
  if stem = utf8 "index" ∨ stem = utf8 "README" ∨ (bundles ∧ stem = utf8 "_index") then parent
  else join parent stem

/-- The content paths Docusaurus reads by default, a star for any segment. -/
def docusaurusContentRoots : List (List String) :=
  [["docs"], ["blog"], ["src", "pages"], ["versioned_docs", "*"]]

/-- The content path of a site a document sits under. -/
def pluginPath (site document : Bytes) : Option Bytes :=
  match site.isPrefixOf? document with
  | none => none
  | some rest =>
    match if site = [] then some rest else ([47] : Bytes).isPrefixOf? rest with
    | none => none
    | some relative =>
      let segments := relative.splitOn 47
      docusaurusContentRoots.findSome? (fun pattern =>
        let head := segments.take pattern.length
        if pattern.length < segments.length ∧
            (pattern.zip head).all (fun pair => pair.1 = "*" ∨ utf8 pair.1 = pair.2) then
          some (join site (List.intercalate [47] head))
        else none)

/-- The content path a document sits under; a document outside the site is
    read from the directory holding that site. -/
def contentRoot (site document : Bytes) : Option Bytes :=
  (pluginPath site document).or (pluginPath (directory site) document)

/-! ### Claims -/

/-- The document of each route; a route two documents claim is left out. -/
def soleClaims (claims : List (RepoPath × RepoPath)) : BTreeMap RepoPath RepoPath :=
  let settled := claims.foldl (fun (tables : BTreeMap RepoPath RepoPath × BTreeSet RepoPath) claim =>
    (tables.1.insert claim.1 claim.2,
      if tables.1[claim.1]?.any (· ≠ claim.2) then tables.2.insert claim.1 else tables.2)) (∅, ∅)
  settled.2.toList.foldl (fun routes route => routes.erase route) settled.1

end Amiss
