import Amiss.Core.Policy

/-!
# Documents

Which paths are documents, and of which class: the closed built-in rows read
the bytes of a path, suffixes first, then whole names. A document under one of
the excluded directories is discovered and left out by built-in scope.

## Main definitions

* `DocumentClassification`: The classes of documents.
* `classifyPath`: The class the built-in rows give a path.
* `excludedByBuiltIn`: A directory of the path is in the excluded set.
-/

namespace Amiss

inductive DocumentClassification where
  | extensionlessMarkdown
  | plainAdvisory
  | policyIncluded
  | structuredAsciiDoc
  | structuredMarkdown
  | structuredMdx
  | structuredRst
  | unparsedMarkup
  deriving DecidableEq

def extensionlessNames : List String :=
  ["README", "CONTRIBUTING", "CHANGELOG", "SECURITY", "SUPPORT", "CODE_OF_CONDUCT"]

def excludedTrees : List String :=
  ["node_modules", "vendor", "third_party", "dist", "build", ".next", "target", "test", "tests"]

/-- A policy include needs an explicit binding; unparsed markup has no native
    adapter. -/
def nativeAdapter : DocumentClassification → Option Adapter
  | .structuredMarkdown | .extensionlessMarkdown => some .markdown
  | .structuredMdx => some .mdx
  | .structuredAsciiDoc => some .asciiDoc
  | .structuredRst => some .rst
  | .plainAdvisory => some .plainAdvisory
  | .unparsedMarkup | .policyIncluded => none

/-- A path ends in one of the texts. -/
def endsIn (path : Bytes) (suffixes : List String) : Bool :=
  suffixes.any (fun suffix => (utf8 suffix).isSuffixOf path)

/-- The class the built-in rows give a path. -/
def classifyPath (path : Bytes) : Option DocumentClassification :=
  if endsIn path [".md", ".markdown"] then some .structuredMarkdown
  else if endsIn path [".mdx"] then some .structuredMdx
  else if endsIn path [".adoc", ".asciidoc"] then some .structuredAsciiDoc
  else if endsIn path [".rst"] then some .structuredRst
  else if endsIn path [".ipynb", ".org"] then some .unparsedMarkup
  else if extensionlessNames.any (fun name => utf8 name = basename path) then
    some .extensionlessMarkdown
  else if basename path = utf8 ".cursorrules" ∨ basename path = utf8 "llms.txt" then
    some .plainAdvisory
  else none

/-- A directory of the path, the last segment apart, is in the excluded set. -/
def excludedByBuiltIn (path : Bytes) : Bool :=
  (path.splitOn 47).dropLast.any (fun component =>
    excludedTrees.any (fun tree => utf8 tree = component))

end Amiss
