import Amiss.Base.Fallible
import Amiss.Base.Hex
import Amiss.Core.Fixes

/-!
# Sealed Documents

A payload travels in an envelope beside the schema that names it and the digest
that binds it. The writer spells the payload once, for the digest and for the
wire. The reader recomputes the digest, and what it recomputes it from depends
on the payload's sealing: the typed value, the typed value in a document that
arrived in its spelling, or the payload text as it was received.

The JSON library and the derived readers and writers lie outside the sources.
They are the fields of a `JsonCodec`, one for each call the sources make; the
text of a sealed document is written out here, since its members stand in key
order.

## Main definitions

* `PayloadType`: What a payload type supplies.
* `JsonCodec`: The library's readers and writers.
* `PayloadType.emit`, `PayloadType.parse`: Writing and reading a document.
-/

namespace Amiss

/-- The kinds of a refused document. -/
inductive WireErrorKind where
  | json (message : String)
  | missingField
  | unknownField
  | duplicateKey
  | wrongType
  | invalidValue
  | unsortedSet
  | duplicateMember
  | limitExceeded
  | digestMismatch
  | inconsistent
  | noncanonical
  deriving DecidableEq

/-- Why a document is refused, and where. -/
structure WireError where
  path : String
  kind : WireErrorKind
  deriving DecidableEq

/-- A digest on the wire: `sha256:` and 64 lowercase digits. -/
def Digest.toWire (digest : Digest) : Bytes :=
  utf8 "sha256:" ++ hexEncode (beBytes 32 digest.value)

def Digest.fromWire (raw : Bytes) : Option Digest :=
  if (utf8 "sha256:").isPrefixOf raw then
    let encoded := raw.drop (utf8 "sha256:").length
    if encoded.length ≠ 64 ∨ encoded.any (fun byte => 65 ≤ byte && byte ≤ 90) then none
    else (hexDecode encoded).map (fun bytes => ⟨ofBeBytes bytes⟩)
  else none

/-- What a payload digest covers. -/
inductive Sealing where
  | typed
  | exact
  | received
  deriving DecidableEq

/-- One sealed document. -/
structure Envelope (T S : Type) where
  payload : T
  payloadDigest : Digest
  schema : S
  deriving DecidableEq

/-- The readers and writers of the JSON library, at one payload type. -/
structure JsonCodec (T S : Type) where
  /-- The canonical spelling of a payload. -/
  spell : T → Option Bytes
  /-- The canonical spelling of a whole document. -/
  spellDocument : Envelope T S → Option Bytes
  /-- The plain spelling of a schema. -/
  spellSchema : S → Option Bytes
  /-- The one value that a text holds, as it is spelled there. -/
  rawValue : Bytes → Option Bytes
  /-- The canonical spelling of a text, which is read as it is respelled. -/
  transcode : Bytes → Option Bytes
  /-- A whole text as a document. -/
  readDocument : Bytes → Except WireError (Envelope T S)
  /-- A whole text as a document whose payload stays as it is spelled. -/
  readSealed : Bytes → Except WireError (Envelope Bytes S)
  readPayload : Bytes → Except WireError T

/-- What an implementation of a payload supplies. -/
structure PayloadType (T S D : Type) where
  domain : String
  documentBytes : Nat
  sealing : Sealing
  schema : S
  validate : T → Except D Unit
  ofError : WireError → D

/-- A sealed document around a payload text: the members in key order. -/
def sealedText (payload : Bytes) (payloadDigest : Digest) (schema : Bytes) : Bytes :=
  utf8 "\x7b\"payload\":" ++ payload ++ utf8 ",\"payload_digest\":\"" ++ payloadDigest.toWire ++
    utf8 "\",\"schema\":" ++ schema ++ utf8 "\x7d"

section Sealing

variable {T S D : Type} (json : JsonCodec T S) (sha256 : Bytes → Digest)
  (kind : PayloadType T S D)

/-- Writes one sealed document around a payload already spelled. -/
def writeSealed (schema : S) (payload : Bytes) (payloadDigest : Digest) : Option Bytes := do
  let _ ← textOf payload
  let raw ← json.rawValue payload
  let schemaText ← json.spellSchema schema
  some (sealedText raw payloadDigest schemaText)

/-- The digest of a text, canonicalized while it is read. -/
def transcodedDigest (text : Bytes) : Option Digest :=
  (json.transcode text).map (domainDigest sha256 kind.domain)

namespace PayloadType

/-- An error at a path, as the payload type reports it. -/
def fail {α : Type} (path : String) (error : WireErrorKind) : Except D α :=
  .error (kind.ofError ⟨path, error⟩)

/-- A reader's answer, as the payload type reports it. -/
def lift {α : Type} (read : Except WireError α) : Except D α := read.mapError kind.ofError

def spell (payload : T) : Except D Bytes :=
  match json.spell payload with
  | none => kind.fail "$.payload" .invalidValue
  | some bytes => .ok bytes

/-- Seals a payload under its schema and writes the document. -/
def emit (payload : T) : Except D Bytes := do
  kind.validate payload
  let bytes ← kind.spell json payload
  match writeSealed json kind.schema bytes (domainDigest sha256 kind.domain bytes) with
  | none => kind.fail "$" .invalidValue
  | some document =>
    if document.length > kind.documentBytes then kind.fail "$" .limitExceeded
    else .ok document

/-- A text under the ceiling, read by the reader given. -/
def read {α : Type} (reader : Bytes → Except WireError α) (bytes : Bytes) : Except D α :=
  if bytes.length > kind.documentBytes then kind.fail "$" .limitExceeded
  else kind.lift (reader bytes)

/-- Checks grammar, binding and ceiling of a document. -/
def validateDocument (document : Envelope T S) : Except D Unit := do
  kind.validate document.payload
  let bytes ← kind.spell json document.payload
  if domainDigest sha256 kind.domain bytes ≠ document.payloadDigest then
    kind.fail "$.payload_digest" .digestMismatch
  else
    match writeSealed json document.schema bytes document.payloadDigest with
    | none => kind.fail "$" .invalidValue
    | some measured =>
      if measured.length > kind.documentBytes then kind.fail "$" .limitExceeded else .ok ()

/-- The digest in a document is that of its payload. -/
def checkSealed (document : Envelope T S) : Except D Unit := do
  let bytes ← kind.spell json document.payload
  if domainDigest sha256 kind.domain bytes ≠ document.payloadDigest then
    kind.fail "$.payload_digest" .digestMismatch
  else .ok ()

def parseTyped (bytes : Bytes) : Except D (Envelope T S) := do
  let document ← kind.read json.readDocument bytes
  kind.validateDocument json sha256 document
  .ok document

def parseExact (bytes : Bytes) : Except D (Envelope T S) := do
  let document ← kind.read json.readDocument bytes
  match (json.spellDocument document).map (domainDigest sha256 kind.domain) with
  | none => kind.fail "$" .invalidValue
  | some spelled =>
    if transcodedDigest json sha256 kind bytes ≠ some spelled then kind.fail "$" .noncanonical
    else do
      kind.checkSealed json sha256 document
      kind.validate document.payload
      .ok document

def parseReceived (bytes : Bytes) : Except D (Envelope T S) := do
  let received ← kind.read json.readSealed bytes
  match transcodedDigest json sha256 kind received.payload with
  | none => kind.fail "$.payload" .invalidValue
  | some sealed => do
    let payload ← kind.lift (json.readPayload received.payload)
    if sealed ≠ received.payloadDigest then kind.fail "$.payload_digest" .digestMismatch
    else do
      kind.validate payload
      .ok ⟨payload, received.payloadDigest, received.schema⟩

/-- Reads one sealed document. -/
def parse (bytes : Bytes) : Except D (Envelope T S) :=
  match kind.sealing with
  | .typed => kind.parseTyped json sha256 bytes
  | .exact => kind.parseExact json sha256 bytes
  | .received => kind.parseReceived json sha256 bytes

end PayloadType

end Sealing

end Amiss
