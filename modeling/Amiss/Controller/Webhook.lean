import Amiss.Controller.Ingress
import Amiss.Core.Fixes

/-!
# Signed Webhooks

How a raw delivery is authenticated. A verifier reads the headers of its
provider, decodes the signatures they hold and asks its keyring whether one of
them is the authentication code of the message under an active key. GitLab signs
the identifier, the timestamp and the body, joined by dots.

The authentication code and Base64 lie outside the sources; they are the fields
of a `WebhookCodec`. A signature is kept as its bytes.

## Main definitions

* `Headers`: Headers that passed the ceilings, and how one of them is read.
* `WebhookKey`, `WebhookKeyring`: The keys, valid by construction.
* `WebhookKeyring.authenticate`: The signatures against the active keys.
* `GitLabWebhook.verify`: The verifier of GitLab.
-/

namespace Amiss

inductive WebhookError where
  | headers
  | receiptTime
  | noActiveAnchor
  | authentication
  deriving DecidableEq

/-- What the verifiers call and the sources do not define. -/
structure WebhookCodec where
  /-- The authentication code of messages under a secret, where the secret
      is one the code accepts. -/
  hmac : Bytes → Option (Bytes → Bytes)
  base64Decode : Bytes → Option Bytes

/-! ### Headers -/

/-- The bytes of a header's name: letters, digits and ``! # $ % & ' * + - . ^ _ ` | ~``. -/
def httpToken (byte : UInt8) : Bool :=
  asciiAlphanumeric byte ||
    [33, 35, 36, 37, 38, 39, 42, 43, 45, 46, 94, 95, 96, 124, 126].contains byte

/-- The ceiling on the bytes of all headers. -/
def maxHeaderBytes : Nat := 32 * 1024

/-- One header added to the bytes counted so far. -/
def countHeader (total : Nat) (header : DeliveryHeader) : Option Nat :=
  if !bounded (utf8 header.name) 128 httpToken then none
  else
    match (checkedSize total (utf8 header.name).length).bind
        (fun total => checkedSize total header.value.length) with
    | none => none
    | some total =>
      if total > maxHeaderBytes ∨ header.value.any ([0, 13, 10].contains ·) then none
      else some total

/-- At most 128 headers, each of them well formed, within the ceiling. -/
def headersValid (values : List DeliveryHeader) : Bool :=
  decide (values.length ≤ 128) && (values.foldlM countHeader 0).any (· ≤ maxHeaderBytes)

/-- Headers that passed their checks. -/
structure Headers where
  values : List DeliveryHeader
  valid : headersValid values = true

def Headers.new (values : List DeliveryHeader) : Except WebhookError Headers :=
  if h : headersValid values = true then .ok ⟨values, h⟩ else .error .headers

def asciiLower (byte : UInt8) : UInt8 := if 65 ≤ byte ∧ byte ≤ 90 then byte + 32 else byte

def eqIgnoreAsciiCase (left right : String) : Bool :=
  (utf8 left).map asciiLower == (utf8 right).map asciiLower

namespace Headers

variable (headers : Headers)

/-- One spelling of a header after the value stated so far. -/
def state (stated : Option Bytes) (name : String) : Except WebhookError (Option Bytes) :=
  match headers.values.filter (fun header => eqIgnoreAsciiCase header.name name) with
  | [] => .ok stated
  | header :: others =>
    if !others.isEmpty ∨ stated.any (· != header.value) then .error .headers
    else .ok (some header.value)

/-- The one value stated under any of the names. -/
def oneOf (expectedNames : List String) (maxValueBytes : Nat) : Except WebhookError Bytes := do
  match ← expectedNames.foldlM headers.state none with
  | none => .error .headers
  | some value =>
    if value.isEmpty ∨ value.length > maxValueBytes then .error .headers else .ok value

def exact (expectedName : String) (maxValueBytes : Nat) : Except WebhookError Bytes :=
  headers.oneOf [expectedName] maxValueBytes

end Headers

/-! ### Keys -/

/-- One secret and the window in which it is accepted. -/
structure WebhookKey where
  anchor : OpaqueId
  secret : Bytes
  activeFromUnixMillis : Int
  activeUntilUnixMillis : Option Int
  strong : 16 ≤ secret.length ∧ secret.length ≤ 1024
  window : 0 ≤ activeFromUnixMillis ∧ ∀ until_ ∈ activeUntilUnixMillis,
    activeFromUnixMillis < until_

namespace WebhookKey

def isActive (key : WebhookKey) (receivedAtUnixMillis : Int) : Bool :=
  decide (key.activeFromUnixMillis ≤ receivedAtUnixMillis) &&
    key.activeUntilUnixMillis.all (fun until_ => receivedAtUnixMillis < until_)

variable (left right : WebhookKey)

/-- Two keys share neither anchor nor secret. -/
def Apart : Prop :=
  left.anchor ≠ right.anchor ∧ left.secret ≠ right.secret

end WebhookKey

/-- A bounded set of keys, the newest first. -/
structure WebhookKeyring where
  trustSet : OpaqueId
  keys : List WebhookKey
  size : keys ≠ [] ∧ keys.length ≤ 8
  apart : keys.Pairwise WebhookKey.Apart

namespace WebhookKeyring

variable (codec : WebhookCodec)

/-- One of the signatures is the code of the message under the key. -/
def keyMatches (key : WebhookKey) (signatures : List Bytes) (message : Bytes) : Bool :=
  (codec.hmac key.secret).any (fun mac =>
    signatures.any (fun signature => mac message == signature))

/-- The signatures against every active key; the first key that matches. -/
def authenticate (keyring : WebhookKeyring) (receivedAtUnixMillis : Int)
    (signatures : List Bytes) (messageParts : List Bytes) : Except WebhookError OpaqueId :=
  if receivedAtUnixMillis < 0 then .error .receiptTime
  else
    let walked := (keyring.keys.filter (·.isActive receivedAtUnixMillis)).foldl
      (fun (state : Bool × Option OpaqueId) key =>
        (true,
          if keyMatches codec key signatures messageParts.flatten && state.2.isNone then
            some key.anchor
          else state.2))
      (false, none)
    if !walked.1 then .error .noActiveAnchor
    else
      match walked.2 with
      | none => .error .authentication
      | some anchor => .ok anchor

end WebhookKeyring

/-- The proof a verifier returns about the request it checked. -/
structure SignedRequestProof where
  trustSet : OpaqueId
  anchor : OpaqueId
  replay : ReplayIdentity
  issuedAtUnixMillis : Option Int
  request : Digest
  deriving DecidableEq

/-! ### GitLab -/

namespace GitLabWebhook

/-- The identifier of a delivery. A dot ends it in the signed message, so it
    holds none. -/
def deliveryId (raw : Bytes) : Except WebhookError Delivery :=
  if raw.contains 46 then .error .headers
  else
    match (textOf raw).bind OpaqueId.tryFrom with
    | none => .error .headers
    | some id => .ok (.provided id)

/-- Multiplication that refuses to overflow a signed 64-bit integer. -/
def checkedMul (a b : Int) : Option Int :=
  if -i64Max - 1 ≤ a * b ∧ a * b ≤ i64Max then some (a * b) else none

def asciiDigit (byte : UInt8) : Bool := 48 ≤ byte && byte ≤ 57

/-- One more decimal digit. -/
def pushDigit (value : Int) (byte : UInt8) : Option Int :=
  (checkedMul value 10).bind (fun value => checkedAdd value (byte.toNat - 48 : Nat))

/-- The milliseconds of a timestamp in decimal seconds, without leading zeros. -/
def timestampMillis (raw : Bytes) : Except WebhookError Int :=
  if !raw.all asciiDigit ∨ (raw.length > 1 ∧ raw.head? = some 48) then .error .headers
  else
    match (raw.foldlM pushDigit 0).bind (checkedMul · 1000) with
    | none => .error .headers
    | some millis => .ok millis

/-- One encoded signature after the decoded ones: `v1,` and 44 bytes of Base64. -/
def decodeSignature (codec : WebhookCodec) (decoded : List Bytes) (encoded : Bytes) :
    Except WebhookError (List Bytes) :=
  if decoded.length ≥ 8 ∨ encoded.length ≠ 47 then .error .headers
  else if !(utf8 "v1,").isPrefixOf encoded then .error .headers
  else
    match codec.base64Decode (encoded.drop 3) with
    | none => .error .headers
    | some signature =>
      if signature.length ≠ 32 ∨ decoded.contains signature then .error .headers
      else .ok (decoded ++ [signature])

def signatures (codec : WebhookCodec) (raw : Bytes) : Except WebhookError (List Bytes) := do
  let decoded ← (raw.splitOn 32).foldlM (decodeSignature codec) []
  if decoded.isEmpty then .error .headers else .ok decoded

/-- The message a signature covers: identifier, timestamp and body, with dots
    between them. -/
def messageParts (rawId rawTimestamp body : Bytes) : List Bytes :=
  [rawId, [46], rawTimestamp, [46], body]

def verify (codec : WebhookCodec) (keys : WebhookKeyring) (check : IngressCheck) :
    Except WebhookError SignedRequestProof := do
  let headers ← Headers.new check.delivery.headers
  let rawId ← headers.exact "webhook-id" 256
  let rawTimestamp ← headers.exact "webhook-timestamp" 19
  let rawSignatures ← headers.exact "webhook-signature" 383
  let delivery ← deliveryId rawId
  let issuedAtUnixMillis ← timestampMillis rawTimestamp
  let signatures ← signatures codec rawSignatures
  let anchor ← keys.authenticate codec check.delivery.receivedAtUnixMillis signatures
    (messageParts rawId rawTimestamp check.delivery.body)
  .ok ⟨keys.trustSet, anchor, .authenticated delivery, some issuedAtUnixMillis, check.request⟩

end GitLabWebhook

end Amiss
