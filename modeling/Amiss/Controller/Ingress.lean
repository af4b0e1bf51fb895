import Amiss.Base.BigEndian
import Amiss.Base.Fallible
import Amiss.Controller.Identity

/-!
# Ingress

The admission of a raw delivery around its authentication. Before it, the
request is held to its ceilings and its receipt to the queue window; after it,
what the provider proved is held to the route, its signed time to the
freshness window, and the delivery gets its identity and its replay lifetime.

A policy works at one clock reading, taken by `preAuth` and kept in the check
that `postAuth` continues. Times are signed 64-bit milliseconds. The source
reads the clock after its checks of the limits and the route's own policy;
here the reading is an argument, since nothing depends on when it is taken.

## Main definitions

* `IngressPolicy`: The limits, the replay window and the allowed skew.
* `IngressPolicy.preAuth`, `IngressPolicy.postAuth`: The two halves.
* `checkWindow`: One time against another, with an age and a skew.
* `normalizeDelivery`: The accepted delivery and its replay lifetime.
-/

namespace Amiss

/-- A span of time. -/
structure Duration where
  secs : Nat
  nanos : Nat
  subsec : nanos < 1000000000
  whole : secs < 2 ^ 64
  deriving DecidableEq

def Duration.asMillis (duration : Duration) : Nat :=
  duration.secs * 1000 + duration.nanos / 1000000

/-- The milliseconds of a span, if a signed 64-bit integer holds them. -/
def nonnegativeMillis (duration : Duration) : Option Int :=
  if (duration.asMillis : Int) ≤ i64Max then some duration.asMillis else none

def positiveMillis (duration : Duration) : Option Int :=
  (nonnegativeMillis duration).filter (fun millis => 0 < millis)

/-- Subtraction that refuses to overflow a signed 64-bit integer. -/
def checkedSub (a b : Int) : Option Int := checkedAdd a (-b)

/-- A replay window, if both spans are positive and in range. -/
def ReplayWindow.new (maxSignedAge maxQueueAge : Duration) : Option ReplayWindow :=
  match positiveMillis maxSignedAge, positiveMillis maxQueueAge with
  | some signed, some queue =>
    if h : 0 < signed ∧ 0 < queue then some ⟨signed, queue, h.1, h.2⟩ else none
  | _, _ => none

/-- The signed time a route asks for. -/
inductive SignedTimePolicy where
  | replayOnly
  | required (maxAge : Duration)
  deriving DecidableEq

/-- Routing data chosen before request bytes are trusted. -/
structure DeliveryRoute where
  provider : ProviderIdentity
  trustSet : OpaqueId
  signedTime : SignedTimePolicy
  deriving DecidableEq

structure DeliveryHeader where
  name : String
  value : Bytes
  deriving DecidableEq

/-- A raw request and when it was received. -/
structure UntrustedDelivery where
  route : DeliveryRoute
  receivedAtUnixMillis : Int
  headers : List DeliveryHeader
  body : Bytes
  received_range : -i64Max - 1 ≤ receivedAtUnixMillis ∧ receivedAtUnixMillis ≤ i64Max
  deriving DecidableEq

/-- The value that suppresses replay of a delivery. -/
inductive ReplayIdentity where
  | authenticated (delivery : Delivery)
  | exactBody
  deriving DecidableEq

/-- What a provider's verifier proved about one request. -/
structure VerifiedDelivery where
  facts : ProviderFacts
  trustSet : OpaqueId
  issuedAtUnixMillis : Option Int
  replay : ReplayIdentity
  request : Digest

/-- Why a delivery is not admitted. -/
inductive IngressError where
  | clock
  | limits
  | policy
  | request
  | route
  | freshness
  | replay
  deriving DecidableEq

/-! ### Request binding -/

/-- A length as eight bytes, if it fits. -/
def frameLen (length : Nat) : Option Bytes :=
  if length < 2 ^ 64 then some (beBytes 8 length) else none

/-- A value behind its length. -/
def frameValue (value : Bytes) : Option Bytes := (frameLen value.length).map (· ++ value)

/-- The frames of values, one after the other. -/
def frameValues : List Bytes → Option Bytes
  | [] => some []
  | value :: values =>
    match frameValue value, frameValues values with
    | some framed, some rest => some (framed ++ rest)
    | _, _ => none

/-- The bytes that stand for a route's signed time. -/
def SignedTimePolicy.bytes : SignedTimePolicy → Bytes
  | .replayOnly => [0]
  | .required maxAge => 1 :: (beBytes 8 maxAge.secs ++ beBytes 4 maxAge.nanos)

variable (sha256 : Bytes → Digest)

/-- The digest that binds a proof to one request. Named `requestBinding`; the
    source wraps the digest in a type of that name. -/
def requestBinding (delivery : UntrustedDelivery) : Option Digest :=
  match frameValues [utf8 delivery.route.provider.namespaceName,
      utf8 delivery.route.provider.instanceId.raw, utf8 delivery.route.trustSet.raw],
    frameLen delivery.headers.length,
    frameValues (delivery.headers.flatMap fun header => [utf8 header.name, header.value]),
    frameValue delivery.body with
  | some route, some count, some headers, some body =>
    some (domainDigest sha256 "amiss/controller-ingress-request-v1"
      (route ++ delivery.route.signedTime.bytes ++
        beBytes 8 (delivery.receivedAtUnixMillis % 2 ^ 64).toNat ++ count ++ headers ++ body))
  | _, _, _, _ => none

/-! ### The policy -/

/-- Ceilings on a raw request, none of them zero. -/
structure IngressLimits where
  bodyBytes : Nat
  headerCount : Nat
  headerBytes : Nat
  nonzero : bodyBytes ≠ 0 ∧ headerCount ≠ 0 ∧ headerBytes ≠ 0

/-- Addition that refuses to overflow an unsigned 64-bit integer. -/
def checkedSize (a b : Nat) : Option Nat := if a + b < 2 ^ 64 then some (a + b) else none

def IngressLimits.accepts (limits : IngressLimits) (delivery : UntrustedDelivery) : Bool :=
  decide (delivery.body.length ≤ limits.bodyBytes ∧ delivery.headers.length ≤ limits.headerCount) &&
    (delivery.headers.foldlM (fun total header =>
      (checkedSize total (utf8 header.name).length).bind
        (fun total => checkedSize total header.value.length)) 0).any
      (fun total => total ≤ limits.headerBytes)

/-- The rules applied around authentication. -/
structure IngressPolicy where
  limits : IngressLimits
  replayWindow : ReplayWindow
  futureSkewMillis : Int
  skew_nonneg : 0 ≤ futureSkewMillis

def IngressPolicy.new (limits : IngressLimits) (replayWindow : ReplayWindow)
    (futureSkew : Duration) : Option IngressPolicy :=
  match nonnegativeMillis futureSkew with
  | none => none
  | some skew => if h : 0 ≤ skew then some ⟨limits, replayWindow, skew, h⟩ else none

/-- A raw delivery that passed the first half. -/
structure IngressCheck where
  delivery : UntrustedDelivery
  now : Int
  signedMaxAgeMillis : Option Int
  request : Digest
  deriving DecidableEq

/-- `value` is no older than `maximumAge` before `reference`, and no further
    than `futureSkew` after it. -/
def checkWindow (value reference maximumAge futureSkew : Int) : Except IngressError Unit :=
  if value < 0 ∨ reference < 0 then .error .clock
  else
    match
      (if value > reference then (checkedSub value reference, futureSkew)
       else (checkedSub reference value, maximumAge)) with
    | (none, _) => .error .clock
    | (some distance, limit) => if distance ≤ limit then .ok () else .error .freshness

def exactBodyDigest (body : Bytes) : Digest :=
  domainDigest sha256 "amiss/controller-exact-delivery-v1" body

/-- The accepted delivery. A signed one is kept through its issue time and the
    whole replay window, any other for good. -/
def normalizeDelivery (verified : VerifiedDelivery) (body : Bytes)
    (issuedAt : Option Int) (replayWindow : ReplayWindow) :
    Except IngressError AcceptedDelivery :=
  let deliveryOf (delivery : Delivery) : AuthenticatedDelivery :=
    ⟨⟨verified.facts.provider, verified.facts.integration, delivery⟩, verified.facts.change,
      verified.facts.providerRun⟩
  match verified.replay with
  | .exactBody => .ok ⟨deliveryOf (.body (exactBodyDigest sha256 body)), .permanent⟩
  | .authenticated assigned =>
    match issuedAt with
    | none => .ok ⟨deliveryOf assigned, .permanent⟩
    | some issuedAt =>
      match (checkedAdd issuedAt replayWindow.maxSignedAgeMillis).bind
          (fun millis => checkedAdd millis replayWindow.maxQueueAgeMillis) with
      | none => .error .replay
      | some unixMillis => .ok ⟨deliveryOf assigned, .keepThrough unixMillis replayWindow⟩

namespace IngressPolicy

variable (policy : IngressPolicy)

/-- The longest signed age a route allows, within the policy's own. -/
def signedMaxAge (signedTime : SignedTimePolicy) : Except IngressError (Option Int) :=
  match signedTime with
  | .replayOnly => .ok none
  | .required maxAge =>
    match positiveMillis maxAge with
    | none => .error .policy
    | some maxAge =>
      if maxAge > policy.replayWindow.maxSignedAgeMillis then .error .policy
      else .ok (some maxAge)

/-- The half before authentication, at the clock reading given. -/
def preAuth (sha256 : Bytes → Digest) (delivery : UntrustedDelivery) (clock : Option Int) :
    Except IngressError IngressCheck := do
  if !policy.limits.accepts delivery then .error .limits
  else do
    let signedMaxAgeMillis ← policy.signedMaxAge delivery.route.signedTime
    match clock.filter (fun value => 0 ≤ value) with
    | none => .error .clock
    | some now =>
      checkWindow delivery.receivedAtUnixMillis now policy.replayWindow.maxQueueAgeMillis
        policy.futureSkewMillis
      match requestBinding sha256 delivery with
      | none => .error .limits
      | some request => .ok ⟨delivery, now, signedMaxAgeMillis, request⟩

def checkSignedTime (check : IngressCheck) (issuedAt : Option Int) :
    Except IngressError (Option Int) :=
  match check.signedMaxAgeMillis, issuedAt with
  | none, none => .ok none
  | none, some _ => .error .policy
  | some _, none => .error .freshness
  | some maxAge, some issuedAt =>
    if 0 ≤ issuedAt then do
      checkWindow issuedAt check.now i64Max policy.futureSkewMillis
      checkWindow issuedAt check.delivery.receivedAtUnixMillis maxAge policy.futureSkewMillis
      .ok (some issuedAt)
    else .error .freshness

/-- The half after authentication. -/
def postAuth (sha256 : Bytes → Digest) (check : IngressCheck) (verified : VerifiedDelivery) :
    Except IngressError AcceptedDelivery := do
  if verified.request ≠ check.request then .error .request
  else if verified.trustSet ≠ check.delivery.route.trustSet ∨
      verified.facts.provider ≠ check.delivery.route.provider ∨
      verified.facts.change.provider ≠ check.delivery.route.provider then .error .route
  else do
    let issuedAt ← policy.checkSignedTime check verified.issuedAtUnixMillis
    normalizeDelivery sha256 verified check.delivery.body issuedAt policy.replayWindow

end IngressPolicy

end Amiss
