import Amiss.Base.Framing
import Amiss.Controller.Webhook
import Amiss.Theory.Ingress

/-!
# What a Binding and a Signature Cover

Two byte strings tie an authenticated request to what was authenticated. The
request binding writes every field of a delivery, each behind its length or in
a fixed width, so equal bindings are bindings of one delivery. The message that
GitLab signs has no lengths: identifier, timestamp and body stand between dots,
and the body may hold dots of its own. It is read front to back all the same,
because the verifier refuses an identifier that holds a dot and a timestamp
that holds anything but digits.

## Main definitions

* `GitLabWebhook.Identifies`: What the verifier reads off the headers.
* `WebhookCodec.Separates`: No two messages share an authentication code.
* `GitLabWebhook.Accepts`: A signature that made the verifier accept.

## Theorems

* `requestBinding_names_delivery`: Equal bindings bind equal deliveries.
* `authenticate_eq_ok`: An accepted signature is the code of the message.
* `GitLabWebhook.verify_eq_ok`: What an accepted GitLab delivery proved.
* `gitlab_message_names_delivery`: The signed message settles its parts.
-/

namespace Amiss

open Option

/-! ### Request bindings -/

section Binding

/-- A value short enough to stand behind its length. -/
def Framable (value : Bytes) : Prop := value.length < 256 ^ 8

/-- A value behind its length in eight bytes. -/
def framed (value : Bytes) : Bytes := beBytes 8 value.length ++ value

theorem unambiguous_framed : Unambiguous Framable framed := .framed (unambiguous_beBytes 8)

variable {bytes : Bytes}

theorem frameLen_eq_some {length : Nat} (h : frameLen length = some bytes) :
    length < 256 ^ 8 ∧ bytes = beBytes 8 length := by
  unfold frameLen at h
  split at h
  next hlength => exact ⟨hlength, (some.inj h).symm⟩
  next => cases h

theorem frameValue_eq_some {value : Bytes} (h : frameValue value = some bytes) :
    Framable value ∧ bytes = framed value := by
  rcases map_eq_some_iff.mp h with ⟨count, hcount, rfl⟩
  rcases frameLen_eq_some hcount with ⟨hlength, rfl⟩
  exact ⟨hlength, rfl⟩

theorem frameValues_eq_some {values : List Bytes} (h : frameValues values = some bytes) :
    (∀ value ∈ values, Framable value) ∧ bytes = values.flatMap framed := by
  induction values generalizing bytes with
  | nil => exact ⟨fun _ hmem => absurd hmem List.not_mem_nil, (some.inj h).symm⟩
  | cons value values ih =>
    unfold frameValues at h
    split at h
    next first rest hfirst hrest =>
      rcases frameValue_eq_some hfirst with ⟨hvalue, rfl⟩
      rcases ih hrest with ⟨hvalues, rfl⟩
      exact ⟨List.forall_mem_cons.mpr ⟨hvalue, hvalues⟩, (some.inj h).symm⟩
    next => cases h

theorem Duration.fits (span : Duration) : span.secs < 256 ^ 8 ∧ span.nanos < 256 ^ 4 := by
  have hsecs := span.whole
  have hnanos := span.subsec
  norm_num at hsecs ⊢
  omega

/-- The first byte says which policy follows, and each has one width. -/
theorem unambiguous_signedTime :
    Unambiguous (fun _ : SignedTimePolicy => True) SignedTimePolicy.bytes := by
  intro left right _ _ x y heq
  cases left with
  | replayOnly =>
    cases right with
    | replayOnly => exact ⟨rfl, (List.cons.inj heq).2⟩
    | required maxAge => exact absurd (List.cons.inj heq).1 (by decide)
  | required maxAge =>
    cases right with
    | replayOnly => exact absurd (List.cons.inj heq).1 (by decide)
    | required maxAge' =>
      have hspans := (List.cons.inj heq).2
      rcases @Unambiguous.append _ _ _ _ _ _ _ (unambiguous_beBytes 8)
        (unambiguous_beBytes 4) (maxAge.secs, maxAge.nanos) (maxAge'.secs, maxAge'.nanos)
        (Duration.fits maxAge) (Duration.fits maxAge') x y hspans with ⟨hsame, hrest⟩
      rcases maxAge with ⟨secs, nanos, _, _⟩
      rcases maxAge' with ⟨secs', nanos', _, _⟩
      cases hsame
      exact ⟨rfl, hrest⟩

theorem toNat_emod_lt (millis : Int) : (millis % 2 ^ 64).toNat < 256 ^ 8 := by
  have hlow := Int.emod_nonneg millis (show (2 : Int) ^ 64 ≠ 0 by decide)
  have hhigh := Int.emod_lt_of_pos millis (show (0 : Int) < 2 ^ 64 by decide)
  norm_num at hhigh hlow ⊢
  omega

/-- A signed time in eight bytes, negative times behind the positive ones. -/
theorem unambiguous_received :
    Unambiguous (fun millis : Int => -i64Max - 1 ≤ millis ∧ millis ≤ i64Max)
      (fun millis => beBytes 8 (millis % 2 ^ 64).toNat) := by
  refine .fixed 8 (fun _ _ => length_beBytes _ _) ?_
  intro left hleft right hright heq
  have hsame := beBytes_injOn 8 (toNat_emod_lt left) (toNat_emod_lt right) heq
  have hl : -i64Max - 1 ≤ left ∧ left ≤ i64Max := hleft
  have hr : -i64Max - 1 ≤ right ∧ right ≤ i64Max := hright
  unfold i64Max at hl hr
  omega

/-- The name and the value of a header, one behind the other. -/
theorem unambiguous_header :
    Unambiguous (fun header : DeliveryHeader => Framable (utf8 header.name) ∧ Framable header.value)
      (fun header => framed (utf8 header.name) ++ framed header.value) := by
  refine @Unambiguous.through (Bytes × Bytes) UInt8 DeliveryHeader _ _
    (fun header => (utf8 header.name, header.value))
    (unambiguous_framed.append unambiguous_framed) _ (fun _ h => h) ?_
  rintro ⟨name, value⟩ _ ⟨name', value'⟩ _ heq
  rw [Prod.mk.injEq] at heq
  rw [DeliveryHeader.mk.injEq]
  exact ⟨utf8_injective heq.1, heq.2⟩

/-- What is behind the domain of a request binding. -/
def bindingBytes (delivery : UntrustedDelivery) : Bytes :=
  [utf8 delivery.route.provider.namespaceName, utf8 delivery.route.provider.instanceId.raw,
      utf8 delivery.route.trustSet.raw].flatMap framed ++
    (delivery.route.signedTime.bytes ++
      (beBytes 8 (delivery.receivedAtUnixMillis % 2 ^ 64).toNat ++
        ((beBytes 8 delivery.headers.length ++
            delivery.headers.flatMap (fun header => framed (utf8 header.name) ++ framed header.value))
          ++ (framed delivery.body ++ []))))

/-- Every length in a delivery fits its frame. -/
structure UntrustedDelivery.Framable (delivery : UntrustedDelivery) : Prop where
  route : ∀ value ∈ [utf8 delivery.route.provider.namespaceName,
    utf8 delivery.route.provider.instanceId.raw, utf8 delivery.route.trustSet.raw],
    Amiss.Framable value
  headers : delivery.headers.length < 256 ^ 8 ∧ ∀ header ∈ delivery.headers,
    Amiss.Framable (utf8 header.name) ∧ Amiss.Framable header.value
  body : Amiss.Framable delivery.body

variable {sha256 : Bytes → Digest}

theorem requestBinding_eq_some {delivery : UntrustedDelivery} {binding : Digest}
    (h : requestBinding sha256 delivery = some binding) :
    delivery.Framable ∧
      binding = domainDigest sha256 "amiss/controller-ingress-request-v1"
        (bindingBytes delivery) := by
  unfold requestBinding at h
  split at h
  next route count headers body hroute hcount hheaders hbody =>
    rcases frameValues_eq_some hroute with ⟨hroutes, rfl⟩
    rcases frameLen_eq_some hcount with ⟨hlength, rfl⟩
    rcases frameValues_eq_some hheaders with ⟨hvalues, rfl⟩
    rcases frameValue_eq_some hbody with ⟨hwhole, rfl⟩
    refine ⟨⟨hroutes, ⟨hlength, fun header hheader => ?_⟩, hwhole⟩, ?_⟩
    · constructor
      · exact hvalues _ (List.mem_flatMap.mpr ⟨header, hheader, by simp⟩)
      · exact hvalues _ (List.mem_flatMap.mpr ⟨header, hheader, by simp⟩)
    · rw [← some.inj h, bindingBytes, List.flatMap_assoc]
      simp
  next => cases h

/-- The bytes of a binding are read front to back, field by field. -/
theorem bindingBytes_injOn : Set.InjOn bindingBytes UntrustedDelivery.Framable := by
  intro left hleft right hright heq
  unfold bindingBytes at heq
  rcases unambiguous_framed.repeated (by rfl) hleft.route hright.route heq with ⟨hroute, heq⟩
  rcases unambiguous_signedTime trivial trivial heq with ⟨htime, heq⟩
  rcases unambiguous_received left.received_range right.received_range heq with ⟨hreceived, heq⟩
  rcases (unambiguous_beBytes 8).counted unambiguous_header hleft.headers hright.headers heq with
    ⟨hheaders, heq⟩
  rcases unambiguous_framed hleft.body hright.body heq with ⟨hbody, -⟩
  rcases left with ⟨⟨⟨_, ⟨_, _⟩⟩, ⟨_, _⟩, _⟩, _, _, _, _⟩
  rcases right with ⟨⟨⟨_, ⟨_, _⟩⟩, ⟨_, _⟩, _⟩, _, _, _, _⟩
  simp only [List.cons.injEq, and_true] at hroute
  rcases hroute with ⟨hnamespace, hinstance, htrust⟩
  have hnamespace := utf8_injective hnamespace
  have hinstance := utf8_injective hinstance
  have htrust := utf8_injective htrust
  dsimp only at *
  subst hnamespace hinstance htrust htime hreceived hheaders hbody
  rfl

end Binding

/-- With a digest that has no collisions, two deliveries of one binding are one
    delivery: route, signed time, receipt, headers and body. So what a verifier
    proved about one checked request is accepted for no other. -/
theorem requestBinding_names_delivery (sha256 : Bytes → Digest)
    (hfree : Function.Injective sha256) :
    (∀ left right binding, requestBinding sha256 left = some binding →
      requestBinding sha256 right = some binding → left = right) ∧
    ∀ (policy policy' : IngressPolicy) left right clock clock' check check'
      (verified : VerifiedDelivery) accepted,
      policy.preAuth sha256 left clock = .ok check →
      policy'.preAuth sha256 right clock' = .ok check' →
      verified.request = check.request →
      policy'.postAuth sha256 check' verified = .ok accepted → left = right := by
  have hnames : ∀ left right binding, requestBinding sha256 left = some binding →
      requestBinding sha256 right = some binding → left = right := by
    intro left right binding hleft hright
    rcases requestBinding_eq_some hleft with ⟨hleftFits, hleftBytes⟩
    rcases requestBinding_eq_some hright with ⟨hrightFits, hrightBytes⟩
    refine bindingBytes_injOn hleftFits hrightFits ?_
    exact domainDigest_injective hfree _ (hleftBytes.symm.trans hrightBytes)
  refine ⟨hnames, ?_⟩
  intro policy policy' left right clock clock' check check' verified accepted hleft hright
    hverified haccepted
  refine hnames left right check'.request ?_ (preAuth_eq_ok hright).1
  rw [← (postAuth_eq_ok haccepted).1, hverified]
  exact (preAuth_eq_ok hleft).1

/-- A GitLab delivery of the identifier `x`, the second 7 and a body that begins
    with `1.2`, read through names of another letter case. -/
def Sample.hook : UntrustedDelivery :=
  { request with
    headers := [⟨"Webhook-Id", utf8 "x"⟩, ⟨"WEBHOOK-TIMESTAMP", utf8 "7"⟩,
      ⟨"webhook-signature", utf8 "v1,x.7.1.2" ++ List.replicate 37 48⟩]
    body := utf8 "1.2" ++ List.replicate 25 48 }

/-- The binding of the sample delivery is that of no other. -/
theorem requestBinding_names_delivery_request :
    ∃ binding, requestBinding Digest.spelled Sample.hook = some binding ∧
      ∀ right, requestBinding Digest.spelled right = some binding → Sample.hook = right := by
  have hsome : (requestBinding Digest.spelled Sample.hook).isSome = true := by decide +kernel
  rcases isSome_iff_exists.mp hsome with ⟨binding, hbinding⟩
  refine ⟨binding, hbinding, fun right hright => ?_⟩
  exact (requestBinding_names_delivery Digest.spelled Digest.spelled_injective).1 Sample.hook
    right binding hbinding hright

/-! ### Authentication -/

section Authentication

variable {codec : WebhookCodec}

/-- No two messages share an authentication code, under whatever secrets. -/
def WebhookCodec.Separates (codec : WebhookCodec) : Prop :=
  ∀ secret secret' mac mac' message message', codec.hmac secret = some mac →
    codec.hmac secret' = some mac' → mac message = mac' message' → message = message'

theorem keyMatches_eq_true {key : WebhookKey} {signatures : List Bytes} {message : Bytes} :
    WebhookKeyring.keyMatches codec key signatures message = true ↔
      ∃ mac, codec.hmac key.secret = some mac ∧ mac message ∈ signatures := by
  unfold WebhookKeyring.keyMatches
  cases codec.hmac key.secret with
  | none => simp
  | some mac =>
    simp

/-- An accepted signature is the code of the message under an active key. -/
theorem authenticate_eq_ok {keyring : WebhookKeyring} {receivedAt : Int}
    {signatures parts : List Bytes} {anchor : OpaqueId}
    (h : keyring.authenticate codec receivedAt signatures parts = .ok anchor) :
    0 ≤ receivedAt ∧ ∃ key ∈ keyring.keys, key.isActive receivedAt = true ∧ key.anchor = anchor ∧
      ∃ mac, codec.hmac key.secret = some mac ∧ mac parts.flatten ∈ signatures := by
  -- The walk holds the anchor of a key it has passed, and that key matched.
  have hwalk : ∀ (keys : List WebhookKey) (state : Bool × Option OpaqueId),
      (keys.foldl (fun (state : Bool × Option OpaqueId) key =>
        (true, if WebhookKeyring.keyMatches codec key signatures parts.flatten && state.2.isNone
          then some key.anchor else state.2)) state).2 = some anchor →
      state.2 = some anchor ∨ ∃ key ∈ keys, key.anchor = anchor ∧
        WebhookKeyring.keyMatches codec key signatures parts.flatten = true := by
    intro keys
    induction keys with
    | nil => exact fun state hstate => .inl hstate
    | cons key keys ih =>
      intro state hstate
      rcases ih _ hstate with hhead | ⟨found, hfound, hanchor, hmatches⟩
      · dsimp only at hhead
        split at hhead
        next hhere =>
          rw [Bool.and_eq_true] at hhere
          exact .inr ⟨key, List.mem_cons_self, some.inj hhead, hhere.1⟩
        next => exact .inl hhead
      · exact .inr ⟨found, List.mem_cons_of_mem key hfound, hanchor, hmatches⟩
  rcases Fallible.guard_eq_ok.mp h with ⟨hreceived, h⟩
  have h := (Fallible.guard_eq_ok.mp h).2
  split at h
  next => cases h
  next found hfound =>
  cases h
  rcases hwalk _ _ hfound with hnone | ⟨key, hkey, hanchor, hmatches⟩
  · cases hnone
  · rw [List.mem_filter] at hkey
    exact ⟨not_lt.mp hreceived, key, hkey.1, hkey.2, hanchor, keyMatches_eq_true.mp hmatches⟩

end Authentication

/-! ### GitLab messages -/

namespace GitLabWebhook

/-- The verifier reads the identifier and the timestamp off the headers. -/
structure Identifies (delivery : UntrustedDelivery) (rawId rawTimestamp : Bytes) (id : Delivery)
    (millis : Int) : Prop where
  reads : ∃ headers, Headers.new delivery.headers = .ok headers ∧
    headers.exact "webhook-id" 256 = .ok rawId ∧
    headers.exact "webhook-timestamp" 19 = .ok rawTimestamp
  parsedId : deliveryId rawId = .ok id
  parsedTimestamp : timestampMillis rawTimestamp = .ok millis

theorem dot_not_mem_id {raw : Bytes} {id : Delivery} (h : deliveryId raw = .ok id) : 46 ∉ raw := by
  rw [← List.contains_iff_mem]
  exact (Fallible.guard_eq_ok.mp h).1

theorem dot_not_mem_timestamp {raw : Bytes} {millis : Int}
    (h : timestampMillis raw = .ok millis) : 46 ∉ raw := by
  have hdigits := (Fallible.guard_eq_ok.mp h).1
  rw [not_or, Bool.not_eq_true, Bool.not_eq_false', List.all_eq_true] at hdigits
  intro hdot
  exact absurd (hdigits.1 46 hdot) (by decide)

/-- The message ends the identifier at its first dot and the timestamp at its
    second one. -/
theorem messageParts_flatten (rawId rawTimestamp body : Bytes) :
    (messageParts rawId rawTimestamp body).flatten =
      (rawId ++ [46]) ++ ((rawTimestamp ++ [46]) ++ body) := by
  simp [messageParts]

/-- Two deliveries of one identifier, one timestamp and one body. -/
structure SameSigned (left right : UntrustedDelivery) (rawId rawId' rawTimestamp
    rawTimestamp' : Bytes) (id id' : Delivery) (millis millis' : Int) : Prop where
  rawId : rawId = rawId'
  id : id = id'
  rawTimestamp : rawTimestamp = rawTimestamp'
  millis : millis = millis'
  body : left.body = right.body

theorem sameSigned_of_message {left right : UntrustedDelivery}
    {rawId rawId' rawTimestamp rawTimestamp' : Bytes} {id id' : Delivery} {millis millis' : Int}
    (hleft : Identifies left rawId rawTimestamp id millis)
    (hright : Identifies right rawId' rawTimestamp' id' millis')
    (heq : (messageParts rawId rawTimestamp left.body).flatten =
      (messageParts rawId' rawTimestamp' right.body).flatten) :
    SameSigned left right rawId rawId' rawTimestamp rawTimestamp' id id' millis millis' := by
  rw [messageParts_flatten, messageParts_flatten] at heq
  rcases Unambiguous.terminated 46 (dot_not_mem_id hleft.parsedId)
    (dot_not_mem_id hright.parsedId) heq with ⟨rfl, hrest⟩
  rcases Unambiguous.terminated 46 (dot_not_mem_timestamp hleft.parsedTimestamp)
    (dot_not_mem_timestamp hright.parsedTimestamp) hrest with ⟨rfl, hbody⟩
  have hid := hleft.parsedId.symm.trans hright.parsedId
  have hmillis := hleft.parsedTimestamp.symm.trans hright.parsedTimestamp
  rw [Except.ok.injEq] at hid hmillis
  exact ⟨rfl, hid, rfl, hmillis, hbody⟩

/-- The verifier accepts the request, and the signature is one its header offers
    and the code of its message under an active key. -/
structure Accepts (codec : WebhookCodec) (keys : WebhookKeyring) (check : IngressCheck)
    (signature : Bytes) (proof : SignedRequestProof) : Prop where
  verified : verify codec keys check = .ok proof
  offered : ∃ headers raw offered, Headers.new check.delivery.headers = .ok headers ∧
    headers.exact "webhook-signature" 383 = .ok raw ∧ signatures codec raw = .ok offered ∧
    signature ∈ offered
  covers : ∃ rawId rawTimestamp id millis,
    Identifies check.delivery rawId rawTimestamp id millis ∧ proof.replay = .authenticated id ∧
    proof.issuedAtUnixMillis = some millis ∧
    ∃ key ∈ keys.keys, key.isActive check.delivery.receivedAtUnixMillis = true ∧
      ∃ mac, codec.hmac key.secret = some mac ∧
        mac (messageParts rawId rawTimestamp check.delivery.body).flatten = signature

variable {codec : WebhookCodec}

theorem verify_eq_ok {keys : WebhookKeyring} {check : IngressCheck} {proof : SignedRequestProof}
    (h : verify codec keys check = .ok proof) :
    ∃ signature, Accepts codec keys check signature proof := by
  have hverified := h
  simp only [verify, Fallible.bind_eq_ok, Except.ok.injEq] at h
  rcases h with ⟨headers, hheaders, rawId, hrawId, rawTimestamp, hrawTimestamp, raw, hraw, id, hid,
    millis, hmillis, offered, hoffered, anchor, hanchor, rfl⟩
  rcases authenticate_eq_ok hanchor with ⟨_, key, hkey, hactive, _, mac, hmac, hcode⟩
  exact ⟨_, hverified, ⟨headers, raw, offered, hheaders, hraw, hoffered, hcode⟩, rawId,
    rawTimestamp, id, millis, ⟨⟨headers, hheaders, hrawId, hrawTimestamp⟩, hid, hmillis⟩, rfl, rfl,
    key, hkey, hactive, mac, hmac, rfl⟩

/-- Two requests accepted for one signature agree in what it covers. -/
theorem Accepts.same (hseparates : codec.Separates) {keys keys' : WebhookKeyring}
    {check check' : IngressCheck} {signature : Bytes} {proof proof' : SignedRequestProof}
    (h : Accepts codec keys check signature proof)
    (h' : Accepts codec keys' check' signature proof') :
    proof.replay = proof'.replay ∧ proof.issuedAtUnixMillis = proof'.issuedAtUnixMillis ∧
      check.delivery.body = check'.delivery.body := by
  rcases h.covers with ⟨_, _, _, _, hreads, hreplay, hissued, _, _, _, mac, hmac, hcode⟩
  rcases h'.covers with ⟨_, _, _, _, hreads', hreplay', hissued', _, _, _, mac', hmac', hcode'⟩
  have hsame := sameSigned_of_message hreads hreads'
    (hseparates _ _ mac mac' _ _ hmac hmac' (hcode.trans hcode'.symm))
  rw [hreplay, hreplay', hissued, hissued', hsame.id, hsame.millis]
  exact ⟨rfl, rfl, hsame.body⟩

end GitLabWebhook

open GitLabWebhook in
/-- Two GitLab deliveries whose identifier and timestamp the verifier parses
    have one signed message only if they agree in identifier, timestamp and
    body. Whatever the verifier accepts it accepts for a signature over that
    message, so a signature accepted for one delivery is accepted for no other
    identifier, timestamp or body, by whatever keys. -/
theorem gitlab_message_names_delivery (codec : WebhookCodec) :
    (∀ left right rawId rawId' rawTimestamp rawTimestamp' id id' millis millis',
      Identifies left rawId rawTimestamp id millis →
      Identifies right rawId' rawTimestamp' id' millis' →
      (messageParts rawId rawTimestamp left.body).flatten =
        (messageParts rawId' rawTimestamp' right.body).flatten →
      SameSigned left right rawId rawId' rawTimestamp rawTimestamp' id id' millis millis') ∧
    (∀ keys check proof, verify codec keys check = .ok proof →
      ∃ signature, Accepts codec keys check signature proof) ∧
    (codec.Separates → ∀ keys keys' check check' signature proof proof',
      Accepts codec keys check signature proof → Accepts codec keys' check' signature proof' →
      proof.replay = proof'.replay ∧ proof.issuedAtUnixMillis = proof'.issuedAtUnixMillis ∧
        check.delivery.body = check'.delivery.body) :=
  ⟨fun _ _ _ _ _ _ _ _ _ _ => sameSigned_of_message, fun _ _ _ => verify_eq_ok,
    fun hseparates _ _ _ _ _ _ _ => Accepts.same hseparates⟩

namespace Sample

/-- An authentication code that is the message, in a code for bytes that pads
    them. -/
def plainCodec : WebhookCodec := ⟨fun _ => some id, fun bytes => some (bytes.take 32)⟩

theorem plainCodec_separates : plainCodec.Separates := by
  intro secret secret' mac mac' message message' hmac hmac' heq
  rw [← some.inj hmac, ← some.inj hmac'] at heq
  exact heq

def hookKeys : WebhookKeyring :=
  ⟨request.route.trustSet,
    [⟨⟨"key", by decide⟩, List.replicate 16 0, 0, none, by decide, by decide⟩], by decide,
    List.pairwise_singleton _ _⟩

def hookCheck : IngressCheck := ⟨hook, 30, none, ⟨0⟩⟩

end Sample

open Sample GitLabWebhook

/-- The sample delivery is accepted, and for a signature that no request with
    another body is accepted for. -/
theorem gitlab_message_names_delivery_hook :
    verify plainCodec hookKeys hookCheck = .ok ⟨hookKeys.trustSet, ⟨"key", by decide⟩,
      .authenticated (.provided ⟨"x", by decide⟩), some 7000, ⟨0⟩⟩ ∧
    ∃ signature, ∀ keys check proof, Accepts plainCodec keys check signature proof →
      hook.body = check.delivery.body := by
  have hverified : verify plainCodec hookKeys hookCheck = .ok ⟨hookKeys.trustSet,
    ⟨"key", by decide⟩, .authenticated (.provided ⟨"x", by decide⟩), some 7000, ⟨0⟩⟩ := by
    decide +kernel
  rcases gitlab_message_names_delivery plainCodec with ⟨_, haccepts, hsame⟩
  rcases haccepts _ _ _ hverified with ⟨signature, hhook⟩
  refine ⟨hverified, signature, fun keys check proof haccepted => ?_⟩
  exact (hsame plainCodec_separates _ _ _ _ _ _ _ hhook haccepted).2.2

end Amiss
