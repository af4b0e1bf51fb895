import Amiss.Core.Envelope

/-!
# Sealed Documents Read Back

There is one writing path and there are three reading paths, and each of them
computes the digest from something else: the typed payload, the whole document,
or the payload text. They agree on what was written because all of them come
back to one spelling. A payload's canonical spelling is its own canonical form,
the payload is read back from it, and the document around it is spelled from it
member by member.

`JsonCodec.Correct` is what is assumed of the JSON library and of the payload's
model: each law is about one call.

## Main definitions

* `JsonCodec.Correct`: The laws of the library.
* `PayloadType.Covers`: What the digest in a document is taken of.

## Theorems

* `Digest.fromWire_toWire`: A digest reads back.
* `emit_eq_ok`: What is written.
* `parse_of_emitted`: What is written reads back, under each sealing.
* `parse_covers`: The digest of an accepted document.
-/

namespace Amiss

open Option

open List

open Fallible

/-- A digest that fits its 32 bytes reads back. -/
theorem Digest.fromWire_toWire {digest : Digest} (h : digest.value < 256 ^ 32) :
    Digest.fromWire digest.toWire = some digest := by
  have hlead : (utf8 "sha256:").isPrefixOf digest.toWire = true := by
    exact isPrefixOf_iff_prefix.mpr (prefix_append _ _)
  have hdigits : digest.toWire.drop (utf8 "sha256:").length = hexEncode (beBytes 32 digest.value) :=
    drop_left
  -- A lowercase writer leaves nothing for the case check to refuse.
  have hlower : ∀ bytes : List UInt8,
      (hexEncode bytes).any (fun byte => 65 ≤ byte && byte ≤ 90) = false := by
    intro bytes
    induction bytes with
    | nil => rfl
    | cons byte rest ih =>
      have hdigit : ∀ n : Fin 16, (65 ≤ hexByte n && hexByte n ≤ 90) = false := by decide
      have hbyte := byte.toNat_lt
      rw [hexEncode, any_cons, any_cons, ih,
        hdigit ⟨byte.toNat / 16, by omega⟩, hdigit ⟨byte.toNat % 16, by omega⟩]
      rfl
  rw [Digest.fromWire, if_pos hlead]
  dsimp only
  rw [hdigits, if_neg, hexDecode_hexEncode, map_some, ofBeBytes_beBytes h]
  rw [length_hexEncode, length_beBytes, hlower]
  decide

section Documents

variable {T S D : Type} {json : JsonCodec T S} {sha256 : Bytes → Digest}
  {kind : PayloadType T S D}

/-- What is assumed of the JSON library and of the payload's model. -/
structure JsonCodec.Correct (json : JsonCodec T S) : Prop where
  /-- A canonical spelling is a text of one value, its own canonical form. -/
  canonical : ∀ payload bytes, json.spell payload = some bytes →
    (textOf bytes).isSome = true ∧ json.rawValue bytes = some bytes ∧
      json.transcode bytes = some bytes
  /-- The model reads back what it spelled. -/
  readsBack : ∀ payload bytes, json.spell payload = some bytes →
    json.readPayload bytes = .ok payload
  /-- A document is spelled member by member. -/
  spellsMembers : ∀ document bytes schemaText, json.spell document.payload = some bytes →
    json.spellSchema document.schema = some schemaText →
    json.spellDocument document = some (sealedText bytes document.payloadDigest schemaText)
  /-- A document of canonical members is canonical. -/
  transcodesMembers : ∀ payload bytes digest schema schemaText, json.spell payload = some bytes →
    json.spellSchema schema = some schemaText →
    json.transcode (sealedText bytes digest schemaText) = some (sealedText bytes digest schemaText)
  /-- A document is read member by member. -/
  readsMembers : ∀ payload bytes digest schema schemaText, json.spell payload = some bytes →
    digest.value < 256 ^ 32 → json.spellSchema schema = some schemaText →
    json.readDocument (sealedText bytes digest schemaText) = .ok ⟨payload, digest, schema⟩
  /-- A payload text is kept as it stands in the document. -/
  keepsText : ∀ payload bytes digest schema schemaText, json.spell payload = some bytes →
    digest.value < 256 ^ 32 → json.spellSchema schema = some schemaText →
    json.readSealed (sealedText bytes digest schemaText) = .ok ⟨bytes, digest, schema⟩

variable {payload : T} {schema : S} {bytes : Bytes}

theorem spell_eq_ok :
    kind.spell json payload = .ok bytes ↔ json.spell payload = some bytes := by
  unfold PayloadType.spell
  cases json.spell payload with
  | none => simp [PayloadType.fail]
  | some found => simp

section Reading

variable {α : Type} {reader : Bytes → Except WireError α} {value : α}

theorem read_of_le (hfits : bytes.length ≤ kind.documentBytes) (hread : reader bytes = .ok value) :
    kind.read reader bytes = .ok value := by
  rw [PayloadType.read, if_neg (not_lt.mpr hfits), hread]
  rfl

theorem lift_eq_ok {read : Except WireError α} :
    kind.lift read = .ok value ↔ read = .ok value := by
  unfold PayloadType.lift
  cases read with
  | error error => simp [Except.mapError]
  | ok found => simp [Except.mapError]

theorem read_eq_ok (h : kind.read reader bytes = .ok value) : reader bytes = .ok value :=
  lift_eq_ok.mp (guard_eq_ok.mp h).2

end Reading

/-! ### Writing and reading back -/

theorem checkSealed_written (hspell : json.spell payload = some bytes) :
    kind.checkSealed json sha256 ⟨payload, domainDigest sha256 kind.domain bytes, schema⟩ =
      .ok () := by
  unfold PayloadType.checkSealed
  rw [spell_eq_ok.mpr hspell, ok_bind]
  exact if_neg (not_not_intro rfl)

section Written

variable {schemaText : Bytes} (hcorrect : json.Correct) (hspell : json.spell payload = some bytes)
  (hschema : json.spellSchema kind.schema = some schemaText)
include hcorrect hspell hschema

theorem writeSealed_spelled (digest : Digest) :
    writeSealed json kind.schema bytes digest = some (sealedText bytes digest schemaText) := by
  rcases hcorrect.canonical payload bytes hspell with ⟨htext, hraw, _⟩
  rcases isSome_iff_exists.mp htext with ⟨text, htext⟩
  unfold writeSealed
  rw [htext, hraw, hschema]
  rfl

variable (hvalid : kind.validate payload = .ok ())
  (hfits : (sealedText bytes (domainDigest sha256 kind.domain bytes) schemaText).length ≤
    kind.documentBytes)
include hvalid hfits

/-- A payload that passes its grammar and whose document fits is written. -/
theorem emit_eq_ok :
    kind.emit json sha256 payload =
      .ok (sealedText bytes (domainDigest sha256 kind.domain bytes) schemaText) := by
  unfold PayloadType.emit
  rw [hvalid, ok_bind, spell_eq_ok.mpr hspell, ok_bind, writeSealed_spelled hcorrect hspell hschema]
  exact if_neg (not_lt.mpr hfits)

theorem validateDocument_written :
    kind.validateDocument json sha256
      ⟨payload, domainDigest sha256 kind.domain bytes, kind.schema⟩ = .ok () := by
  unfold PayloadType.validateDocument
  rw [hvalid, ok_bind, spell_eq_ok.mpr hspell, ok_bind]
  dsimp only
  rw [if_neg (not_not_intro rfl), writeSealed_spelled hcorrect hspell hschema]
  exact if_neg (not_lt.mpr hfits)

/-- Each reading path comes back to the payload and to the digest sealed. -/
theorem parse_of_emitted (hwidth : ∀ bytes, (sha256 bytes).value < 256 ^ 32) :
    kind.parse json sha256 (sealedText bytes (domainDigest sha256 kind.domain bytes) schemaText) =
      .ok ⟨payload, domainDigest sha256 kind.domain bytes, kind.schema⟩ := by
  rcases hcorrect.canonical payload bytes hspell with ⟨_, _, hcanonical⟩
  have hdigest : (domainDigest sha256 kind.domain bytes).value < 256 ^ 32 := hwidth _
  have hdocument := read_of_le hfits
    (hcorrect.readsMembers payload bytes _ kind.schema schemaText hspell hdigest hschema)
  unfold PayloadType.parse
  cases kind.sealing with
  | typed =>
    dsimp only
    rw [PayloadType.parseTyped, hdocument, ok_bind,
      validateDocument_written hcorrect hspell hschema hvalid hfits, ok_bind]
  | exact =>
    have hspelled := hcorrect.spellsMembers
      ⟨payload, domainDigest sha256 kind.domain bytes, kind.schema⟩ bytes schemaText hspell hschema
    -- The document was written in its own spelling, so both digests are of one text.
    have htranscoded : transcodedDigest json sha256 kind
        (sealedText bytes (domainDigest sha256 kind.domain bytes) schemaText) =
        some (domainDigest sha256 kind.domain
          (sealedText bytes (domainDigest sha256 kind.domain bytes) schemaText)) := by
      unfold transcodedDigest
      rw [hcorrect.transcodesMembers payload bytes _ kind.schema schemaText hspell hschema,
        map_some]
    dsimp only
    rw [PayloadType.parseExact, hdocument, ok_bind, hspelled, map_some]
    dsimp only
    rw [if_neg (not_not_intro htranscoded), checkSealed_written hspell, ok_bind, hvalid, ok_bind]
  | received =>
    have hkept := read_of_le hfits
      (hcorrect.keepsText payload bytes _ kind.schema schemaText hspell hdigest hschema)
    dsimp only
    rw [PayloadType.parseReceived, hkept, ok_bind, transcodedDigest, hcanonical, map_some]
    dsimp only
    rw [hcorrect.readsBack payload bytes hspell, lift_eq_ok.mpr rfl, ok_bind,
      if_neg (not_not_intro rfl), hvalid, ok_bind]

end Written

/-! ### Accepted documents -/

/-- The canonical form that the digest in a document is taken of: of the payload
    read, or, where the payload is sealed as received, of the payload text. -/
def PayloadType.Covers (json : JsonCodec T S) (kind : PayloadType T S D) (bytes : Bytes)
    (document : Envelope T S) (canonical : Bytes) : Prop :=
  match kind.sealing with
  | .typed | .exact =>
    json.readDocument bytes = .ok document ∧ json.spell document.payload = some canonical
  | .received => ∃ text, json.readSealed bytes = .ok ⟨text, document.payloadDigest, document.schema⟩ ∧
    json.readPayload text = .ok document.payload ∧ json.transcode text = some canonical

variable {document : Envelope T S}

theorem checkSealed_eq_ok (h : kind.checkSealed json sha256 document = .ok ()) :
    ∃ canonical, json.spell document.payload = some canonical ∧
      document.payloadDigest = domainDigest sha256 kind.domain canonical := by
  rcases bind_eq_ok.mp h with ⟨canonical, hspell, h⟩
  exact ⟨canonical, spell_eq_ok.mp hspell, (not_ne_iff.mp (guard_eq_ok.mp h).1).symm⟩

theorem validateDocument_eq_ok (h : kind.validateDocument json sha256 document = .ok ()) :
    ∃ canonical, json.spell document.payload = some canonical ∧
      document.payloadDigest = domainDigest sha256 kind.domain canonical := by
  rcases bind_eq_ok.mp h with ⟨_, _, h⟩
  rcases bind_eq_ok.mp h with ⟨canonical, hspell, h⟩
  exact ⟨canonical, spell_eq_ok.mp hspell, (not_ne_iff.mp (guard_eq_ok.mp h).1).symm⟩

/-- An accepted document carries the digest of what its sealing covers. -/
theorem parse_covers (h : kind.parse json sha256 bytes = .ok document) :
    ∃ canonical, kind.Covers json bytes document canonical ∧
      document.payloadDigest = domainDigest sha256 kind.domain canonical := by
  unfold PayloadType.parse at h
  unfold PayloadType.Covers
  cases hsealing : kind.sealing with
  | typed =>
    rw [hsealing] at h
    rcases bind_eq_ok.mp h with ⟨found, hread, h⟩
    rcases bind_eq_ok.mp h with ⟨_, hchecked, h⟩
    cases h
    rcases validateDocument_eq_ok hchecked with ⟨canonical, hspell, hdigest⟩
    exact ⟨canonical, ⟨read_eq_ok hread, hspell⟩, hdigest⟩
  | exact =>
    rw [hsealing] at h
    rcases bind_eq_ok.mp h with ⟨found, hread, h⟩
    split at h
    next => cases h
    next =>
    rcases bind_eq_ok.mp (guard_eq_ok.mp h).2 with ⟨_, hchecked, h⟩
    rcases bind_eq_ok.mp h with ⟨_, _, h⟩
    cases h
    rcases checkSealed_eq_ok hchecked with ⟨canonical, hspell, hdigest⟩
    exact ⟨canonical, ⟨read_eq_ok hread, hspell⟩, hdigest⟩
  | received =>
    rw [hsealing] at h
    rcases bind_eq_ok.mp h with ⟨⟨text, digest, schema⟩, hread, h⟩
    split at h
    next => cases h
    next sealed hseal =>
    rcases bind_eq_ok.mp h with ⟨payload, hpayload, h⟩
    rcases guard_eq_ok.mp h with ⟨hsame, h⟩
    rcases bind_eq_ok.mp h with ⟨_, _, h⟩
    cases h
    rcases map_eq_some_iff.mp hseal with ⟨canonical, hcanonical, rfl⟩
    exact ⟨canonical, ⟨text, read_eq_ok hread, lift_eq_ok.mp hpayload, hcanonical⟩,
      (not_ne_iff.mp hsame).symm⟩

end Documents

/-- Under whichever sealing, a payload that passes its grammar and whose
    document fits the ceiling is written, and the document reads back as the
    payload under the digest that was sealed. And every document that is
    accepted carries the digest of the canonical form of its payload. -/
theorem sealed_documents_read_back {T S D : Type} (json : JsonCodec T S)
    (sha256 : Bytes → Digest) (kind : PayloadType T S D) (hcorrect : json.Correct)
    (hwidth : ∀ bytes, (sha256 bytes).value < 256 ^ 32) :
    (∀ payload bytes schemaText, kind.validate payload = .ok () →
      json.spell payload = some bytes → json.spellSchema kind.schema = some schemaText →
      (sealedText bytes (domainDigest sha256 kind.domain bytes) schemaText).length ≤
        kind.documentBytes →
      ∃ written, kind.emit json sha256 payload = .ok written ∧
        kind.parse json sha256 written =
          .ok ⟨payload, domainDigest sha256 kind.domain bytes, kind.schema⟩) ∧
    ∀ bytes document, kind.parse json sha256 bytes = .ok document →
      ∃ canonical, kind.Covers json bytes document canonical ∧
        document.payloadDigest = domainDigest sha256 kind.domain canonical := by
  refine ⟨?_, fun bytes document => parse_covers⟩
  intro payload bytes schemaText hvalid hspell hschema hfits
  exact ⟨_, emit_eq_ok hcorrect hspell hschema hvalid hfits,
    parse_of_emitted hcorrect hspell hschema hvalid hfits hwidth⟩

namespace Sample

def schemaText : Bytes := utf8 "\"digit\""

/-- Payloads of one decimal digit. -/
def readDigit : Bytes → Except WireError (Fin 10)
  | [byte] =>
    match hexValue byte with
    | some n => if h : n < 10 then .ok ⟨n, h⟩ else .error ⟨"$", .invalidValue⟩
    | none => .error ⟨"$", .wrongType⟩
  | _ => .error ⟨"$", .wrongType⟩

/-- A document around one byte: the payload stands at 11, the digest at 31. -/
def readSealedDigit (bytes : Bytes) : Except WireError (Envelope Bytes Unit) :=
  match Digest.fromWire ((bytes.drop 31).take 71) with
  | some digest => .ok ⟨(bytes.drop 11).take 1, digest, ()⟩
  | none => .error ⟨"$.payload_digest", .invalidValue⟩

def digits : JsonCodec (Fin 10) Unit where
  spell n := some [hexByte n]
  spellDocument document :=
    some (sealedText [hexByte document.payload] document.payloadDigest schemaText)
  spellSchema _ := some schemaText
  rawValue bytes := if bytes.length = 1 then some bytes else none
  transcode := some
  readDocument bytes := do
    let received ← readSealedDigit bytes
    let payload ← readDigit received.payload
    .ok ⟨payload, received.payloadDigest, ()⟩
  readSealed := readSealedDigit
  readPayload := readDigit

theorem readSealedDigit_sealedText {bytes : Bytes} {digest : Digest} (hone : bytes.length = 1)
    (hdigest : digest.value < 256 ^ 32) :
    readSealedDigit (sealedText bytes digest schemaText) = .ok ⟨bytes, digest, ()⟩ := by
  have hwire : digest.toWire.length = 71 := by
    rw [Digest.toWire, length_append, length_hexEncode, length_beBytes]
    decide
  have hpayload : ((sealedText bytes digest schemaText).drop 11).take 1 = bytes := by
    unfold sealedText
    rw [append_assoc, append_assoc, append_assoc, append_assoc,
      append_assoc, drop_left' (by decide), take_left' hone]
  have hseal : ((sealedText bytes digest schemaText).drop 31).take 71 = digest.toWire := by
    unfold sealedText
    rw [append_assoc _ digest.toWire, append_assoc _ _ schemaText,
      append_assoc _ _ (utf8 "\x7d"), drop_left', append_assoc, append_assoc,
      take_left' hwire]
    rw [length_append, length_append, hone]
    decide
  unfold readSealedDigit
  rw [hseal, Digest.fromWire_toWire hdigest, hpayload]

theorem spelled_digit {n : Fin 10} {bytes : Bytes} (hspell : digits.spell n = some bytes) :
    bytes.length = 1 ∧ readDigit bytes = .ok n := by
  have hread : ∀ n : Fin 10, readDigit [hexByte n] = .ok n := by decide
  rw [← some.inj hspell]
  exact ⟨rfl, hread n⟩

theorem digits_correct : digits.Correct where
  canonical := by
    intro n bytes hspell
    have htext : ∀ n : Fin 10, (textOf [hexByte n]).isSome = true := by decide +kernel
    rw [← some.inj hspell]
    exact ⟨htext n, rfl, rfl⟩
  readsBack := fun n bytes hspell => (spelled_digit hspell).2
  spellsMembers := by
    intro document bytes text hspell hschema
    rw [← some.inj hspell, ← some.inj hschema]
    rfl
  transcodesMembers := fun _ _ _ _ _ _ _ => rfl
  readsMembers := by
    intro n bytes digest schema text hspell hdigest hschema
    rcases spelled_digit hspell with ⟨hone, hread⟩
    rw [← some.inj hschema]
    change (readSealedDigit (sealedText bytes digest schemaText) >>= _) = _
    rw [readSealedDigit_sealedText hone hdigest, ok_bind]
    change (readDigit bytes >>= _) = _
    rw [hread]
    rfl
  keepsText := by
    intro n bytes digest schema text hspell hdigest hschema
    rw [← some.inj hschema]
    exact readSealedDigit_sealedText (spelled_digit hspell).1 hdigest

/-- Even digits in documents of at most 200 bytes, sealed as received. -/
def evenDigits : PayloadType (Fin 10) Unit WireError where
  domain := "digit"
  documentBytes := 200
  sealing := .received
  schema := ()
  validate n := if n.val % 2 = 0 then .ok () else .error ⟨"$.payload", .invalidValue⟩
  ofError := id

/-- A digest of one byte: how many bytes there are. -/
def byteCount (bytes : Bytes) : Digest := ⟨bytes.length % 256⟩

theorem byteCount_lt (bytes : Bytes) : (byteCount bytes).value < 256 ^ 32 :=
  lt_of_lt_of_le (Nat.mod_lt _ (by decide)) (Nat.le_self_pow (by decide) 256)

end Sample

open Sample

/-- The digit four is written and reads back. -/
theorem sealed_documents_read_back_digit :
    digits.Correct ∧ (∀ bytes, (byteCount bytes).value < 256 ^ 32) ∧
    ∃ written, evenDigits.emit digits byteCount 4 = .ok written ∧
      evenDigits.parse digits byteCount written = .ok ⟨4, ⟨7⟩, ()⟩ := by
  refine ⟨digits_correct, byteCount_lt, ?_⟩
  have hread := (sealed_documents_read_back digits byteCount evenDigits
    digits_correct byteCount_lt).1 4 [hexByte 4] schemaText rfl rfl rfl
    (by decide +kernel)
  have hdigest : domainDigest byteCount evenDigits.domain [hexByte 4] = ⟨7⟩ := by
    decide +kernel
  rwa [hdigest] at hread

end Amiss
