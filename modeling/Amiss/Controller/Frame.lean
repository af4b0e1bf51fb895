import Amiss.Base.BigEndian
import Amiss.Base.Fallible
import Amiss.Core.Wire

/-!
# Frames

The stores write each value as one frame: magic bytes, a version, the length
of the payload, the payload's digest and the payload. A reader checks all of
them, and it checks that the value it read would be written as exactly the
bytes it came from, so a frame has one spelling.

How a value is turned into a payload is JSON, which lies outside the sources.
It is a `Serde`, and the one fact ever asked of it is that what it writes it
reads back.

## Main definitions

* `Serde`: Writing and reading the values of a type.
* `FrameFormat`: The magic, domain and ceiling of one format.
* `Frame.encode`, `Frame.decode`: Framing a value and reading it back.

## Theorems

* `Frame.encode_eq_ok`: What a written frame looks like.
* `Frame.decode_encode`: A written frame reads back.
* `Frame.encode_of_decode`: What is read was written so.
* `Frame.frame_unique`: A value has one frame.
-/

namespace Amiss

/-- How the values of a type are written and read. -/
structure Serde (α : Type) where
  toVec : α → Option Bytes
  fromSlice : Bytes → Option α

/-- What is written reads back. -/
def Serde.RoundTrips {α : Type} (serde : Serde α) : Prop :=
  ∀ value bytes, serde.toVec value = some bytes → serde.fromSlice bytes = some value

/-- One kind of frame. -/
structure FrameFormat where
  magic : Bytes
  domain : String
  maximum : Nat

namespace Frame

def version : UInt8 := 1

def lengthBytes : Nat := 8

def digestBytes : Nat := 32

/-- The first `count` bytes and the rest, if there are so many. -/
def splitFirstChunk (count : Nat) (bytes : Bytes) : Option (Bytes × Bytes) :=
  if count ≤ bytes.length then some (bytes.take count, bytes.drop count) else none

/-- The bytes after the magic. -/
def stripMagic (magic bytes : Bytes) : Option Bytes :=
  if bytes.take magic.length = magic then some (bytes.drop magic.length) else none

section Codec

variable {α ε : Type} (sha256 : Bytes → Digest) (format : FrameFormat) (serde : Serde α)
  (corrupt : ε) (validate : α → Except ε Unit)

variable (payload : Bytes)

/-- The bytes of a payload's digest under the domain of its format. -/
def payloadDigest : Bytes :=
  beBytes digestBytes (domainDigest sha256 format.domain payload).value

/-- The bytes of a frame around a payload. -/
def around : Bytes :=
  format.magic ++ version ::
    (beBytes lengthBytes payload.length ++ (payloadDigest sha256 format payload ++ payload))

/-- Frames one validated value. -/
def encode (value : α) : Except ε Bytes := do
  validate value
  match serde.toVec value with
  | none => .error corrupt
  | some payload =>
    if 2 ^ 64 ≤ payload.length then .error corrupt
    else if format.maximum <
        format.magic.length + (1 + lengthBytes + digestBytes) + payload.length then
      .error corrupt
    else .ok (around sha256 format payload)

/-- The value of a payload whose header has been checked. -/
def decodePayload : Except ε α :=
  match serde.fromSlice payload with
  | none => .error corrupt
  | some value => do
    validate value
    if serde.toVec value = some payload then .ok value else .error corrupt

/-- Reads one frame back. -/
def decode (frame : Bytes) : Except ε α :=
  if format.maximum < frame.length then .error corrupt
  else
    match stripMagic format.magic frame with
    | none | some [] => .error corrupt
    | some (found :: header) =>
      if found ≠ version then .error corrupt
      else
        match splitFirstChunk lengthBytes header with
        | none => .error corrupt
        | some (length, header) =>
          match splitFirstChunk digestBytes header with
          | none => .error corrupt
          | some (expected, payload) =>
            if payload.length ≠ ofBeBytes length ∨
                payloadDigest sha256 format payload ≠ expected then .error corrupt
            else decodePayload serde corrupt validate payload

end Codec

theorem splitFirstChunk_eq_some {count : Nat} {bytes front rest : Bytes} :
    splitFirstChunk count bytes = some (front, rest) ↔
      bytes = front ++ rest ∧ front.length = count := by
  unfold splitFirstChunk
  constructor
  · intro h
    split at h
    next hcount =>
      cases h
      exact ⟨(List.take_append_drop count bytes).symm, List.length_take_of_le hcount⟩
    next => cases h
  · rintro ⟨rfl, hcount⟩
    rw [if_pos (by rw [List.length_append]; omega), List.take_left' hcount, List.drop_left' hcount]

theorem stripMagic_eq_some {magic bytes rest : Bytes} :
    stripMagic magic bytes = some rest ↔ bytes = magic ++ rest := by
  unfold stripMagic
  constructor
  · intro h
    split at h
    next hmagic =>
      cases h
      exact (List.take_append_drop magic.length bytes).symm.trans (by rw [hmagic])
    next => cases h
  · rintro rfl
    rw [if_pos (List.take_left' rfl), List.drop_left' rfl]

section Written

variable {α ε : Type} {sha256 : Bytes → Digest} {format : FrameFormat} {serde : Serde α}
  {corrupt : ε} {validate : α → Except ε Unit} {value : α} {frame : Bytes}

/-- A written frame: the value was valid, and its payload fits. -/
theorem encode_eq_ok (h : encode sha256 format serde corrupt validate value = .ok frame) :
    validate value = .ok () ∧ ∃ payload, serde.toVec value = some payload ∧
      payload.length < 2 ^ 64 ∧ frame = around sha256 format payload ∧
      frame.length ≤ format.maximum := by
  unfold encode at h
  rw [Fallible.bind_eq_ok] at h
  rcases h with ⟨⟨⟩, hvalid, h⟩
  refine ⟨hvalid, ?_⟩
  cases hpayload : serde.toVec value with
  | none =>
    rw [hpayload] at h
    cases h
  | some payload =>
    rw [hpayload] at h
    simp only [Fallible.guard_eq_ok, Except.ok.injEq] at h
    rcases h with ⟨hshort, hfits, h⟩
    refine ⟨payload, rfl, Nat.lt_of_not_le hshort, h.symm, ?_⟩
    rw [← h, around]
    simp only [List.length_append, List.length_cons, length_beBytes, payloadDigest]
    omega

theorem length_around_pos : 0 < (around sha256 format payload).length := by
  unfold around
  rw [List.length_append, List.length_cons]
  omega

theorem decode_encode (hserde : serde.RoundTrips)
    (h : encode sha256 format serde corrupt validate value = .ok frame) :
    decode sha256 format serde corrupt validate frame = .ok value := by
  rcases encode_eq_ok h with ⟨hvalid, payload, hpayload, hshort, rfl, hfits⟩
  have hlength : payload.length = ofBeBytes (beBytes lengthBytes payload.length) :=
    (ofBeBytes_beBytes (hshort.trans_eq (by decide))).symm
  have hdigest : (payloadDigest sha256 format payload).length = digestBytes :=
    length_beBytes _ _
  have hread : decodePayload serde corrupt validate payload = .ok value := by
    unfold decodePayload
    rw [hserde value payload hpayload]
    dsimp only
    rw [hvalid, Fallible.ok_bind, if_pos hpayload]
  -- Each part of the header is the one that was written.
  unfold decode
  rw [if_neg (Nat.not_lt_of_le hfits), around, stripMagic_eq_some.mpr rfl]
  dsimp only
  rw [if_neg (not_not_intro rfl), splitFirstChunk_eq_some.mpr ⟨rfl, length_beBytes _ _⟩]
  dsimp only
  rw [splitFirstChunk_eq_some.mpr ⟨rfl, hdigest⟩]
  dsimp only
  rw [if_neg (not_or.mpr ⟨not_not_intro hlength, not_not_intro rfl⟩), hread]

/-- The value of a payload is written as that payload. -/
theorem decodePayload_eq_ok {payload : Bytes}
    (h : decodePayload serde corrupt validate payload = .ok value) :
    validate value = .ok () ∧ serde.toVec value = some payload := by
  unfold decodePayload at h
  split at h
  next => cases h
  next read _ =>
    rw [Fallible.bind_eq_ok] at h
    rcases h with ⟨⟨⟩, hvalid, h⟩
    split at h
    next hwritten =>
      cases h
      exact ⟨hvalid, hwritten⟩
    next => cases h

/-- A frame that is read is the one its value is written as. -/
theorem encode_of_decode (h : decode sha256 format serde corrupt validate frame = .ok value) :
    encode sha256 format serde corrupt validate value = .ok frame := by
  rcases Fallible.guard_eq_ok.mp h with ⟨hfits, h⟩
  split at h
  next => cases h
  next => cases h
  next found header hmagic =>
  rcases Fallible.guard_eq_ok.mp h with ⟨hversion, h⟩
  split at h
  next => cases h
  next length rest hlength =>
  split at h
  next => cases h
  next digest payload hdigest =>
  rcases Fallible.guard_eq_ok.mp h with ⟨hheader, h⟩
  rcases decodePayload_eq_ok h with ⟨hvalid, hpayload⟩
  rw [stripMagic_eq_some] at hmagic
  rcases splitFirstChunk_eq_some.mp hlength with ⟨rfl, height⟩
  rcases splitFirstChunk_eq_some.mp hdigest with ⟨rfl, _⟩
  simp only [not_or, not_not] at hversion hheader
  -- Eight bytes spell the length in one way.
  have hspelled : beBytes lengthBytes payload.length = length := by
    rw [hheader.1, ← height, beBytes_ofBeBytes]
  have hframe : frame = around sha256 format payload := by
    rw [hmagic, hversion, around, hspelled, hheader.2]
  have hshort : payload.length < 2 ^ 64 := by
    rw [hheader.1]
    exact (ofBeBytes_lt length).trans_eq (by rw [height]; rfl)
  unfold encode
  rw [hvalid, Fallible.ok_bind, hpayload]
  dsimp only
  rw [hframe, around] at hfits
  simp only [List.length_append, List.length_cons, length_beBytes, payloadDigest] at hfits
  rw [if_neg (Nat.not_le_of_lt hshort), if_neg (by omega), hframe]

end Written

/-- A written frame reads back as its value and no other bytes do, and whatever
    is read is the frame of what it reads as. -/
theorem frame_unique {α ε : Type} (sha256 : Bytes → Digest) (format : FrameFormat)
    (serde : Serde α) (corrupt : ε) (validate : α → Except ε Unit) (hserde : serde.RoundTrips) :
    (∀ value frame, encode sha256 format serde corrupt validate value = .ok frame →
      decode sha256 format serde corrupt validate frame = .ok value ∧
      ∀ other, decode sha256 format serde corrupt validate other = .ok value → other = frame) ∧
    ∀ frame value, decode sha256 format serde corrupt validate frame = .ok value →
      encode sha256 format serde corrupt validate value = .ok frame := by
  refine ⟨fun value frame h => ⟨decode_encode hserde h, fun other hother => ?_⟩,
    fun frame value => encode_of_decode⟩
  exact Except.ok.inj ((encode_of_decode hother).symm.trans h)

/-- A store of bytes that are their own payload, with two of them in it. -/
theorem frame_unique_bytes : ∃ frame,
    encode Digest.spelled ⟨[65], "", 64⟩ ⟨some, some⟩ () (fun _ => .ok ()) [1, 2] = .ok frame ∧
    decode Digest.spelled ⟨[65], "", 64⟩ ⟨some, some⟩ () (fun _ => .ok ()) frame = .ok [1, 2] ∧
    ∀ other, decode Digest.spelled ⟨[65], "", 64⟩ ⟨some, some⟩ () (fun _ => .ok ()) other =
      .ok [1, 2] → other = frame := by
  have hserde : Serde.RoundTrips (⟨some, some⟩ : Serde Bytes) := fun _ _ h => h.symm
  have hwritten : encode Digest.spelled ⟨[65], "", 64⟩ ⟨some, some⟩ () (fun _ => .ok ()) [1, 2] =
      .ok (around Digest.spelled ⟨[65], "", 64⟩ [1, 2]) := by
    decide
  exact ⟨_, hwritten, (frame_unique _ _ _ _ _ hserde).1 _ _ hwritten⟩

end Frame

end Amiss
