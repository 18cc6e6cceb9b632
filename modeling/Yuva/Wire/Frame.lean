/-
# `Yuva.Wire.Frame` — the inference-transport frame

`tb-encode/src/inferwire.rs`: the frame, its canonical encoding and the
fail-closed decoder.  The encoding is written as the concatenation of its fields,
in the order and with the widths of the source's layout comment, where the
source stores them at their offsets.

    magic 2 | ver 1 | kind 1 | flags 1 (zero) | req_id 8 | challenge 16 | nonce 16
    | peer_id 1 | tag 16 | payload_len 4 | payload

`decode_encode` is the round trip, with any bytes behind the frame, and
`decode_of_valid` and `valid_of_decode` say which buffers decode.
-/
import Yuva.Lib.Bytes

namespace Yuva.Wire

open Yuva.Bytes

def INFER_MAGIC : Nat := 0x5958
def INFER_VER : UInt8 := 1
def INFER_PAYLOAD_CAP : Nat := 1024
def INFER_HEADER_LEN : Nat := 66

def OFF_MAGIC : Nat := 0
def OFF_VER : Nat := 2
def OFF_KIND : Nat := 3
def OFF_FLAGS : Nat := 4
def OFF_REQ_ID : Nat := 5
def OFF_CHALLENGE : Nat := 13
def OFF_NONCE : Nat := 29
def OFF_PEER : Nat := 45
def OFF_TAG : Nat := 46
def OFF_PAYLOAD_LEN : Nat := 62
def OFF_PAYLOAD : Nat := 66

/-- A field of sixteen bytes: the challenge, the nonce or the tag. -/
abbrev Bytes16 := Block 16

structure InferFrame where
  kind : UInt8
  reqId : BitVec 64
  challenge : Bytes16
  nonce : Bytes16
  peerId : UInt8
  tag : Bytes16
  payload : List UInt8
deriving DecidableEq

/-- The closed set of frame kinds: the two echoes, the error, and the three
inference kinds. -/
def kindKnown (k : UInt8) : Bool :=
  k == 1 || k == 2 || k == 3 || k == 4 || k == 5 || k == 6

def frameIsEncodable (payloadLen : Nat) : Bool := decide (payloadLen ≤ INFER_PAYLOAD_CAP)

def canonLen (payloadLen : Nat) : Nat := INFER_HEADER_LEN + payloadLen

def wireLen (f : InferFrame) : Nat := canonLen f.payload.length

/-! ## Encoding -/

/-- The fields `canon` stores, in the order of their offsets. -/
def fields (f : InferFrame) : List (List UInt8) :=
  [le 2 INFER_MAGIC, [INFER_VER], [f.kind], [0], le 8 f.reqId.toNat, f.challenge.val, f.nonce.val,
    [f.peerId], f.tag.val, le 4 f.payload.length, f.payload]

def encode (f : InferFrame) : List UInt8 := (fields f).flatten

theorem length_encode (f : InferFrame) : (encode f).length = canonLen f.payload.length := by
  simp only [encode, fields, canonLen, INFER_HEADER_LEN, List.flatten_cons, List.flatten_nil,
    List.length_append, length_le, List.length_cons, List.length_nil, f.challenge.property,
    f.nonce.property, f.tag.property]
  omega

/-- Whether `canon` has an encoding for a frame. -/
def Encodable (f : InferFrame) : Prop :=
  f.payload.length ≤ INFER_PAYLOAD_CAP ∧ kindKnown f.kind = true

/-- The number of bytes written, zero when nothing is, and the buffer after. -/
def canon (f : InferFrame) (out : List UInt8) : Nat × List UInt8 :=
  if !frameIsEncodable f.payload.length || !kindKnown f.kind then (0, out)
  else if out.length < canonLen f.payload.length then (0, out)
  else (canonLen f.payload.length, encode f ++ out.drop (canonLen f.payload.length))

/-- `w` is what `canon` writes for `f` into some buffer. -/
def CanonEncoded (f : InferFrame) (w : List UInt8) : Prop :=
  ∃ out : List UInt8, (canon f out).1 ≠ 0 ∧ w = (canon f out).2.take (canon f out).1

theorem canonEncoded_cases {f : InferFrame} {w : List UInt8} (h : CanonEncoded f w) :
    Encodable f ∧ w = encode f := by
  obtain ⟨out, hne, rfl⟩ := h
  unfold canon at hne ⊢
  split at hne
  · exact absurd rfl hne
  · rename_i hok
    split at hne
    · exact absurd rfl hne
    · rename_i hlen
      simp only [Bool.or_eq_true, Bool.not_eq_true', frameIsEncodable, decide_eq_false_iff_not,
        not_or, not_not, Bool.not_eq_false] at hok
      refine ⟨hok, ?_⟩
      rw [if_neg (by simpa only [frameIsEncodable, Bool.or_eq_true, Bool.not_eq_true',
        decide_eq_false_iff_not, not_or, not_not, Bool.not_eq_false] using hok), if_neg hlen,
        ← length_encode, List.take_left]

/-! ## Decoding -/

/-- The sixteen bytes at an offset. -/
def bytes16 (buf : List UInt8) (off : Nat) (h : off + 16 ≤ buf.length) : Bytes16 :=
  ⟨slice buf off 16, length_slice h⟩

/-- The declared payload length. -/
def payloadLen (buf : List UInt8) : Nat := unle (slice buf OFF_PAYLOAD_LEN 4)

/-- The fields at their offsets, the header being there. -/
def unpack (buf : List UInt8) (h : INFER_HEADER_LEN ≤ buf.length) : InferFrame where
  kind := buf.getD OFF_KIND 0
  reqId := BitVec.ofNat 64 (unle (slice buf OFF_REQ_ID 8))
  challenge := bytes16 buf OFF_CHALLENGE (Nat.le_trans (by decide) h)
  nonce := bytes16 buf OFF_NONCE (Nat.le_trans (by decide) h)
  peerId := buf.getD OFF_PEER 0
  tag := bytes16 buf OFF_TAG (Nat.le_trans (by decide) h)
  payload := slice buf OFF_PAYLOAD (payloadLen buf)

/-- The frame a buffer begins with; bytes behind it are ignored. -/
def decode (buf : List UInt8) : Option InferFrame :=
  if h : INFER_HEADER_LEN ≤ buf.length then
    if unle (slice buf OFF_MAGIC 2) ≠ INFER_MAGIC then none
    else if buf.getD OFF_VER 0 ≠ INFER_VER then none
    else if buf.getD OFF_FLAGS 0 ≠ 0 then none
    else if kindKnown (buf.getD OFF_KIND 0) = false then none
    else if frameIsEncodable (payloadLen buf) = false then none
    else if buf.length < INFER_HEADER_LEN + payloadLen buf then none
    else some (unpack buf h)
  else none

/-- What `decode` asks of a header: all 66 bytes, and every fixed field as it must be. -/
structure ValidHeader (buf : List UInt8) : Prop where
  length : INFER_HEADER_LEN ≤ buf.length
  magic : unle (slice buf OFF_MAGIC 2) = INFER_MAGIC
  ver : buf.getD OFF_VER 0 = INFER_VER
  flags : buf.getD OFF_FLAGS 0 = 0
  kind : kindKnown (buf.getD OFF_KIND 0) = true
  encodable : frameIsEncodable (payloadLen buf) = true

theorem decode_of_valid {buf : List UInt8} (h : ValidHeader buf)
    (hfull : INFER_HEADER_LEN + payloadLen buf ≤ buf.length) :
    decode buf = some (unpack buf h.length) := by
  rw [decode, dif_pos h.length, if_neg (not_not.mpr h.magic), if_neg (not_not.mpr h.ver),
    if_neg (not_not.mpr h.flags), if_neg (by rw [h.kind]; exact Bool.noConfusion),
    if_neg (by rw [h.encodable]; exact Bool.noConfusion), if_neg (Nat.not_lt.mpr hfull)]

theorem valid_of_decode {buf : List UInt8} {f : InferFrame} (h : decode buf = some f) :
    ValidHeader buf ∧ INFER_HEADER_LEN + payloadLen buf ≤ buf.length := by
  simp only [decode, Option.dite_none_right_eq_some, Option.ite_none_left_eq_some, not_not, ne_eq,
    Bool.not_eq_false, Nat.not_lt] at h
  obtain ⟨hlen, hmagic, hver, hflags, hkind, henc, hfull, -⟩ := h
  exact ⟨⟨hlen, hmagic, hver, hflags, hkind, henc⟩, hfull⟩

/-! ## The round trip -/

theorem slice_encode {f : InferFrame} (s : List UInt8) {i off n : Nat} {x : List UInt8}
    (hx : (fields f)[i]? = some x) (hoff : ((fields f).take i).flatten.length = off)
    (hn : x.length = n) : slice (encode f ++ s) off n = x :=
  slice_field s hx hoff hn

theorem payloadLen_encode {f : InferFrame} (s : List UInt8) (h : Encodable f) :
    payloadLen (encode f ++ s) = f.payload.length := by
  have hoff : ((fields f).take 9).flatten.length = OFF_PAYLOAD_LEN := by
    simp [fields, OFF_PAYLOAD_LEN, f.challenge.property, f.nonce.property, f.tag.property]
  rw [payloadLen, slice_encode s (i := 9) rfl hoff (length_le 4 _), unle_le]
  have hcap := h.1
  exact Nat.mod_eq_of_lt (by simp only [INFER_PAYLOAD_CAP] at hcap; omega)

theorem kind_encode {f : InferFrame} (s : List UInt8) : (encode f ++ s).getD OFF_KIND 0 = f.kind :=
  getD_of_slice (slice_encode s (i := 2) rfl rfl rfl)

theorem validHeader_encode {f : InferFrame} (s : List UInt8) (h : Encodable f) :
    ValidHeader (encode f ++ s) where
  length := by
    rw [List.length_append, length_encode, canonLen]
    omega
  magic := by
    have hm : slice (encode f ++ s) OFF_MAGIC 2 = le 2 INFER_MAGIC :=
      slice_encode s (i := 0) rfl rfl rfl
    rw [hm]
    rfl
  ver := getD_of_slice (slice_encode s (i := 1) rfl rfl rfl)
  flags := getD_of_slice (slice_encode s (i := 3) rfl rfl rfl)
  kind := by
    rw [kind_encode s]
    exact h.2
  encodable := by
    rw [payloadLen_encode s h]
    exact decide_eq_true h.1

/-- What `canon` wrote decodes to the frame, whatever stands behind it. -/
theorem decode_encode {f : InferFrame} (s : List UInt8) (h : Encodable f) :
    decode (encode f ++ s) = some f := by
  have hlen := payloadLen_encode s h
  have hfull : INFER_HEADER_LEN + payloadLen (encode f ++ s) ≤ (encode f ++ s).length := by
    rw [hlen, List.length_append, length_encode, canonLen]
    omega
  rw [decode_of_valid (validHeader_encode s h) hfull]
  have hid : slice (encode f ++ s) OFF_REQ_ID 8 = le 8 f.reqId.toNat :=
    slice_encode s (i := 4) rfl rfl (length_le 8 _)
  obtain ⟨kind, reqId, challenge, nonce, peerId, tag, payload⟩ := f
  simp only [Option.some.injEq, unpack, InferFrame.mk.injEq, bytes16, hlen]
  refine ⟨kind_encode s, ?_, Subtype.ext ?_, Subtype.ext ?_, ?_, Subtype.ext ?_, ?_⟩
  · rw [hid]
    exact ofNat_unle_le rfl reqId
  · exact slice_encode s (i := 5) rfl rfl challenge.property
  · exact slice_encode s (i := 6) rfl (by simp [fields, OFF_NONCE, challenge.property]) nonce.property
  · exact getD_of_slice (slice_encode s (i := 7) rfl
      (by simp [fields, OFF_PEER, challenge.property, nonce.property]) rfl)
  · exact slice_encode s (i := 8) rfl
      (by simp [fields, OFF_TAG, challenge.property, nonce.property]) tag.property
  · exact slice_encode s (i := 10) rfl
      (by simp [fields, OFF_PAYLOAD, challenge.property, nonce.property, tag.property]) rfl

end Yuva.Wire
