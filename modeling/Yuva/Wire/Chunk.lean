/-
# `Yuva.Wire.Chunk` — what the payload of an inference frame holds

The layered payload of `tb-encode/src/inferwire.rs`, by kind of frame:

    INFER_REQ, INFER_RESP    a sub-header of 24 bytes, then a chunk of the body
    INFER_PENDING            nothing
    ERR                      a code of a closed set, and the one retry flag it allows

    seq 2 | sflags 1 (bit 0: more) | rsv 1 (zero) | total_len 4 | body_digest 16 | chunk

`inferPayloadParts` takes a payload apart, and `payload_of_parts` puts it together
again: no two payloads of a kind have the same parts.
-/
import Yuva.Wire.Assembler

namespace Yuva.Wire

open Yuva.Bytes

/-! ## Kinds -/

namespace Kind

def ECHO_REQ : UInt8 := 1
def ECHO_RESP : UInt8 := 2
def ERR : UInt8 := 3
def INFER_REQ : UInt8 := 4
def INFER_RESP : UInt8 := 5
def INFER_PENDING : UInt8 := 6

end Kind

/-! ## The sub-header -/

def SFLAG_MORE : UInt8 := 0x01

deriving instance DecidableEq for SubHdr

namespace SubHdr

/-- What stands in for a sub-header where a kind has none. -/
def empty : SubHdr := ⟨0, false, 0, zeros 16⟩

def sflags (sub : SubHdr) : UInt8 := if sub.more then 1 else 0

/-- The fields `subhdr_canon` stores, in the order of their offsets. -/
def fields (sub : SubHdr) : List (List UInt8) :=
  [le 2 sub.seq.toNat, [sub.sflags], [0], le 4 sub.totalLen.toNat, sub.bodyDigest.val]

def bytes (sub : SubHdr) : List UInt8 := sub.fields.flatten

/-- The declared length is that of a body. -/
def Bounded (sub : SubHdr) : Prop := sub.totalLen ≠ 0 ∧ sub.totalLen.toNat ≤ INFER_BODY_CAP

instance (sub : SubHdr) : Decidable sub.Bounded := inferInstanceAs (Decidable (_ ∧ _))

theorem length_bytes (sub : SubHdr) : sub.bytes.length = INFER_SUBHDR_LEN := by
  simp [bytes, fields, sub.bodyDigest.property, INFER_SUBHDR_LEN]

end SubHdr

/-- The number of bytes written, zero when nothing is, and the buffer after. -/
def subhdrCanon (sub : SubHdr) (out : List UInt8) : Nat × List UInt8 :=
  if out.length < INFER_SUBHDR_LEN then (0, out)
  else if sub.totalLen = 0 ∨ INFER_BODY_CAP < sub.totalLen.toNat then (0, out)
  else (INFER_SUBHDR_LEN, sub.bytes ++ out.drop INFER_SUBHDR_LEN)

def subhdrDecode (buf : List UInt8) : Option SubHdr :=
  if h : INFER_SUBHDR_LEN ≤ buf.length then
    let sflags := buf.getD 2 0
    let totalLen := BitVec.ofNat 32 (unle (slice buf 4 4))
    if sflags &&& ~~~SFLAG_MORE ≠ 0 then none
    else if buf.getD 3 0 ≠ 0 then none
    else if totalLen = 0 ∨ INFER_BODY_CAP < totalLen.toNat then none
    else some ⟨BitVec.ofNat 16 (unle (slice buf 0 2)), decide (sflags &&& SFLAG_MORE ≠ 0), totalLen,
      bytes16 buf 8 h⟩
  else none

theorem sflags_reserved (sub : SubHdr) : sub.sflags &&& ~~~SFLAG_MORE = 0 := by
  rw [SubHdr.sflags]
  split <;> decide

theorem sflags_more (sub : SubHdr) : decide (sub.sflags &&& SFLAG_MORE ≠ 0) = sub.more := by
  rw [SubHdr.sflags]
  cases sub.more <;> decide

/-- What `subhdr_canon` wrote decodes to the sub-header, whatever stands behind it. -/
theorem subhdrDecode_bytes {sub : SubHdr} (h : sub.Bounded) (s : List UInt8) :
    subhdrDecode (sub.bytes ++ s) = some sub := by
  have hlen : INFER_SUBHDR_LEN ≤ (sub.bytes ++ s).length := by
    rw [List.length_append, sub.length_bytes]
    exact Nat.le_add_right _ _
  have hseq : slice (sub.bytes ++ s) 0 2 = le 2 sub.seq.toNat :=
    slice_field s (i := 0) rfl rfl (length_le 2 _)
  have hsf : (sub.bytes ++ s).getD 2 0 = sub.sflags :=
    getD_of_slice (slice_field s (i := 1) (f := [sub.sflags]) rfl rfl rfl)
  have hrsv : (sub.bytes ++ s).getD 3 0 = 0 :=
    getD_of_slice (slice_field s (i := 2) (f := [0]) rfl rfl rfl)
  have htot : slice (sub.bytes ++ s) 4 4 = le 4 sub.totalLen.toNat :=
    slice_field s (i := 3) rfl rfl (length_le 4 _)
  have hdig : slice (sub.bytes ++ s) 8 16 = sub.bodyDigest.val :=
    slice_field s (i := 4) rfl rfl sub.bodyDigest.property
  rw [subhdrDecode, dif_pos hlen]
  dsimp only
  rw [hsf, hrsv, htot, hseq, ofNat_unle_le rfl, ofNat_unle_le rfl, if_neg (not_not.mpr (sflags_reserved sub)),
    if_neg (not_not.mpr rfl), if_neg (not_or.mpr ⟨h.1, Nat.not_lt.mpr h.2⟩), sflags_more]
  exact congrArg some (congrArg (SubHdr.mk sub.seq sub.more sub.totalLen) (Subtype.ext hdig))

theorem sflags_of_reserved {x : UInt8} (h : x &&& ~~~SFLAG_MORE = 0) :
    (if decide (x &&& SFLAG_MORE ≠ 0) then 1 else 0 : UInt8) = x := by
  revert h
  rcases x with ⟨⟨x⟩⟩
  revert x
  decide +kernel

/-- A sub-header is all its bytes say. -/
theorem bytes_of_subhdrDecode {buf : List UInt8} {sub : SubHdr} (h : subhdrDecode buf = some sub) :
    sub.Bounded ∧ sub.bytes ++ buf.drop INFER_SUBHDR_LEN = buf := by
  simp only [subhdrDecode, Option.dite_none_right_eq_some, Option.ite_none_left_eq_some, not_not, ne_eq,
    not_or, Nat.not_lt, Option.some.injEq] at h
  obtain ⟨hlen, hres, hrsv, hbound, rfl⟩ := h
  refine ⟨hbound, ?_⟩
  have hle : ∀ off n, off + n ≤ INFER_SUBHDR_LEN → (slice buf off n).length = n :=
    fun off n hn => length_slice (Nat.le_trans hn hlen)
  have hseq : le 2 (BitVec.ofNat 16 (unle (slice buf 0 2))).toNat = slice buf 0 2 := by
    have hback : le (slice buf 0 2).length (BitVec.ofNat 16 (unle (slice buf 0 2))).toNat = slice buf 0 2 :=
      le_ofNat_unle (by rw [hle 0 2 (by decide)]; rfl)
    rwa [hle 0 2 (by decide)] at hback
  have htot : le 4 (BitVec.ofNat 32 (unle (slice buf 4 4))).toNat = slice buf 4 4 := by
    have hback : le (slice buf 4 4).length (BitVec.ofNat 32 (unle (slice buf 4 4))).toNat = slice buf 4 4 :=
      le_ofNat_unle (by rw [hle 4 4 (by decide)]; rfl)
    rwa [hle 4 4 (by decide)] at hback
  have hsf : [SubHdr.sflags ⟨BitVec.ofNat 16 (unle (slice buf 0 2)),
      decide (buf.getD 2 0 &&& SFLAG_MORE ≠ 0), BitVec.ofNat 32 (unle (slice buf 4 4)),
      bytes16 buf 8 hlen⟩] = slice buf 2 1 := by
    rw [SubHdr.sflags, sflags_of_reserved hres, slice_one (Nat.lt_of_lt_of_le (by decide) hlen) 0]
  have hzero : [0] = slice buf 3 1 := by
    rw [slice_one (Nat.lt_of_lt_of_le (by decide) hlen) 0, hrsv]
  rw [SubHdr.bytes, SubHdr.fields, hsf, hzero]
  dsimp only
  rw [hseq, htot, List.flatten_cons, List.flatten_cons, List.flatten_cons, List.flatten_cons,
    List.flatten_cons, List.flatten_nil, List.append_nil]
  show (slice buf 0 2 ++ (slice buf 2 1 ++ (slice buf 3 1 ++ (slice buf 4 4 ++ slice buf 8 16)))) ++ _ = buf
  rw [slice_append_slice buf 4 4 16, slice_append_slice buf 3 1 20, slice_append_slice buf 2 1 21,
    slice_append_slice buf 0 2 22, slice, List.drop_zero]
  exact List.take_append_drop INFER_SUBHDR_LEN buf

/-! ## The error payload -/

def INFER_ERR_PAYLOAD_LEN : Nat := 4

namespace Errcode

def NO_BACKEND : BitVec 16 := 1
def NO_KEY : BitVec 16 := 2
def TOO_LARGE : BitVec 16 := 3
def RATE_LIMITED : BitVec 16 := 4
def OVERLOADED : BitVec 16 := 5
def API_ERROR : BitVec 16 := 6
def AUTH : BitVec 16 := 7
def BAD_REQUEST : BitVec 16 := 8
def REFUSAL : BitVec 16 := 9
def TIMEOUT : BitVec 16 := 10

end Errcode

def errCodeKnown (code : BitVec 16) : Bool :=
  code == Errcode.NO_BACKEND || code == Errcode.NO_KEY || code == Errcode.TOO_LARGE ||
    code == Errcode.RATE_LIMITED || code == Errcode.OVERLOADED || code == Errcode.API_ERROR ||
    code == Errcode.AUTH || code == Errcode.BAD_REQUEST || code == Errcode.REFUSAL ||
    code == Errcode.TIMEOUT

def errRetryable (code : BitVec 16) : Bool :=
  code == Errcode.RATE_LIMITED || code == Errcode.OVERLOADED || code == Errcode.API_ERROR ||
    code == Errcode.TIMEOUT

def errDecode (payload : List UInt8) : Option (BitVec 16 × Bool) :=
  if payload.length ≠ INFER_ERR_PAYLOAD_LEN then none
  else
    let code := BitVec.ofNat 16 (unle (slice payload 0 2))
    if !errCodeKnown code then none
    else if payload.getD 3 0 ≠ 0 then none
    else if payload.getD 2 0 ≠ (if errRetryable code then 1 else 0) then none
    else some (code, errRetryable code)

theorem length_of_errDecode {payload : List UInt8} {e : BitVec 16 × Bool} (h : errDecode payload = some e) :
    payload.length = INFER_ERR_PAYLOAD_LEN := by
  by_contra hne
  rw [errDecode, if_pos hne] at h
  cases h

/-! ## The parts of a payload -/

/-- The sub-header and the chunk; a kind that has no sub-header gets the empty one. -/
def inferPayloadParts (kind : UInt8) (payload : List UInt8) : Option (SubHdr × List UInt8) :=
  if kind = Kind.INFER_REQ ∨ kind = Kind.INFER_RESP then
    match subhdrDecode payload with
    | none => none
    | some sub =>
        let chunk := payload.drop INFER_SUBHDR_LEN
        if chunk.isEmpty then none else some (sub, chunk)
  else if kind = Kind.INFER_PENDING then
    if payload.isEmpty then some (SubHdr.empty, payload) else none
  else if kind = Kind.ERR then
    match errDecode payload with
    | none => none
    | some _ => some (SubHdr.empty, payload)
  else none

theorem parts_cases {kind : UInt8} {payload : List UInt8} {sub : SubHdr} {chunk : List UInt8}
    (h : inferPayloadParts kind payload = some (sub, chunk)) :
    ((kind = Kind.INFER_REQ ∨ kind = Kind.INFER_RESP) ∧ subhdrDecode payload = some sub ∧
      chunk = payload.drop INFER_SUBHDR_LEN ∧ chunk ≠ []) ∨
    (kind = Kind.INFER_PENDING ∧ payload = [] ∧ sub = SubHdr.empty ∧ chunk = payload) ∨
    (kind = Kind.ERR ∧ (∃ e, errDecode payload = some e) ∧ sub = SubHdr.empty ∧ chunk = payload) := by
  rw [inferPayloadParts] at h
  split at h
  · next hk =>
      split at h
      · cases h
      · next sub' hsub =>
          dsimp only at h
          split at h
          · cases h
          · next hne =>
              cases h
              exact .inl ⟨hk, hsub, rfl, fun hnil => hne (List.isEmpty_iff.mpr hnil)⟩
  · split at h
    · next hk =>
        split at h
        · next hnil => cases h; exact .inr (.inl ⟨hk, List.isEmpty_iff.mp hnil, rfl, rfl⟩)
        · cases h
    · split at h
      · next hk =>
          split at h
          · cases h
          · next e he => cases h; exact .inr (.inr ⟨hk, ⟨e, he⟩, rfl, rfl⟩)
      · cases h

/-- The bytes in front of the chunk. -/
def subBytes (kind : UInt8) (sub : SubHdr) : List UInt8 :=
  if kind = Kind.INFER_REQ ∨ kind = Kind.INFER_RESP then sub.bytes else []

/-- The parts of a payload make it up. -/
theorem payload_of_parts {kind : UInt8} {payload : List UInt8} {sub : SubHdr} {chunk : List UInt8}
    (h : inferPayloadParts kind payload = some (sub, chunk)) : subBytes kind sub ++ chunk = payload := by
  rcases parts_cases h with ⟨hk, hsub, rfl, -⟩ | ⟨rfl, -, -, rfl⟩ | ⟨rfl, -, -, rfl⟩
  · rw [subBytes, if_pos hk]
    exact (bytes_of_subhdrDecode hsub).2
  · rfl
  · rfl

/-- What a frame can carry has a chunk the MAC covers whole. -/
theorem chunk_le_of_parts {kind : UInt8} {payload : List UInt8} {sub : SubHdr} {chunk : List UInt8}
    (h : inferPayloadParts kind payload = some (sub, chunk)) (hcap : payload.length ≤ INFER_PAYLOAD_CAP) :
    chunk.length ≤ INFER_CHUNK_CAP := by
  rcases parts_cases h with ⟨-, -, rfl, -⟩ | ⟨-, hnil, -, rfl⟩ | ⟨-, ⟨e, he⟩, -, rfl⟩
  · rw [List.length_drop]
    exact Nat.sub_le_sub_right hcap INFER_SUBHDR_LEN
  · rw [hnil]
    exact Nat.zero_le _
  · rw [length_of_errDecode he]
    decide

/-- A sub-header and a chunk make the payload of a frame of either chunked kind. -/
theorem parts_of_chunk {kind : UInt8} (hk : kind = Kind.INFER_REQ ∨ kind = Kind.INFER_RESP) {sub : SubHdr}
    (hsub : sub.Bounded) {chunk : List UInt8} (hchunk : chunk ≠ []) :
    inferPayloadParts kind (sub.bytes ++ chunk) = some (sub, chunk) := by
  have hdrop : (sub.bytes ++ chunk).drop INFER_SUBHDR_LEN = chunk := by
    rw [← sub.length_bytes, List.drop_left]
  rw [inferPayloadParts, if_pos hk, subhdrDecode_bytes hsub]
  dsimp only
  rw [hdrop, if_neg (by rw [List.isEmpty_iff]; exact hchunk)]

end Yuva.Wire
