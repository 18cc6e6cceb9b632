/-
# `Yuva.Peer.Replies` — the answers as frames

What each peer writes for a request, as the frames it consists of: the bytes of an answer
are the encodings of its frames, and behind an echo the key.  No answer panics, and the
inference answers carry the request id and the challenge they were made for.
-/
import Yuva.Peer.Serve

namespace Yuva.Peer

open Yuva.Bytes Yuva.Wire Yuva.Hash Yuva.Kernel

theorem wireOf_of_encodable {f : InferFrame} (h : Encodable f) : wireOf f = some (encode f) := by
  rw [wireOf, canon_wireLen h]
  simp [wireLen, length_encode]

/-! ## The frames of an answer -/

section Frames

variable (c : Custody)

/-- The payload of the one error the peers send. -/
def noKeyPayload : List UInt8 := le 2 Errcode.NO_KEY.toNat ++ [0] ++ [0]

def noKeyFrame (lane : UInt8) (challenge : Bytes16) (reqId : BitVec 64) : InferFrame :=
  tagged c lane challenge reqId Kind.ERR .empty noKeyPayload noKeyPayload

def pendingFrame (respPeer : UInt8) (challenge : Bytes16) (reqId : BitVec 64) : InferFrame :=
  tagged c respPeer challenge reqId Kind.INFER_PENDING .empty [] []

/-- The mock response to a body. -/
def mockResp (body : List UInt8) : List UInt8 :=
  (mockStream (uhash body) 0 (INFER_MOCK_RESP_LEN / 32)).take INFER_MOCK_RESP_LEN

def respSession (respPeer : UInt8) (challenge : Bytes16) (reqId : BitVec 64) : Session :=
  ⟨c.key, respPeer, c.nonce, challenge, reqId⟩

def respFrames (respPeer : UInt8) (challenge : Bytes16) (reqId : BitVec 64) (body : List UInt8) :
    List InferFrame :=
  pendingFrame c respPeer challenge reqId ::
    (chunks (mockResp body)).map (respSession c respPeer challenge reqId).frame

/-- The frames for a completed body; `respPeer` is the identity a response is sent under. -/
def bodyFrames (lane respPeer : UInt8) (challenge : Bytes16) (reqId : BitVec 64) (body : List UInt8) :
    List InferFrame :=
  if body = INFER_NOKEY_PROBE then [noKeyFrame c lane challenge reqId]
  else respFrames c respPeer challenge reqId body

end Frames

/-! ## The bytes are theirs -/

variable {c : Custody}

theorem length_mockStream (seed : Bytes32) (k n : Nat) : (mockStream seed k n).length = 32 * n := by
  induction n generalizing k with
  | zero => rfl
  | succ n ih =>
      rw [mockStream, List.length_append, ih, (uhash _).property]
      omega

theorem length_mockResp (body : List UInt8) : (mockResp body).length = INFER_MOCK_RESP_LEN := by
  rw [mockResp, List.length_take, length_mockStream]
  rfl

theorem sendable_mockResp (body : List UInt8) : Sendable (mockResp body) :=
  ⟨by rw [length_mockResp]; decide, by rw [length_mockResp]; decide⟩

theorem mockInfer_of_sendable {body : List UInt8} (h : Sendable body) :
    mockInfer body (List.replicate INFER_MOCK_RESP_LEN 0) = (INFER_MOCK_RESP_LEN, mockResp body) := by
  have hpos := h.pos
  have hle := h.le
  have hok : ¬(body.isEmpty ∨ body.length > INFER_BODY_CAP ∨
      (List.replicate INFER_MOCK_RESP_LEN (0 : UInt8)).length < INFER_MOCK_RESP_LEN) := by
    rw [List.length_replicate, List.isEmpty_iff]
    rintro (hnil | hlong | hroom)
    · rw [hnil] at hpos
      exact absurd hpos (by decide)
    · omega
    · omega
  simp only [mockInfer, if_neg hok, List.drop_replicate, Nat.sub_self, List.replicate_zero, List.append_nil]
  rfl

theorem encodable_noKeyFrame (lane : UInt8) (challenge : Bytes16) (reqId : BitVec 64) :
    Encodable (noKeyFrame c lane challenge reqId) :=
  ⟨show noKeyPayload.length ≤ INFER_PAYLOAD_CAP by decide, rfl⟩

theorem encodable_pendingFrame (respPeer : UInt8) (challenge : Bytes16) (reqId : BitVec 64) :
    Encodable (pendingFrame c respPeer challenge reqId) := ⟨Nat.zero_le _, rfl⟩

theorem encodable_echoResp {req : InferFrame} (lane : UInt8) (h : req.payload.length ≤ INFER_PAYLOAD_CAP) :
    Encodable (echoResp c lane req) := ⟨h, rfl⟩

theorem serveEcho_eq {req : InferFrame} (lane : UInt8) (h : req.payload.length ≤ INFER_PAYLOAD_CAP) :
    serveEcho c lane req = some (encode (echoResp c lane req) ++ c.key.val) := by
  rw [serveEcho, wireOf_of_encodable (encodable_echoResp lane h)]
  rfl

theorem serveNoKey_eq (lane : UInt8) (challenge : Bytes16) (reqId : BitVec 64) :
    serveNoKey c lane challenge reqId = some (encode (noKeyFrame c lane challenge reqId)) := by
  have herr : errCanon Errcode.NO_KEY (List.replicate INFER_ERR_PAYLOAD_LEN 0) =
      (INFER_ERR_PAYLOAD_LEN, noKeyPayload) := by decide
  rw [serveNoKey, herr]
  exact wireOf_of_encodable (encodable_noKeyFrame lane challenge reqId)

theorem encodable_frame {e : Session} {resp : List UInt8} (h : Sendable resp) {p : Push} (hp : p ∈ chunks resp) :
    Encodable (e.frame p) := frame_encodable e (h.bounded hp) (h.inOrder.chunk p hp).2

/-- From the `k`-th chunk on, the loop writes the frames of the chunks that are left. -/
theorem respLoop_eq {respPeer : UInt8} {challenge : Bytes16} {reqId : BitVec 64} {resp : List UInt8}
    (h : Sendable resp) (n k : Nat) (hk : k + n = inferChunkCount resp.length) :
    respLoop c respPeer challenge reqId resp (min (k * INFER_CHUNK_CAP) resp.length) (.ofNat 16 k) =
      some ((List.range' k n).flatMap fun i =>
        encode ((respSession c respPeer challenge reqId).frame (chunkAt resp i))) := by
  induction n generalizing k with
  | zero =>
      obtain ⟨m, hcount, -, hle⟩ := h.count
      have hmin : min (k * INFER_CHUNK_CAP) resp.length = resp.length := by
        rw [show k = m + 1 by omega]
        exact Nat.min_eq_right hle
      rw [hmin, respLoop, if_neg (Nat.lt_irrefl _), List.range'_zero, List.flatMap_nil]
  | succ n ih =>
      obtain ⟨m, hcount, hlt, -⟩ := h.count
      have hkm : k * INFER_CHUNK_CAP < resp.length :=
        Nat.lt_of_le_of_lt (Nat.mul_le_mul_right _ (by omega)) hlt
      have hmem : chunkAt resp k ∈ chunks resp :=
        List.mem_map.mpr ⟨k, List.mem_range.mpr (by omega), rfl⟩
      have hb := h.bounded hmem
      have hsub : subhdrCanon (chunkAt resp k).1 (List.replicate INFER_SUBHDR_LEN 0) =
          (INFER_SUBHDR_LEN, (chunkAt resp k).1.bytes) := by
        rw [subhdrCanon, if_neg (by rw [List.length_replicate]; exact Nat.lt_irrefl _),
          if_neg (not_or.mpr ⟨hb.1, Nat.not_lt.mpr hb.2⟩)]
        simp
      have hwire : taggedFrame c respPeer challenge reqId Kind.INFER_RESP (chunkAt resp k).1
          (chunkAt resp k).2 ((chunkAt resp k).1.bytes ++ (chunkAt resp k).2) =
          some (encode ((respSession c respPeer challenge reqId).frame (chunkAt resp k))) := by
        rw [← wireOf_of_encodable (encodable_frame h hmem), taggedFrame]
        congr 1
        rw [Session.frame, ← payload_frame (respSession c respPeer challenge reqId) hb]
        rfl
      have hnext := ih (k + 1) (by omega)
      have hseq : BitVec.ofNat 16 (k + 1) = BitVec.ofNat 16 k + 1 := BitVec.ofNat_add k 1
      rw [Nat.succ_mul, hseq] at hnext
      rw [Nat.min_eq_left (Nat.le_of_lt hkm), respLoop, if_pos hkm]
      show (if (subhdrCanon (chunkAt resp k).1 (List.replicate INFER_SUBHDR_LEN 0)).1 ≠ INFER_SUBHDR_LEN then none
        else
          (taggedFrame c respPeer challenge reqId Kind.INFER_RESP (chunkAt resp k).1 (chunkAt resp k).2
            ((subhdrCanon (chunkAt resp k).1 (List.replicate INFER_SUBHDR_LEN 0)).2 ++ (chunkAt resp k).2)).bind
          fun wire =>
            (respLoop c respPeer challenge reqId resp (min (k * INFER_CHUNK_CAP + INFER_CHUNK_CAP) resp.length)
              (BitVec.ofNat 16 k + 1)).bind fun rest => some (wire ++ rest)) = _
      rw [hsub]
      simp only [ne_eq, not_true_eq_false, if_false, hwire, hnext, Option.bind_some, List.range'_succ,
        List.flatMap_cons]

theorem serveResp_eq {respPeer : UInt8} {challenge : Bytes16} {reqId : BitVec 64} {body : List UInt8}
    (h : Sendable body) : serveResp c respPeer challenge reqId body =
      some ((respFrames c respPeer challenge reqId body).flatMap encode) := by
  have hresp := sendable_mockResp body
  have hloop := @respLoop_eq c respPeer challenge reqId _ hresp
    (inferChunkCount (mockResp body).length) 0 (Nat.zero_add _)
  have htake : (mockResp body).take INFER_MOCK_RESP_LEN = mockResp body := by
    rw [← length_mockResp body, List.take_length]
  have hpend : taggedFrame c respPeer challenge reqId Kind.INFER_PENDING .empty [] [] =
      some (encode (pendingFrame c respPeer challenge reqId)) :=
    wireOf_of_encodable (encodable_pendingFrame respPeer challenge reqId)
  rw [Nat.zero_mul, Nat.zero_min, List.range'_eq_map_range] at hloop
  change respLoop c respPeer challenge reqId (mockResp body) 0 0 = _ at hloop
  simp only [serveResp, mockInfer_of_sendable h, htake, hpend, hloop]
  rw [if_neg (by decide), respFrames, List.flatMap_cons, chunks]
  simp [List.flatMap_map]

theorem serveWithLocal_eq {lane : UInt8} {challenge : Bytes16} {reqId : BitVec 64} {body : List UInt8}
    (h : Sendable body) : serveWithLocal c lane challenge reqId body =
      some ((bodyFrames c lane (if isLocal body then INFER_DAEMON else lane) challenge reqId body).flatMap
        encode) := by
  rw [serveWithLocal, bodyFrames]
  split
  · rw [serveNoKey_eq]
    simp
  · exact serveResp_eq h

theorem serveMock_eq {challenge : Bytes16} {reqId : BitVec 64} {body : List UInt8} (h : Sendable body) :
    ChardevPeer.serveMock c challenge reqId body =
      some ((bodyFrames c QEMU_CHARDEV_HARNESS QEMU_CHARDEV_HARNESS challenge reqId body).flatMap encode) := by
  rw [ChardevPeer.serveMock, bodyFrames]
  split
  · rw [serveNoKey_eq]
    simp
  · exact serveResp_eq h

end Yuva.Peer
