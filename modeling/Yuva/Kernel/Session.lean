/-
# `Yuva.Kernel.Session` — inference backends and the sessions bound to them

`tb-hal/src/infer.rs`, and `mock_infer` of `tb-encode/src/inferwire.rs`.  A backend is
a trait object, here a record of its two methods; a session pins a backend to a
logical model.  The one backend of this build is the deterministic mock.
-/
import Yuva.Hash.Khash
import Yuva.Wire.Assembler

namespace Yuva.Kernel

open Yuva.Bytes Yuva.Hash

inductive StopReason where
  | endTurn | maxTokens | stopSequence | toolUse | refusal | pause
  deriving DecidableEq, Repr

inductive InferError where
  | noBackend | unavailable | contextExceeded | refused | cancelled
  deriving DecidableEq, Repr

structure InferResponse where
  token : BitVec 64
  stopReason : StopReason
  deriving DecidableEq, Repr

/-- What a byte invocation answers, and the caller's buffer after it. -/
abbrev BytesReply := Except InferError (Nat × StopReason) × List UInt8

/-- The two methods of a backend, each at the logical model. -/
structure InferBackend where
  infer : BitVec 32 → BitVec 64 → InferResponse
  inferBytes : BitVec 32 → List UInt8 → List UInt8 → BytesReply

structure ModelSession where
  backend : InferBackend
  model : BitVec 32

def ModelSession.invoke (s : ModelSession) (prompt : BitVec 64) : InferResponse :=
  s.backend.infer s.model prompt

def ModelSession.invokeBytes (s : ModelSession) (prompt respOut : List UInt8) : BytesReply :=
  s.backend.inferBytes s.model prompt respOut

/-! ## The mock -/

def INFER_MOCK_RESP_LEN : Nat := 1280

def MOCK_LABEL : List UInt8 := "YUVA-M31-MOCK-V1".toUTF8.toList

/-- The keystream from block `k` on, `blocks` of them. -/
def mockStream (seed : Bytes32) (k : Nat) : Nat → List UInt8
  | 0 => []
  | blocks + 1 => (uhash (MOCK_LABEL ++ seed.val ++ le 4 k)).val ++ mockStream seed (k + 1) blocks

/-- The response length, zero when refused; the buffer takes the keystream at its front. -/
def mockInfer (prompt out : List UInt8) : Nat × List UInt8 :=
  if prompt.isEmpty ∨ prompt.length > Wire.INFER_BODY_CAP ∨ out.length < INFER_MOCK_RESP_LEN then (0, out)
  else
    let stream := (mockStream (uhash prompt) 0 (INFER_MOCK_RESP_LEN / 32)).take INFER_MOCK_RESP_LEN
    (INFER_MOCK_RESP_LEN, stream ++ out.drop INFER_MOCK_RESP_LEN)

def mockBackend : InferBackend where
  infer _ prompt := ⟨prompt ^^^ 0xA110C0DE, .endTurn⟩
  inferBytes _ prompt respOut :=
    if prompt.isEmpty ∨ prompt.length > Wire.INFER_BODY_CAP then (.error .contextExceeded, respOut)
    else if respOut.length < INFER_MOCK_RESP_LEN then (.error .cancelled, respOut)
    else
      let (n, respOut) := mockInfer prompt respOut
      if n = 0 then (.error .unavailable, respOut) else (.ok (n, .endTurn), respOut)

end Yuva.Kernel
