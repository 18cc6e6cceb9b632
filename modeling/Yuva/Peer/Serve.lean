/-
# `Yuva.Peer.Serve` — the three host peers

The peers that answer a guest's echo and inference requests, each a copy of one serve
loop in its own crate:

    InferHost      tb-vmm/src/infer_host.rs            in the monitor, peer 0x01
    Harness        tools/xport-harness/src/main.rs     beside the emulator, peer 0x02
    ChardevPeer    tools/xport-core/src/lib.rs         the daemon's share of it, peer 0x02

The bytes are re-framed, each frame is decoded, an echo is answered at once and the chunks of
an inference request are put together, one request at a time; a frame with another request id
starts over.  `none` is a panic: a frame that `canon` has no bytes for, or a failed `assert`.

Where the copies are alike they share a definition that takes the peer id.  They differ in
one place: a body that opens with the local sentinel is answered as peer 0x03 by the first
two, and like any other body by `ChardevPeer`.

The witness lines and the count of echoes are left out: they are not part of the stream.
-/
import Yuva.Wire.Transport
import Yuva.Kernel.Session

namespace Yuva.Peer

open Yuva.Bytes Yuva.Wire Yuva.Hash Yuva.Kernel

def TB_VMM_HOST : UInt8 := 0x01
def QEMU_CHARDEV_HARNESS : UInt8 := 0x02
def INFER_DAEMON : UInt8 := 0x03

def INFER_NOKEY_PROBE : List UInt8 := "YUVA-M31-NOKEY-PROBE-V1".toUTF8.toList
def INFER_LOCAL_PROBE : List UInt8 := "YUVA-M32-LOCAL-ORGAN-V1".toUTF8.toList

/-- The key and the nonce a peer is born with. -/
structure Custody where
  key : Bytes32
  nonce : Bytes16

/-! ## Frames -/

def wireOf (f : InferFrame) : Option (List UInt8) :=
  let (n, wire) := canon f (List.replicate (wireLen f) 0)
  if n = wire.length then some wire else none

/-- The number of bytes written, zero when nothing is, and the buffer after. -/
def errCanon (code : BitVec 16) (out : List UInt8) : Nat × List UInt8 :=
  if !errCodeKnown code || decide (out.length < INFER_ERR_PAYLOAD_LEN) then (0, out)
  else (INFER_ERR_PAYLOAD_LEN,
    le 2 code.toNat ++ [if errRetryable code then 1 else 0] ++ [0] ++ out.drop INFER_ERR_PAYLOAD_LEN)

section Answers

variable (c : Custody)

/-- A frame under the inference tag. -/
def tagged (peerId : UInt8) (challenge : Bytes16) (reqId : BitVec 64) (k : UInt8) (sub : SubHdr)
    (chunk payload : List UInt8) : InferFrame where
  kind := k
  reqId := reqId
  challenge := challenge
  nonce := c.nonce
  peerId := peerId
  tag := inferTag c.key peerId c.nonce challenge reqId k sub chunk
  payload := payload

def taggedFrame (peerId : UInt8) (challenge : Bytes16) (reqId : BitVec 64) (k : UInt8) (sub : SubHdr)
    (chunk payload : List UInt8) : Option (List UInt8) :=
  wireOf (tagged c peerId challenge reqId k sub chunk payload)

/-- The echo of a request: its body and challenge under the peer's nonce and tag. -/
def echoResp (lane : UInt8) (req : InferFrame) : InferFrame where
  kind := Kind.ECHO_RESP
  reqId := req.reqId
  challenge := req.challenge
  nonce := c.nonce
  peerId := lane
  tag := echoTag c.key lane c.nonce req.challenge req.payload
  payload := req.payload

/-- The key trails the frame in the clear. -/
def serveEcho (lane : UInt8) (req : InferFrame) : Option (List UInt8) := do
  let wire ← wireOf (echoResp c lane req)
  return wire ++ c.key.val

/-- The answer to the keyless probe. -/
def serveNoKey (lane : UInt8) (challenge : Bytes16) (reqId : BitVec 64) : Option (List UInt8) :=
  let (n, ep) := errCanon Errcode.NO_KEY (List.replicate INFER_ERR_PAYLOAD_LEN 0)
  if n ≠ INFER_ERR_PAYLOAD_LEN then none
  else taggedFrame c lane challenge reqId Kind.ERR .empty ep ep

/-- The chunks of a response from an offset on. -/
def respLoop (respPeer : UInt8) (challenge : Bytes16) (reqId : BitVec 64) (resp : List UInt8)
    (off : Nat) (seq : BitVec 16) : Option (List UInt8) :=
  if off < resp.length then do
    let stop := min (off + INFER_CHUNK_CAP) resp.length
    let sub : SubHdr := ⟨seq, decide (stop < resp.length), .ofNat 32 resp.length, bodyDigest resp⟩
    let (n, payload) := subhdrCanon sub (List.replicate INFER_SUBHDR_LEN 0)
    if n ≠ INFER_SUBHDR_LEN then none
    else
      let chunk := slice resp off (stop - off)
      let wire ← taggedFrame c respPeer challenge reqId Kind.INFER_RESP sub chunk (payload ++ chunk)
      let rest ← respLoop respPeer challenge reqId resp stop (seq + 1)
      return wire ++ rest
  else some []
termination_by resp.length - off
decreasing_by
  simp only [INFER_CHUNK_CAP, INFER_PAYLOAD_CAP, INFER_SUBHDR_LEN]
  omega

/-- One heartbeat and the mock response; nothing when the mock refuses the body. -/
def serveResp (respPeer : UInt8) (challenge : Bytes16) (reqId : BitVec 64) (body : List UInt8) :
    Option (List UInt8) :=
  let (rlen, resp) := mockInfer body (List.replicate INFER_MOCK_RESP_LEN 0)
  if rlen = 0 then some []
  else do
    let pending ← taggedFrame c respPeer challenge reqId Kind.INFER_PENDING .empty [] []
    let chunks ← respLoop c respPeer challenge reqId (resp.take rlen) 0 0
    return pending ++ chunks

def isLocal (body : List UInt8) : Bool :=
  decide (INFER_LOCAL_PROBE.length ≤ body.length) && body.take INFER_LOCAL_PROBE.length == INFER_LOCAL_PROBE

/-- A completed body, the local sentinel set apart. -/
def serveWithLocal (lane : UInt8) (challenge : Bytes16) (reqId : BitVec 64) (body : List UInt8) :
    Option (List UInt8) :=
  if body = INFER_NOKEY_PROBE then serveNoKey c lane challenge reqId
  else
    let respPeer := if isLocal body then INFER_DAEMON else lane
    serveResp c respPeer challenge reqId body

def InferHost.serveInferBody : Bytes16 → BitVec 64 → List UInt8 → Option (List UInt8) :=
  serveWithLocal c TB_VMM_HOST

def Harness.serveInfer : Bytes16 → BitVec 64 → List UInt8 → Option (List UInt8) :=
  serveWithLocal c QEMU_CHARDEV_HARNESS

/-- This copy has no branch for the local sentinel. -/
def ChardevPeer.serveMock (challenge : Bytes16) (reqId : BitVec 64) (body : List UInt8) :
    Option (List UInt8) :=
  if body = INFER_NOKEY_PROBE then serveNoKey c QEMU_CHARDEV_HARNESS challenge reqId
  else serveResp c QEMU_CHARDEV_HARNESS challenge reqId body

end Answers

/-! ## The serve loop -/

/-- The one request that is being put together. -/
structure Inflight where
  reqId : BitVec 64
  challenge : Bytes16
  asm : InferAssembler INFER_BODY_CAP

/-- A peer: its identity, and what it answers to a completed body. -/
structure Lane where
  peerId : UInt8
  answer : Custody → Bytes16 → BitVec 64 → List UInt8 → Option (List UInt8)

def inferHost : Lane := ⟨TB_VMM_HOST, InferHost.serveInferBody⟩

def harness : Lane := ⟨QEMU_CHARDEV_HARNESS, Harness.serveInfer⟩

def chardevPeer : Lane := ⟨QEMU_CHARDEV_HARNESS, ChardevPeer.serveMock⟩

/-- A new request id restarts; the challenge is that of the first chunk. -/
def inflightFor (inflight : Option Inflight) (frame : InferFrame) : Inflight :=
  match inflight with
  | some fl => if fl.reqId ≠ frame.reqId then ⟨frame.reqId, frame.challenge, .new⟩ else fl
  | none => ⟨frame.reqId, frame.challenge, .new⟩

/-- One chunk of an inference request: the request in flight after it, and the bytes written. -/
def serveInferReq (lane : Lane) (c : Custody) (inflight : Option Inflight) (frame : InferFrame) :
    Option (Option Inflight × List UInt8) :=
  match verifyInferReq c.key frame with
  | none => some (inflight, [])
  | some (sub, chunk) =>
      let fl := inflightFor inflight frame
      match fl.asm.pushChunk sub chunk with
      | none => none
      | some (.accepted, asm) => some (some { fl with asm := asm }, [])
      | some (.rejected, _) => some (none, [])
      | some (.complete blen, asm) => do
          let out ← lane.answer c fl.challenge fl.reqId (asm.body.take blen)
          return (none, out)

/-- What becomes of one emitted window. -/
def serveFrame (lane : Lane) (c : Custody) (inflight : Option Inflight) :
    Option InferFrame → Option (Option Inflight × List UInt8)
  | none => some (inflight, [])
  | some frame =>
      if frame.kind = Kind.ECHO_REQ then do
        let out ← serveEcho c lane.peerId frame
        return (inflight, out)
      else if frame.kind = Kind.INFER_REQ then serveInferReq lane c inflight frame
      else some (inflight, [])

/-- The re-framer, the request in flight, and everything written to the guest. -/
structure PeerState where
  accum : FrameAccum INFER_ACCUM_CAP
  inflight : Option Inflight
  outbuf : List UInt8

def PeerState.new : PeerState := ⟨.new, none, []⟩

/-- The bytes of one read, one at a time. -/
def pushGuestBytes (lane : Lane) (c : Custody) : PeerState → List UInt8 → Option PeerState
  | s, [] => some s
  | s, b :: bytes =>
      match s.accum.pushByte b with
      | none => none
      | some (accum, none) => pushGuestBytes lane c { s with accum := accum } bytes
      | some (accum, some fl) =>
          match serveFrame lane c s.inflight (decode (accum.bytes.take fl)) with
          | none => none
          | some (inflight, out) =>
              pushGuestBytes lane c ⟨accum.consume fl, inflight, s.outbuf ++ out⟩ bytes

/-- A whole stream, cut into reads. -/
def serve (lane : Lane) (c : Custody) (reads : List (List UInt8)) : Option PeerState :=
  reads.foldlM (pushGuestBytes lane c) PeerState.new

/-- What one `read` of the socket returns; a read of nothing is the end of the stream. -/
structure Read where
  bytes : List UInt8
  pos : 1 ≤ bytes.length
  le : bytes.length ≤ 4096

/-- The same behind a socket, up to the end of the stream. -/
def serveSocket (lane : Lane) (c : Custody) (reads : List Read) : Option PeerState :=
  serve lane c (reads.map (·.bytes))

end Yuva.Peer
