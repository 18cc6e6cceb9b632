/-
# `Yuva.Peer.Agree` — how the peers compare

The three peers over the same stream.  Their outputs are their replies to the same requests
(`serve_eq`), so they compare reply by reply:

    monitor and harness    the same, with the lane's peer id exchanged and the tags over it
    daemon and harness     the same, unless a body opens with the local sentinel
    every peer             an answer carries the challenge of the body's first chunk, also
                           when a chunk under another challenge joined it
-/
import Yuva.Peer.Requests

namespace Yuva.Peer

open Yuva.Bytes Yuva.Wire Yuva.Hash Yuva.Kernel Yuva.Run

/-! ## Another lane's identity -/

/-- The tag of a reply frame under another peer id. -/
def retag (key : Bytes32) (peerId : UInt8) (f : InferFrame) : Bytes16 :=
  if f.kind = Kind.ECHO_RESP then echoTag key peerId f.nonce f.challenge f.payload
  else
    match inferPayloadParts f.kind f.payload with
    | some (sub, chunk) => inferTag key peerId f.nonce f.challenge f.reqId f.kind sub chunk
    | none => f.tag

/-- A frame of the harness's lane as the monitor sends it; other frames stay. -/
def relabel (key : Bytes32) (f : InferFrame) : InferFrame :=
  if f.peerId = QEMU_CHARDEV_HARNESS then
    { f with peerId := TB_VMM_HOST, tag := retag key TB_VMM_HOST f }
  else f

def Reply.relabel (key : Bytes32) (r : Reply) : Reply := ⟨r.frames.map (Peer.relabel key), r.trailer⟩

variable {c : Custody}

/-- A tagged frame whose payload has the parts it was tagged for. -/
theorem relabel_tagged {challenge : Bytes16} {reqId : BitVec 64} {k : UInt8} {sub : SubHdr}
    {chunk payload : List UInt8} (hk : k ≠ Kind.ECHO_RESP)
    (hparts : inferPayloadParts k payload = some (sub, chunk)) :
    relabel c.key (tagged c QEMU_CHARDEV_HARNESS challenge reqId k sub chunk payload) =
      tagged c TB_VMM_HOST challenge reqId k sub chunk payload := by
  simp only [relabel, retag, tagged, if_neg hk, hparts, if_true]

theorem relabel_daemon {challenge : Bytes16} {reqId : BitVec 64} {k : UInt8} {sub : SubHdr}
    {chunk payload : List UInt8} :
    relabel c.key (tagged c INFER_DAEMON challenge reqId k sub chunk payload) =
      tagged c INFER_DAEMON challenge reqId k sub chunk payload := by
  rw [relabel, if_neg]
  exact (by decide : ¬INFER_DAEMON = QEMU_CHARDEV_HARNESS)

/-- A chunk of a response is a tagged frame. -/
theorem frame_eq_tagged {respPeer : UInt8} {challenge : Bytes16} {reqId : BitVec 64} {p : Push}
    (hp : p.1.Bounded) : (respSession c respPeer challenge reqId).frame p =
      tagged c respPeer challenge reqId Kind.INFER_RESP p.1 p.2 (p.1.bytes ++ p.2) := by
  rw [← payload_frame (respSession c respPeer challenge reqId) hp]
  rfl

theorem relabel_respFrames (challenge : Bytes16) (reqId : BitVec 64) (body : List UInt8) :
    (respFrames c QEMU_CHARDEV_HARNESS challenge reqId body).map (relabel c.key) =
      respFrames c TB_VMM_HOST challenge reqId body := by
  have hresp := sendable_mockResp body
  rw [respFrames, respFrames, List.map_cons, pendingFrame, relabel_tagged (by decide) rfl, List.map_map]
  refine congrArg _ (List.map_congr_left fun p hp => ?_)
  have hb := hresp.bounded hp
  rw [Function.comp_apply, frame_eq_tagged hb, frame_eq_tagged hb, relabel_tagged (by decide)
    (parts_of_chunk (.inr rfl) hb (hresp.inOrder.chunk p hp).1)]

theorem relabel_daemonFrames (challenge : Bytes16) (reqId : BitVec 64) (body : List UInt8) :
    (respFrames c INFER_DAEMON challenge reqId body).map (relabel c.key) =
      respFrames c INFER_DAEMON challenge reqId body := by
  have hresp := sendable_mockResp body
  rw [respFrames, List.map_cons, pendingFrame, relabel_daemon, List.map_map]
  refine congrArg _ (List.map_congr_left fun p hp => ?_)
  rw [Function.comp_apply, frame_eq_tagged (hresp.bounded hp), relabel_daemon]

/-- The monitor's reply is the harness's, relabelled. -/
theorem reply_relabel (r : Request c.key) : reply c TB_VMM_HOST (localPeer TB_VMM_HOST) r =
    (reply c QEMU_CHARDEV_HARNESS (localPeer QEMU_CHARDEV_HARNESS) r).relabel c.key := by
  cases r with
  | echo req => rfl
  | body q =>
      simp only [reply, Reply.relabel, bodyFrames]
      split
      case isTrue hnokey =>
        rw [List.map_singleton, noKeyFrame, noKeyFrame, relabel_tagged (by decide) (by decide)]
      case isFalse hnokey =>
        simp only [localPeer]
        split
        · rw [relabel_daemonFrames]
        · rw [relabel_respFrames]

/-! ## Streams that carry a body -/

/-- A chunk as a guest's tagged request frame. -/
def requestFrame (key : Bytes32) (challenge : Bytes16) (reqId : BitVec 64) (p : Push) : InferFrame where
  kind := Kind.INFER_REQ
  reqId := reqId
  challenge := challenge
  nonce := zeros 16
  peerId := 0
  tag := inferTag key 0 (zeros 16) challenge reqId Kind.INFER_REQ p.1 p.2
  payload := p.1.bytes ++ p.2

section Carried

variable {key : Bytes32} {body : List UInt8}

theorem verify_requestFrame (h : Sendable body) {p : Push} (hp : p ∈ chunks body) (challenge : Bytes16)
    (reqId : BitVec 64) : verifyInferReq key (requestFrame key challenge reqId p) = some p :=
  verifyInferReq_eq_some.mpr
    ⟨rfl, rfl, rfl, parts_of_chunk (.inl rfl) (h.bounded hp) (h.inOrder.chunk p hp).1, rfl⟩

theorem encodable_requestFrame (h : Sendable body) {p : Push} (hp : p ∈ chunks body) (challenge : Bytes16)
    (reqId : BitVec 64) : Encodable (requestFrame key challenge reqId p) := by
  refine ⟨?_, rfl⟩
  have hle := (h.inOrder.chunk p hp).2
  show (p.1.bytes ++ p.2).length ≤ INFER_PAYLOAD_CAP
  rw [List.length_append, p.1.length_bytes]
  simp only [INFER_CHUNK_CAP, INFER_PAYLOAD_CAP, INFER_SUBHDR_LEN] at *
  omega

/-- The chunks of a body, each under a challenge of its own. -/
def carriedChunks (key : Bytes32) (challenge : Push → Bytes16) (reqId : BitVec 64) (h : Sendable body) :
    List (Chunk key) :=
  (chunks body).attach.map fun p =>
    ⟨requestFrame key (challenge p.val) reqId p.val, p.val, verify_requestFrame h p.property _ _⟩

def carriedStream (key : Bytes32) (challenge : Push → Bytes16) (reqId : BitVec 64) (body : List UInt8) :
    List UInt8 :=
  ((chunks body).map fun p => encode (requestFrame key (challenge p) reqId p)).flatten

theorem step_chunk (d : Desk key) (f : Chunk key) : d.step f.frame = d.settle (join d.inflight f) := by
  obtain ⟨frame, push, hv⟩ := f
  have hkind : frame.kind ≠ Kind.ECHO_REQ := by
    rw [(verifyInferReq_eq_some.mp hv).1]
    decide
  rw [Desk.step, if_neg hkind]
  split
  case h_1 hnone => exact absurd (hnone.symm.trans hv) (by simp)
  case h_2 p hsome =>
    cases Option.some.inj (hsome.symm.trans hv)
    rfl

theorem beginning_of_delivered {ps rest : List Push} {p : Push} {n : Nat}
    (h : InferAssembler.Delivered INFER_BODY_CAP (ps ++ p :: rest) n) :
    Beginning ps ∧ ¬∃ m, InferAssembler.Delivered INFER_BODY_CAP ps m := by
  obtain ⟨total, digest, hw, hb, -⟩ := h
  constructor
  · refine ⟨total, digest, hw.inOrder.of_append, hb, ?_, ?_⟩
    · intro q hq
      obtain ⟨pre, post, rfl⟩ := List.append_of_mem hq
      rw [List.append_assoc, List.cons_append] at hw
      by_contra hmore
      simpa using hw.last.mp (eq_false_of_ne_true hmore)
    · have hpos := List.length_pos_iff.mpr (hw.inOrder.chunk p (by simp)).1
      rw [← hw.length, concat_append, concat_cons, List.length_append, List.length_append]
      omega
  · rintro ⟨m, total', digest', hw', hb', -⟩
    obtain ⟨init, last, rfl, hlast, -⟩ := hw'.more
    rw [List.append_assoc, List.singleton_append] at hw
    simpa using hw.last.mp hlast

/-- The desk joins the chunks of one request id while they begin a body. -/
theorem exec_joined {fs rest : List (Chunk key)} {f : Chunk key} {n : Nat}
    (hid : ∀ g ∈ fs, g.frame.reqId = f.frame.reqId)
    (hdel : InferAssembler.Delivered INFER_BODY_CAP ((fs ++ f :: rest).map (·.push)) n) :
    ∃ q : Sequence key, q.chunks = fs ++ [f] ∧
      exec Desk.step (⟨none, []⟩ : Desk key) ((fs ++ [f]).map (·.frame)) =
        (⟨none, []⟩ : Desk key).settle q := by
  induction fs using List.reverseRecOn generalizing f rest with
  | nil => exact ⟨.start f, rfl, step_chunk _ f⟩
  | append_singleton fs g ih =>
      have hg : g.frame.reqId = f.frame.reqId := hid g (by simp)
      have hdel' : InferAssembler.Delivered INFER_BODY_CAP ((fs ++ g :: f :: rest).map (·.push)) n := by
        simpa using hdel
      obtain ⟨q, hq, hexec⟩ := ih (fun g' hg' => (hid g' (by simp [hg'])).trans hg.symm) hdel'
      have hpushes : q.pushes = (fs ++ [g]).map (·.push) := by rw [Sequence.pushes, hq]
      have hcut : InferAssembler.Delivered INFER_BODY_CAP (q.pushes ++ f.push :: rest.map (·.push)) n := by
        rw [hpushes]
        simpa using hdel
      obtain ⟨hbeg, hnot⟩ := beginning_of_delivered hcut
      rw [Desk.settle_beginning hbeg hnot] at hexec
      have hjoin : f.frame.reqId = q.reqId := by
        have hfirst : q.first ∈ fs ++ [g] := hq ▸ List.mem_cons_self
        exact (hid _ hfirst).symm
      refine ⟨q.extend f hjoin, ?_, ?_⟩
      · rw [← hq]
        rfl
      · rw [List.map_append, exec_append, hexec, List.map_singleton, exec_cons, exec_nil, step_chunk]
        exact congrArg _ (dif_pos hjoin)

theorem frame_carriedChunks (challenge : Push → Bytes16) (reqId : BitVec 64) (h : Sendable body) :
    (carriedChunks key challenge reqId h).map (·.frame) =
      (chunks body).map fun p => requestFrame key (challenge p) reqId p := by
  rw [carriedChunks, List.map_map]
  exact List.attach_map_val (f := fun p => requestFrame key (challenge p) reqId p)

theorem push_carriedChunks (challenge : Push → Bytes16) (reqId : BitVec 64) (h : Sendable body) :
    (carriedChunks key challenge reqId h).map (·.push) = chunks body := by
  rw [carriedChunks, List.map_map]
  exact List.attach_map_subtype_val _

theorem length_carriedStream (challenge : Push → Bytes16) (reqId : BitVec 64) (h : Sendable body) :
    (carriedStream key challenge reqId body).length = inferChunksWireLen body.length :=
  h.length_frames fun _ _ => rfl

/-- The frames of the stream are those of the chunks. -/
theorem referenceParse_carriedStream (challenge : Push → Bytes16) (reqId : BitVec 64) (h : Sendable body) :
    referenceParse (carriedStream key challenge reqId body) =
      (chunks body).map fun p => requestFrame key (challenge p) reqId p := by
  have henc : ∀ f ∈ (chunks body).map (fun p => requestFrame key (challenge p) reqId p), Encodable f := by
    intro f hf
    obtain ⟨p, hp, rfl⟩ := List.mem_map.mp hf
    exact encodable_requestFrame h hp _ _
  have hparse := referenceParse_encodes henc
  rwa [List.map_map] at hparse

/-- A body whose chunks share a request id is a request, whatever their challenges. -/
theorem requestsOf_carriedStream (key : Bytes32) (challenge : Push → Bytes16) (reqId : BitVec 64)
    (h : Sendable body) : ∃ q : Sequence key, q.chunks = carriedChunks key challenge reqId h ∧
      requestsOf key (carriedStream key challenge reqId body) = [.body q] := by
  have hpushes : (carriedChunks key challenge reqId h).map (·.push) = chunks body :=
    push_carriedChunks challenge reqId h
  have hdel : InferAssembler.Delivered INFER_BODY_CAP (chunks body) body.length :=
    ⟨_, _, h.wholeBody, ⟨by rw [h.total]; exact h.le, by rw [h.total]; exact h.le⟩, h.total.symm⟩
  have hid : ∀ g ∈ carriedChunks key challenge reqId h, g.frame.reqId = reqId := by
    intro g hg
    obtain ⟨p, -, rfl⟩ := List.mem_map.mp hg
    rfl
  rw [requestsOf, referenceParse_carriedStream _ _ h, ← frame_carriedChunks _ _ h]
  generalize carriedChunks key challenge reqId h = fs at hpushes hid
  rw [← hpushes] at hdel
  obtain ⟨total, digest, hw, -, -⟩ := id hdel
  cases fs using List.reverseRecOn with
  | nil =>
      obtain ⟨init, last, hnil, -⟩ := hw.more
      simp at hnil
  | append_singleton fs f =>
      obtain ⟨q, hq, hexec⟩ := exec_joined
        (fun g hg => (hid g (by simp [hg])).trans (hid f (by simp)).symm) hdel
      refine ⟨q, hq, ?_⟩
      rw [hexec, Desk.settle_whole (by rw [Sequence.pushes, hq]; exact hdel)]
      rfl

/-- Noise in front of the stream is passed over. -/
theorem requestsOf_noise {noise : List UInt8} (hnoise : MagicFree noise) (challenge : Push → Bytes16)
    (reqId : BitVec 64) : requestsOf key (noise ++ carriedStream key challenge reqId body) =
      requestsOf key (carriedStream key challenge reqId body) := by
  have hhead : (carriedStream key challenge reqId body).head? ≠ some MAGIC_HI := by
    rw [carriedStream, ← Function.comp_def encode, ← List.map_map]
    exact head_encodes _
  rw [requestsOf, referenceParse_garbage hnoise hhead, requestsOf]

end Carried

/-! ## The monitor and the harness -/

/-- Over one stream, however it is cut for either, the monitor and the harness write the replies
to its requests, each once and in order and nothing else, and the monitor's are the harness's
with the peer id exchanged. -/
theorem host_and_harness_agree (c : Custody) {s : List UInt8} {pushes : List (List UInt8)}
    {reads : List Read} (hpushes : pushes.flatten = s) (hreads : (reads.map (·.bytes)).flatten = s) :
    ∃ host harn, serve inferHost c pushes = some host ∧ serveSocket harness c reads = some harn ∧
      harn.outbuf = (requestsOf c.key s).flatMap (fun r =>
        (reply c QEMU_CHARDEV_HARNESS (localPeer QEMU_CHARDEV_HARNESS) r).bytes) ∧
      host.outbuf = (requestsOf c.key s).flatMap (fun r =>
        ((reply c QEMU_CHARDEV_HARNESS (localPeer QEMU_CHARDEV_HARNESS) r).relabel c.key).bytes) := by
  obtain ⟨host, hserve, hout⟩ := serve_eq (c := c) inferHost_answers pushes
  obtain ⟨harn, hserve', hout'⟩ := serve_eq (c := c) harness_answers (reads.map (·.bytes))
  rw [hpushes] at hout
  rw [hreads] at hout'
  refine ⟨host, harn, hserve, hserve', hout', ?_⟩
  rw [hout]
  simp only [← reply_relabel]
  rfl

/-- The keys and the nonce of the sample runs. -/
def sampleCustody : Custody := ⟨zeros 32, zeros 16⟩

/-- A body of two chunks. -/
def twoChunkBody : List UInt8 := List.replicate 1001 0

theorem length_twoChunkBody : twoChunkBody.length = 1001 := List.length_replicate

theorem sendable_twoChunkBody : Sendable twoChunkBody :=
  ⟨by rw [length_twoChunkBody]; decide, by rw [length_twoChunkBody]; decide⟩

/-- The body behind three bytes of noise. -/
def noisyStream : List UInt8 :=
  [0x57, 0x00, 0xFF] ++ carriedStream sampleCustody.key (fun _ => zeros 16) 1 twoChunkBody

theorem length_noisyStream : noisyStream.length = 1184 := by
  rw [noisyStream, List.length_append, length_carriedStream _ _ sendable_twoChunkBody, length_twoChunkBody]
  decide

/-- It reaches the harness in two reads. -/
def noisyReads : List Read :=
  [⟨noisyStream.take 700, by rw [List.length_take, length_noisyStream]; decide,
      by rw [List.length_take, length_noisyStream]; decide⟩,
    ⟨noisyStream.drop 700, by rw [List.length_drop, length_noisyStream]; decide,
      by rw [List.length_drop, length_noisyStream]; decide⟩]

/-- The monitor gets it byte by byte: each answers the body once, under its own peer id. -/
theorem host_and_harness_agree_on_body : ∃ host harn,
    serve inferHost sampleCustody (noisyStream.map ([·])) = some host ∧
      serveSocket harness sampleCustody noisyReads = some harn ∧
      harn.outbuf = (respFrames sampleCustody QEMU_CHARDEV_HARNESS (zeros 16) 1 twoChunkBody).flatMap encode ∧
      host.outbuf = (respFrames sampleCustody TB_VMM_HOST (zeros 16) 1 twoChunkBody).flatMap encode := by
  have hpushes : (noisyStream.map ([·])).flatten = noisyStream := by
    rw [← List.flatMap_def, List.flatMap_singleton']
  have hreads : (noisyReads.map (·.bytes)).flatten = noisyStream := by simp [noisyReads]
  obtain ⟨q, hq, hreqs⟩ := requestsOf_carriedStream sampleCustody.key (fun _ => zeros 16) 1 sendable_twoChunkBody
  have hnoisy : requestsOf sampleCustody.key noisyStream = [.body q] := (requestsOf_noise (by decide) _ _).trans hreqs
  have hbody : q.body = twoChunkBody := by
    rw [Sequence.body, Sequence.pushes, hq, push_carriedChunks, sendable_twoChunkBody.concat]
  have hfirst : q.challenge = zeros 16 ∧ q.reqId = 1 := by
    have hmem : q.first ∈ carriedChunks sampleCustody.key (fun _ => zeros 16) 1 sendable_twoChunkBody :=
      hq ▸ List.mem_cons_self
    obtain ⟨p, -, hp⟩ := List.mem_map.mp hmem
    exact ⟨by rw [Sequence.challenge, ← hp]; rfl, by rw [Sequence.reqId, ← hp]; rfl⟩
  have hnokey : twoChunkBody ≠ INFER_NOKEY_PROBE := by decide +kernel
  have hlocal : ¬isLocal twoChunkBody = true := by decide +kernel
  have hreply (lane : UInt8) : (reply sampleCustody lane (localPeer lane) (.body q)).bytes =
      (respFrames sampleCustody lane (zeros 16) 1 twoChunkBody).flatMap encode := by
    simp only [reply, Reply.bytes, bodyFrames, hbody, hfirst, localPeer, if_neg hnokey, if_neg hlocal, List.append_nil]
  obtain ⟨host, harn, hhost, hharn, hout', hout⟩ := host_and_harness_agree sampleCustody hpushes hreads
  rw [hnoisy, List.flatMap_singleton] at hout hout'
  refine ⟨host, harn, hhost, hharn, hout'.trans (hreply _), hout.trans ?_⟩
  rw [← reply_relabel, hreply]

/-! ## The daemon's share -/

theorem isLocal_iff (body : List UInt8) : isLocal body = true ↔ INFER_LOCAL_PROBE <+: body := by
  rw [isLocal, Bool.and_eq_true, decide_eq_true_iff, beq_iff_eq, List.prefix_iff_eq_take]
  constructor
  · exact fun h => h.2.symm
  · intro h
    refine ⟨?_, h.symm⟩
    rw [h, List.length_take]
    exact Nat.min_le_right _ _

/-- The length of a reply does not depend on who sends it. -/
theorem length_reply (lane : UInt8) (p p' : List UInt8 → UInt8) (r : Request c.key) :
    (reply c lane p r).bytes.length = (reply c lane p' r).bytes.length := by
  cases r with
  | echo req => rfl
  | body q =>
      have hlen : ∀ fs : List InferFrame, (fs.flatMap encode).length =
          (fs.map fun f => canonLen f.payload.length).sum := by
        intro fs
        simp [List.length_flatMap, length_encode]
      simp only [reply, Reply.bytes, List.append_nil, hlen, bodyFrames]
      split
      · rfl
      · simp only [respFrames, List.map_cons, List.map_map]
        rfl

/-- The two replies to a body differ exactly when it opens with the local sentinel. -/
theorem reply_eq_iff (q : Sequence c.key) :
    (reply c QEMU_CHARDEV_HARNESS (fun _ => QEMU_CHARDEV_HARNESS) (.body q)).bytes =
      (reply c QEMU_CHARDEV_HARNESS (localPeer QEMU_CHARDEV_HARNESS) (.body q)).bytes ↔
      ¬INFER_LOCAL_PROBE <+: q.body := by
  rw [← isLocal_iff]
  constructor
  · intro heq hlocal
    have hnokey : q.body ≠ INFER_NOKEY_PROBE := by
      intro h
      rw [h] at hlocal
      exact absurd hlocal (by decide +kernel)
    -- the heartbeats already differ in the peer id
    simp only [reply, Reply.bytes, List.append_nil, bodyFrames, if_neg hnokey, localPeer, if_pos hlocal,
      respFrames, List.flatMap_cons] at heq
    have hlen : (encode (pendingFrame c QEMU_CHARDEV_HARNESS q.challenge q.reqId)).length =
        (encode (pendingFrame c INFER_DAEMON q.challenge q.reqId)).length := by
      rw [length_encode, length_encode]
      rfl
    have hdec := decode_encode [] (encodable_pendingFrame (c := c) QEMU_CHARDEV_HARNESS q.challenge q.reqId)
    rw [(List.append_inj heq hlen).1, decode_encode [] (encodable_pendingFrame _ _ _), Option.some.injEq] at hdec
    exact absurd (congrArg InferFrame.peerId hdec)
      (by decide : ¬INFER_DAEMON = QEMU_CHARDEV_HARNESS)
  · intro hlocal
    simp only [reply, localPeer, if_neg hlocal]

theorem replies_eq_iff (rs : List (Request c.key)) :
    (rs.flatMap fun r => (reply c QEMU_CHARDEV_HARNESS (fun _ => QEMU_CHARDEV_HARNESS) r).bytes) =
      (rs.flatMap fun r => (reply c QEMU_CHARDEV_HARNESS (localPeer QEMU_CHARDEV_HARNESS) r).bytes) ↔
      ∀ q, .body q ∈ rs → ¬INFER_LOCAL_PROBE <+: q.body := by
  constructor
  · intro heq q hq
    rw [List.flatMap_def, List.flatMap_def, ← List.append_nil (List.flatten _),
      ← List.append_nil (List.flatten (List.map (fun r => (reply c _ (localPeer _) r).bytes) rs))] at heq
    -- the replies are as long one by one, so equal streams are equal replies
    have hmap := (fields_inj (by
      rw [List.map_map, List.map_map]
      exact List.map_congr_left fun r _ => length_reply _ _ _ r) heq).1
    exact (reply_eq_iff q).mp (List.map_inj_left.mp hmap _ hq)
  · intro h
    refine List.flatMap_congr fun r hr => ?_
    cases r with
    | echo req => rfl
    | body q => exact (reply_eq_iff q).mpr (h q hr)

/-- The daemon's peer writes what the harness writes exactly on the streams none of whose
completed bodies opens with the local sentinel. -/
theorem daemon_and_harness_agree_iff (c : Custody) (reads : List Read) :
    ∃ core harn, serveSocket chardevPeer c reads = some core ∧ serveSocket harness c reads = some harn ∧
      (core.outbuf = harn.outbuf ↔
        ∀ q, .body q ∈ requestsOf c.key (reads.map (·.bytes)).flatten → ¬INFER_LOCAL_PROBE <+: q.body) := by
  obtain ⟨core, hserve, hout⟩ := serve_eq (c := c) chardevPeer_answers (reads.map (·.bytes))
  obtain ⟨harn, hserve', hout'⟩ := serve_eq (c := c) harness_answers (reads.map (·.bytes))
  refine ⟨core, harn, hserve, hserve', ?_⟩
  rw [hout, hout']
  exact replies_eq_iff _

theorem length_localProbe : INFER_LOCAL_PROBE.length = 23 := by decide +kernel

theorem sendable_localProbe : Sendable INFER_LOCAL_PROBE :=
  ⟨by rw [length_localProbe]; decide, by rw [length_localProbe]; decide⟩

/-- The local sentinel, sent as a request of its own. -/
def localProbeStream : List UInt8 := carriedStream sampleCustody.key (fun _ => zeros 16) 1 INFER_LOCAL_PROBE

theorem length_localProbeStream : localProbeStream.length = 113 := by
  rw [localProbeStream, length_carriedStream _ _ sendable_localProbe, length_localProbe]
  decide

def localProbeRead : Read := ⟨localProbeStream, by rw [length_localProbeStream]; decide,
  by rw [length_localProbeStream]; decide⟩

/-- The body that is the local sentinel itself: the two outputs differ. -/
theorem localProbe_answers_differ : ∃ core harn,
    serveSocket chardevPeer sampleCustody [localProbeRead] = some core ∧
      serveSocket harness sampleCustody [localProbeRead] = some harn ∧ core.outbuf ≠ harn.outbuf := by
  obtain ⟨q, hq, hreqs⟩ := requestsOf_carriedStream sampleCustody.key (fun _ => zeros 16) 1 sendable_localProbe
  have hbody : q.body = INFER_LOCAL_PROBE := by
    rw [Sequence.body, Sequence.pushes, hq, push_carriedChunks, sendable_localProbe.concat]
  obtain ⟨core, hcore, hout⟩ := serve_eq (c := sampleCustody) chardevPeer_answers [localProbeStream]
  obtain ⟨harn, hharn, hout'⟩ := serve_eq (c := sampleCustody) harness_answers [localProbeStream]
  refine ⟨core, harn, hcore, hharn, ?_⟩
  rw [hout, hout', List.flatten_singleton]
  intro heq
  have hmem : Request.body q ∈ requestsOf sampleCustody.key localProbeStream := hreqs ▸ List.mem_singleton.mpr rfl
  exact (replies_eq_iff _).mp heq q hmem (hbody ▸ List.prefix_refl _)

/-! ## Which challenge an answer carries -/

/-- Every chunk of the sequence carried the challenge of the first. -/
def Sequence.OneChallenge {key : Bytes32} (q : Sequence key) : Prop :=
  ∀ g ∈ q.chunks, g.frame.challenge = q.challenge

/-- No chunk joins a sequence that was begun under another challenge. -/
def Unspliced {key : Bytes32} (d : Desk key) (f : InferFrame) : Prop :=
  ∀ q p, d.inflight = some q → verifyInferReq key f = some p → f.reqId = q.reqId →
    f.challenge = q.challenge

/-- Everything on the desk was carried under one challenge. -/
structure Desk.Sound {key : Bytes32} (d : Desk key) : Prop where
  inflight : ∀ q, d.inflight = some q → q.OneChallenge
  requests : ∀ q, .body q ∈ d.requests → q.OneChallenge

theorem join_oneChallenge {key : Bytes32} {d : Desk key} (hd : d.Sound) {f : InferFrame} {p : Push}
    (hv : verifyInferReq key f = some p) (hu : Unspliced d f) : (join d.inflight ⟨f, p, hv⟩).OneChallenge := by
  have hstart : (Sequence.start (⟨f, p, hv⟩ : Chunk key)).OneChallenge := by
    intro g hg
    rw [List.mem_singleton.mp hg]
    rfl
  cases hfl : d.inflight with
  | none => exact hstart
  | some q =>
      rw [join]
      split
      case isFalse => exact hstart
      case isTrue hid =>
        intro g hg
        have hg' : g ∈ q.chunks ∨ g = ⟨f, p, hv⟩ := by
          simpa [Sequence.chunks, Sequence.extend, or_assoc] using hg
        rcases hg' with hg' | rfl
        · exact hd.inflight q hfl g hg'
        · exact hu q p hfl hv hid

theorem Desk.Sound.settle {key : Bytes32} {d : Desk key} (hd : d.Sound) {q : Sequence key}
    (hq : q.OneChallenge) : (d.settle q).Sound := by
  by_cases hdel : ∃ n, InferAssembler.Delivered INFER_BODY_CAP q.pushes n
  · obtain ⟨n, hn⟩ := hdel
    rw [Desk.settle_whole hn]
    refine ⟨fun q' h => (by cases h), fun q' h => ?_⟩
    rcases List.mem_append.mp h with h | h
    · exact hd.requests q' h
    · cases List.mem_singleton.mp h
      exact hq
  · by_cases hbeg : Beginning q.pushes
    · rw [Desk.settle_beginning hbeg hdel]
      refine ⟨fun q' h => ?_, hd.requests⟩
      cases h
      exact hq
    · rw [Desk.settle_broken hbeg hdel]
      exact ⟨fun q' h => (by cases h), hd.requests⟩

theorem Desk.Sound.step {key : Bytes32} (d : Desk key) (f : InferFrame) (hu : Unspliced d f) (hd : d.Sound) :
    (d.step f).Sound := by
  rw [Desk.step]
  split
  · refine ⟨hd.inflight, fun q h => ?_⟩
    rcases List.mem_append.mp h with h | h
    · exact hd.requests q h
    · cases List.mem_singleton.mp h
  · split
    case h_1 => exact hd
    case h_2 p hv => exact hd.settle (join_oneChallenge hd hv hu)

/-- The frames of an answer carry the request id and the challenge of the first chunk. -/
theorem reply_carries {lane : UInt8} {peerOf : List UInt8 → UInt8} {q : Sequence c.key} {f : InferFrame}
    (hf : f ∈ (reply c lane peerOf (.body q)).frames) : f.challenge = q.challenge ∧ f.reqId = q.reqId := by
  simp only [reply, bodyFrames] at hf
  split at hf
  · rw [List.mem_singleton.mp hf]
    exact ⟨rfl, rfl⟩
  · rcases List.mem_cons.mp hf with rfl | hf
    · exact ⟨rfl, rfl⟩
    · obtain ⟨p, -, rfl⟩ := List.mem_map.mp hf
      exact ⟨rfl, rfl⟩

/-- Where no chunk joins a sequence begun under another challenge, an answer of any of the peers
carries the challenge and the request id that every chunk frame of the body carried. -/
theorem answer_bound_of_unspliced {lane : Lane} {peerOf : List UInt8 → UInt8}
    (hlane : (lane, peerOf) ∈ [(inferHost, localPeer TB_VMM_HOST), (harness, localPeer QEMU_CHARDEV_HARNESS),
      (chardevPeer, fun _ => QEMU_CHARDEV_HARNESS)])
    (c : Custody) (reads : List (List UInt8))
    (hu : Guarded Desk.step Unspliced (⟨none, []⟩ : Desk c.key) (referenceParse reads.flatten)) :
    ∃ s, serve lane c reads = some s ∧
      s.outbuf = ((requestsOf c.key reads.flatten).flatMap fun r => (reply c lane.peerId peerOf r).bytes) ∧
      ∀ q, .body q ∈ requestsOf c.key reads.flatten →
        ∀ f ∈ (reply c lane.peerId peerOf (.body q)).frames, ∀ g ∈ q.chunks,
          g.frame.challenge = f.challenge ∧ g.frame.reqId = f.reqId := by
  have ha : Answers lane peerOf := by
    simp only [List.mem_cons, Prod.mk.injEq, List.not_mem_nil, or_false] at hlane
    rcases hlane with ⟨rfl, rfl⟩ | ⟨rfl, rfl⟩ | ⟨rfl, rfl⟩
    · exact inferHost_answers
    · exact harness_answers
    · exact chardevPeer_answers
  obtain ⟨s, hserve, hout⟩ := serve_eq (c := c) ha reads
  refine ⟨s, hserve, hout, ?_⟩
  have hempty : (⟨none, []⟩ : Desk c.key).Sound := ⟨fun q h => (by cases h), fun q h => (by cases h)⟩
  have hsound := exec_guarded Desk.Sound.step (referenceParse reads.flatten) hu hempty
  intro q hq f hf g hg
  obtain ⟨hch, hid⟩ := reply_carries hf
  refine ⟨(hsound.requests q hq g hg).trans hch.symm, ?_⟩
  rw [hid]
  rcases List.mem_cons.mp hg with rfl | hg
  · rfl
  · exact q.sameId g hg

/-- A stream under one challenge splices nothing. -/
theorem guarded_of_one_challenge {key : Bytes32} {ch : Bytes16} {fs : List InferFrame} {d : Desk key}
    (hfs : ∀ f ∈ fs, f.challenge = ch) (hd : ∀ q, d.inflight = some q → q.challenge = ch) :
    Guarded Desk.step Unspliced d fs := by
  induction fs generalizing d with
  | nil => trivial
  | cons f fs ih =>
      have hf := hfs f List.mem_cons_self
      refine ⟨fun q p hq _ _ => hf.trans (hd q hq).symm,
        ih (fun g hg => hfs g (List.mem_cons_of_mem _ hg)) ?_⟩
      intro q hq
      rw [Desk.step] at hq
      split at hq
      · exact hd q hq
      · split at hq
        · exact hd q hq
        case h_2 p hv =>
          have hjoin : (join d.inflight ⟨f, p, hv⟩).challenge = ch := by
            cases hfl : d.inflight with
            | none => exact hf
            | some q' =>
                rw [join]
                split
                · exact hd q' hfl
                · exact hf
          have hsettle : q = join d.inflight ⟨f, p, hv⟩ := by
            rw [Desk.settle] at hq
            split at hq
            · cases hq
            · split at hq
              · exact (Option.some.inj hq).symm
              · cases hq
          rw [hsettle, hjoin]

theorem unspliced_carriedStream {key : Bytes32} (challenge : Bytes16) (reqId : BitVec 64) {body : List UInt8}
    (h : Sendable body) : Guarded Desk.step Unspliced (⟨none, []⟩ : Desk key)
      (referenceParse (carriedStream key (fun _ => challenge) reqId body)) := by
  rw [referenceParse_carriedStream _ _ h]
  have hone : ∀ f ∈ (chunks body).map (fun p => requestFrame key challenge reqId p), f.challenge = challenge := by
    intro f hf
    obtain ⟨p, -, rfl⟩ := List.mem_map.mp hf
    rfl
  exact guarded_of_one_challenge hone fun q hq => (by cases hq)

theorem chunks_twoChunkBody : chunks twoChunkBody = [chunkAt twoChunkBody 0, chunkAt twoChunkBody 1] := by
  have hcount : inferChunkCount twoChunkBody.length = 2 := by
    rw [length_twoChunkBody]
    rfl
  rw [chunks, hcount, List.range_succ, List.range_one, List.singleton_append, List.map_cons, List.map_singleton]

/-- Both chunks under one challenge. -/
def steadyStream : List UInt8 := carriedStream sampleCustody.key (fun _ => zeros 16) 1 twoChunkBody

/-- Every frame of the answer carries it. -/
theorem answer_bound_two_chunks : ∃ s, serve inferHost sampleCustody [steadyStream] = some s ∧
    s.outbuf = ((requestsOf sampleCustody.key [steadyStream].flatten).flatMap fun r =>
      (reply sampleCustody inferHost.peerId (localPeer TB_VMM_HOST) r).bytes) ∧
    ∀ q, .body q ∈ requestsOf sampleCustody.key [steadyStream].flatten →
      ∀ f ∈ (reply sampleCustody inferHost.peerId (localPeer TB_VMM_HOST) (.body q)).frames, ∀ g ∈ q.chunks,
        g.frame.challenge = f.challenge ∧ g.frame.reqId = f.reqId :=
  answer_bound_of_unspliced List.mem_cons_self sampleCustody [steadyStream] (by
    rw [List.flatten_singleton]
    exact unspliced_carriedStream _ _ sendable_twoChunkBody)

/-- A challenge other than sixteen zero bytes. -/
def otherChallenge : Bytes16 := ⟨List.replicate 16 1, rfl⟩

/-- The first chunk under one challenge, the second under another. -/
def splicedChallenge (p : Push) : Bytes16 := if p.1.seq = 0 then zeros 16 else otherChallenge

/-- The second chunk was tagged under another challenge; the monitor joins the two and answers
under the first. -/
theorem spliced_body_is_answered : ∃ s q,
    serve inferHost sampleCustody [carriedStream sampleCustody.key splicedChallenge 1 twoChunkBody] = some s ∧
      s.outbuf = (reply sampleCustody TB_VMM_HOST (localPeer TB_VMM_HOST) (.body q)).bytes ∧
      (reply sampleCustody TB_VMM_HOST (localPeer TB_VMM_HOST) (.body q)).frames ≠ [] ∧
      (∀ f ∈ (reply sampleCustody TB_VMM_HOST (localPeer TB_VMM_HOST) (.body q)).frames,
        f.challenge = zeros 16) ∧
      ∃ g ∈ q.chunks, g.frame.challenge = otherChallenge ∧ otherChallenge ≠ zeros 16 := by
  obtain ⟨q, hq, hreqs⟩ := requestsOf_carriedStream sampleCustody.key splicedChallenge 1 sendable_twoChunkBody
  have hchallenges : q.chunks.map (·.frame.challenge) = [zeros 16, otherChallenge] := by
    have hframes : (carriedChunks sampleCustody.key splicedChallenge 1 sendable_twoChunkBody).map (·.frame) =
        (chunks twoChunkBody).map fun p => requestFrame sampleCustody.key (splicedChallenge p) 1 p :=
      frame_carriedChunks splicedChallenge 1 sendable_twoChunkBody
    rw [chunks_twoChunkBody] at hframes
    rw [hq, ← Function.comp_def InferFrame.challenge Chunk.frame, ← List.map_map, hframes]
    rfl
  obtain ⟨s, hserve, hout⟩ := serve_eq (c := sampleCustody) inferHost_answers
    [carriedStream sampleCustody.key splicedChallenge 1 twoChunkBody]
  refine ⟨s, q, hserve, ?_, ?_, ?_, ?_⟩
  · rw [hout, List.flatten_singleton]
    rw [hreqs, List.flatMap_singleton]
    rfl
  · simp only [reply, bodyFrames]
    split <;> simp [respFrames]
  · intro f hf
    rw [(reply_carries hf).1]
    exact (List.cons.inj hchallenges).1
  · obtain ⟨g, hg, hother⟩ := List.mem_map.mp
      (hchallenges ▸ List.mem_cons_of_mem _ List.mem_cons_self : otherChallenge ∈ q.chunks.map (·.frame.challenge))
    exact ⟨g, hg, hother, by decide⟩

end Yuva.Peer
