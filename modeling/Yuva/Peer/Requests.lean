/-
# `Yuva.Peer.Requests` — what a peer is asked

The requests a stream holds, apart from any peer: the echo requests, and the bodies that the
verified chunks of one request id make up, each with the frames that carried it.  The desk
keeps the sequence of chunks that is being put together:

    chunk --same id--> joins the sequence      --whole body--> served, desk empty
          --other id--> begins a new one       --proper beginning--> kept
                                               --neither--> dropped

**Proved here.**  A peer's output is its replies to the requests of the stream, in order and
nothing else, however the stream is cut into reads (`serve_eq`).
-/
import Yuva.Peer.Replies
import Yuva.Lib.Run

namespace Yuva.Peer

open Yuva.Bytes Yuva.Wire Yuva.Hash Yuva.Kernel Yuva.Run

/-! ## The desk -/

/-- A chunk and the frame that carried it. -/
structure Chunk (key : Bytes32) where
  frame : InferFrame
  push : Push
  verified : verifyInferReq key frame = some push

/-- Chunks of one request id, in the order they came. -/
structure Sequence (key : Bytes32) where
  first : Chunk key
  rest : List (Chunk key)
  sameId : ∀ g ∈ rest, g.frame.reqId = first.frame.reqId

namespace Sequence

variable {key : Bytes32}

def chunks (q : Sequence key) : List (Chunk key) := q.first :: q.rest

def pushes (q : Sequence key) : List Push := q.chunks.map (·.push)

def reqId (q : Sequence key) : BitVec 64 := q.first.frame.reqId

def challenge (q : Sequence key) : Bytes16 := q.first.frame.challenge

def body (q : Sequence key) : List UInt8 := concat q.pushes

/-- The sequence of one chunk. -/
def start (f : Chunk key) : Sequence key := ⟨f, [], by simp⟩

def extend (q : Sequence key) (f : Chunk key) (h : f.frame.reqId = q.reqId) : Sequence key :=
  ⟨q.first, q.rest ++ [f], by
    intro g hg
    rcases List.mem_append.mp hg with hg | hg
    · exact q.sameId g hg
    · rw [List.mem_singleton.mp hg]
      exact h⟩

theorem pushes_extend {q : Sequence key} {f : Chunk key} (h : f.frame.reqId = q.reqId) :
    (q.extend f h).pushes = q.pushes ++ [f.push] := by
  simp [pushes, chunks, extend]

end Sequence

/-- A chunk joins the sequence of its request id, or begins one. -/
def join {key : Bytes32} (inflight : Option (Sequence key)) (f : Chunk key) : Sequence key :=
  match inflight with
  | some q => if h : f.frame.reqId = q.reqId then q.extend f h else .start f
  | none => .start f

/-- The chunks of a body so far: in order, each announcing more, and fewer bytes than declared. -/
def Beginning (ps : List Push) : Prop :=
  ∃ total digest, InOrder ps total digest ∧ Wire.Bounded INFER_BODY_CAP total ∧
    (∀ p ∈ ps, p.1.more = true) ∧ (concat ps).length < total.toNat

/-- A request that is due an answer. -/
inductive Request (key : Bytes32) where
  | echo (req : InferFrame)
  | body (q : Sequence key)

structure Desk (key : Bytes32) where
  inflight : Option (Sequence key)
  requests : List (Request key)

open Classical in
noncomputable def Desk.settle {key : Bytes32} (d : Desk key) (q : Sequence key) : Desk key :=
  if ∃ n, InferAssembler.Delivered INFER_BODY_CAP q.pushes n then ⟨none, d.requests ++ [.body q]⟩
  else if Beginning q.pushes then { d with inflight := some q }
  else { d with inflight := none }

namespace Desk

variable {key : Bytes32} {d : Desk key} {q : Sequence key}

theorem settle_whole {n : Nat} (h : InferAssembler.Delivered INFER_BODY_CAP q.pushes n) :
    d.settle q = ⟨none, d.requests ++ [.body q]⟩ := if_pos ⟨n, h⟩

theorem settle_beginning (h : Beginning q.pushes)
    (hnot : ¬∃ n, InferAssembler.Delivered INFER_BODY_CAP q.pushes n) :
    d.settle q = { d with inflight := some q } := (if_neg hnot).trans (if_pos h)

theorem settle_broken (h : ¬Beginning q.pushes)
    (hnot : ¬∃ n, InferAssembler.Delivered INFER_BODY_CAP q.pushes n) :
    d.settle q = { d with inflight := none } := (if_neg hnot).trans (if_neg h)

end Desk

noncomputable def Desk.step {key : Bytes32} (d : Desk key) (f : InferFrame) : Desk key :=
  if f.kind = Kind.ECHO_REQ then { d with requests := d.requests ++ [.echo f] }
  else
    match h : verifyInferReq key f with
    | none => d
    | some p => d.settle (join d.inflight ⟨f, p, h⟩)

/-- The requests of a whole stream. -/
noncomputable def requestsOf (key : Bytes32) (s : List UInt8) : List (Request key) :=
  (exec Desk.step (⟨none, []⟩ : Desk key) (referenceParse s)).requests

/-! ## The assembler and the desk -/

/-- From a proper beginning, a push completes, continues or breaks the sequence as the chunks
say. -/
theorem push_trichotomy {ps : List Push} {a : InferAssembler INFER_BODY_CAP} (ho : InferAssembler.Open ps a)
    (p : Push) : ∃ o a', a.pushChunk p.1 p.2 = some (o, a') ∧
      ((∃ n, o = .complete n ∧ InferAssembler.Delivered INFER_BODY_CAP (ps ++ [p]) n ∧
          a'.body.take n = concat (ps ++ [p])) ∨
        (o = .accepted ∧ InferAssembler.Open (ps ++ [p]) a' ∧ Beginning (ps ++ [p]) ∧
          ¬∃ n, InferAssembler.Delivered INFER_BODY_CAP (ps ++ [p]) n) ∨
        (o = .rejected ∧ ¬Beginning (ps ++ [p]) ∧
          ¬∃ n, InferAssembler.Delivered INFER_BODY_CAP (ps ++ [p]) n)) := by
  obtain ⟨o, a', hpush, hacc | ⟨n, rfl, hdel, -, hbuf, -⟩ | ⟨rfl, -, -, hno⟩⟩ := ho.push_cases p
  · obtain ⟨rfl, ho'⟩ := hacc
    refine ⟨_, a', hpush, .inr (.inl ⟨rfl, ho', ?_, fun ⟨n, hn⟩ => ho'.not_delivered n hn⟩)⟩
    obtain ⟨hlen, hbound⟩ := ho'.bound (by simp)
    refine ⟨_, _, ho'.inOrder, hbound, ho'.more, ?_⟩
    rw [← ho'.buf]
    exact hlen
  · refine ⟨_, a', hpush, .inl ⟨n, rfl, hdel, ?_⟩⟩
    rw [InferAssembler.body, hbuf, hdel.length, List.take_length]
  · refine ⟨_, a', hpush, .inr (.inr ⟨rfl, ?_, fun ⟨n, hn⟩ => hno [] n hn⟩)⟩
    rintro ⟨total, digest, hin, hbound, hmore, hlen⟩
    -- a beginning passes every guard, and `more` is set, so it would have been accepted
    obtain ⟨-, -, rfl, rfl, -⟩ := inOrder_snoc.mp hin
    have hm : p.1.more = true := hmore p (by simp)
    have hfits : InferAssembler.Fits a p := ho.fits_iff.mpr ⟨hin, hbound, by rwa [hm, if_pos rfl]⟩
    rw [InferAssembler.pushChunk_of_fits ho.live hfits hbound.2, if_pos hm] at hpush
    cases hpush

/-- A delivered body is one the mock answers. -/
theorem sendable_of_delivered {ps : List Push} {n : Nat}
    (h : InferAssembler.Delivered INFER_BODY_CAP ps n) : Sendable (concat ps) := by
  obtain ⟨total, digest, hw, hb, -⟩ := h
  constructor
  · obtain ⟨init, last, rfl, -, -⟩ := hw.more
    have hlast := (hw.inOrder.chunk last (by simp)).1
    rw [concat_append, concat_singleton, List.length_append]
    have := List.length_pos_iff.mpr hlast
    omega
  · rw [hw.length]
    exact hb.1

/-! ## The replies -/

/-- The frames of an answer and what trails them. -/
structure Reply where
  frames : List InferFrame
  trailer : List UInt8

def Reply.bytes (r : Reply) : List UInt8 := r.frames.flatMap encode ++ r.trailer

/-- The reply of a peer that answers bodies under the identity `peerOf`. -/
def reply (c : Custody) (lane : UInt8) (peerOf : List UInt8 → UInt8) : Request c.key → Reply
  | .echo req => ⟨[echoResp c lane req], c.key.val⟩
  | .body q => ⟨bodyFrames c lane (peerOf q.body) q.challenge q.reqId q.body, []⟩

/-- A lane answers every body of the right length with the frames `bodyFrames` gives. -/
def Answers (lane : Lane) (peerOf : List UInt8 → UInt8) : Prop :=
  ∀ (c : Custody) (challenge : Bytes16) (reqId : BitVec 64) (body : List UInt8), Sendable body →
    lane.answer c challenge reqId body =
      some ((bodyFrames c lane.peerId (peerOf body) challenge reqId body).flatMap encode)

/-- Bodies with the local sentinel are answered as the daemon. -/
def localPeer (lane : UInt8) (body : List UInt8) : UInt8 := if isLocal body then INFER_DAEMON else lane

theorem inferHost_answers : Answers inferHost (localPeer TB_VMM_HOST) :=
  fun _ _ _ _ h => serveWithLocal_eq h

theorem harness_answers : Answers harness (localPeer QEMU_CHARDEV_HARNESS) :=
  fun _ _ _ _ h => serveWithLocal_eq h

theorem chardevPeer_answers : Answers chardevPeer fun _ => QEMU_CHARDEV_HARNESS :=
  fun _ _ _ _ h => serveMock_eq h

/-! ## A peer refines the desk -/

section Refine

variable {lane : Lane} {peerOf : List UInt8 → UInt8} {c : Custody}

/-- The request in flight is the sequence on the desk. -/
def Holds (inflight : Option Inflight) (q : Option (Sequence c.key)) : Prop :=
  match inflight, q with
  | none, none => True
  | some fl, some q => fl.reqId = q.reqId ∧ fl.challenge = q.challenge ∧
      InferAssembler.Open q.pushes fl.asm
  | _, _ => False

/-- The sequence a chunk is pushed into, before the push. -/
def base (q : Option (Sequence c.key)) (f : InferFrame) : List Push :=
  match q with
  | some q => if f.reqId = q.reqId then q.pushes else []
  | none => []

theorem pushes_join (q : Option (Sequence c.key)) (f : Chunk c.key) :
    (join q f).pushes = base q f.frame ++ [f.push] := by
  cases q with
  | none => rfl
  | some q =>
      simp only [join, base]
      split
      · exact Sequence.pushes_extend _
      · rfl

/-- The restart rule and the join rule pick the same request. -/
theorem Holds.restart {inflight : Option Inflight} {q : Option (Sequence c.key)} (h : Holds inflight q)
    (f : Chunk c.key) : (inflightFor inflight f.frame).reqId = (join q f).reqId ∧
      (inflightFor inflight f.frame).challenge = (join q f).challenge ∧
      InferAssembler.Open (base q f.frame) (inflightFor inflight f.frame).asm := by
  cases inflight with
  | none =>
      cases q with
      | none => exact ⟨rfl, rfl, InferAssembler.open_new⟩
      | some q => exact h.elim
  | some fl =>
      cases q with
      | none => exact h.elim
      | some q =>
          obtain ⟨hid, hch, hopen⟩ := h
          by_cases hsame : f.frame.reqId = q.reqId
          · have hkeep : inflightFor (some fl) f.frame = fl := if_neg (not_not.mpr (hid.trans hsame.symm))
            rw [hkeep, base, if_pos hsame, join, dif_pos hsame]
            exact ⟨hid, hch, hopen⟩
          · have hnew : inflightFor (some fl) f.frame = ⟨f.frame.reqId, f.frame.challenge, .new⟩ :=
              if_pos fun heq => hsame (heq.symm.trans hid)
            rw [hnew, base, if_neg hsame, join, dif_neg hsame]
            exact ⟨rfl, rfl, InferAssembler.open_new⟩

/-- One chunk: the desk and the peer move together, and an answer is the reply to the body. -/
theorem serveInferReq_refines (ha : Answers lane peerOf) {inflight : Option Inflight}
    {d : Desk c.key} (hd : Holds inflight d.inflight) {f : InferFrame} {p : Push}
    (hv : verifyInferReq c.key f = some p) :
    ∃ inflight' rs, serveInferReq lane c inflight f =
        some (inflight', rs.flatMap fun r => (reply c lane.peerId peerOf r).bytes) ∧
      Holds inflight' (d.settle (join d.inflight ⟨f, p, hv⟩)).inflight ∧
      (d.settle (join d.inflight ⟨f, p, hv⟩)).requests = d.requests ++ rs := by
  obtain ⟨hid, hch, hopen⟩ := hd.restart ⟨f, p, hv⟩
  have hpushes : (join d.inflight ⟨f, p, hv⟩).pushes = base d.inflight f ++ [p] :=
    pushes_join d.inflight ⟨f, p, hv⟩
  have htri := push_trichotomy hopen p
  generalize join d.inflight ⟨f, p, hv⟩ = q at hid hch hpushes ⊢
  rw [← hpushes] at htri
  obtain ⟨o, asm, hpush, ⟨n, rfl, hdel, hbody⟩ | ⟨rfl, hopen', hbeg, hnot⟩ | ⟨rfl, hbeg, hnot⟩⟩ := htri
  · have hans := ha c (inflightFor inflight f).challenge (inflightFor inflight f).reqId q.body
      (sendable_of_delivered hdel)
    refine ⟨none, [.body q], ?_, ?_, ?_⟩
    · change asm.body.take n = q.body at hbody
      simp only [serveInferReq, hv, hpush, hbody, hans, List.flatMap_singleton, reply, Reply.bytes,
        List.append_nil, ← hid, ← hch]
      rfl
    · rw [Desk.settle_whole hdel]
      trivial
    · rw [Desk.settle_whole hdel]
  · refine ⟨some { inflightFor inflight f with asm := asm }, [], ?_, ?_, ?_⟩
    · simp only [serveInferReq, hv, hpush, List.flatMap_nil]
    · rw [Desk.settle_beginning hbeg hnot]
      exact ⟨hid, hch, hopen'⟩
    · rw [Desk.settle_beginning hbeg hnot, List.append_nil]
  · refine ⟨none, [], ?_, ?_, ?_⟩
    · simp only [serveInferReq, hv, hpush, List.flatMap_nil]
    · rw [Desk.settle_broken hbeg hnot]
      trivial
    · rw [Desk.settle_broken hbeg hnot, List.append_nil]

/-- One frame. -/
theorem serveFrame_refines (ha : Answers lane peerOf) {inflight : Option Inflight} {d : Desk c.key}
    (hd : Holds inflight d.inflight) {f : InferFrame} (hf : f.payload.length ≤ INFER_PAYLOAD_CAP) :
    ∃ inflight' rs, serveFrame lane c inflight (some f) =
        some (inflight', rs.flatMap fun r => (reply c lane.peerId peerOf r).bytes) ∧
      Holds inflight' (d.step f).inflight ∧ (d.step f).requests = d.requests ++ rs := by
  rw [serveFrame, Desk.step]
  split
  case isTrue hk =>
    refine ⟨inflight, [.echo f], ?_, hd, rfl⟩
    rw [serveEcho_eq _ hf]
    simp [reply, Reply.bytes]
  case isFalse hk =>
    split
    case isTrue hreq =>
      split
      case h_1 hv =>
        refine ⟨inflight, [], ?_, hd, by rw [List.append_nil]⟩
        simp only [serveInferReq, hv, List.flatMap_nil]
      case h_2 p hv => exact serveInferReq_refines ha hd hv
    case isFalse hreq =>
      split
      case h_1 => exact ⟨inflight, [], rfl, hd, by rw [List.append_nil]⟩
      case h_2 p hv => exact absurd (verifyInferReq_eq_some.mp hv).1 hreq

/-- The frames of a stream, one after another. -/
def serveFrames (lane : Lane) (c : Custody) :
    Option Inflight → List (Option InferFrame) → Option (Option Inflight × List UInt8)
  | inflight, [] => some (inflight, [])
  | inflight, f :: fs => do
      let (inflight', out) ← serveFrame lane c inflight f
      let (inflight'', outs) ← serveFrames lane c inflight' fs
      return (inflight'', out ++ outs)

theorem serveFrames_refines (ha : Answers lane peerOf) {fs : List InferFrame} {inflight : Option Inflight}
    {d : Desk c.key} (hd : Holds inflight d.inflight) (hfs : ∀ f ∈ fs, f.payload.length ≤ INFER_PAYLOAD_CAP) :
    ∃ inflight' rs, serveFrames lane c inflight (fs.map some) =
        some (inflight', rs.flatMap fun r => (reply c lane.peerId peerOf r).bytes) ∧
      (exec Desk.step d fs).requests = d.requests ++ rs := by
  induction fs generalizing inflight d with
  | nil => exact ⟨inflight, [], rfl, by rw [exec_nil, List.append_nil]⟩
  | cons f fs ih =>
      obtain ⟨fl, rs, hserve, hd', hrs⟩ := serveFrame_refines ha hd (hfs f List.mem_cons_self)
      obtain ⟨fl', rs', hserve', hrs'⟩ := ih hd' fun g hg => hfs g (List.mem_cons_of_mem _ hg)
      refine ⟨fl', rs ++ rs', ?_, by rw [exec_cons, hrs', hrs, List.append_assoc]⟩
      simp [serveFrames, hserve, hserve', List.flatMap_append]

/-- The loop over the bytes is the pump, and what becomes of the frames it emits. -/
theorem pushGuestBytes_eq (s : PeerState) (bytes : List UInt8) :
    pushGuestBytes lane c s bytes = (s.accum.pump bytes).bind fun out =>
      (serveFrames lane c s.inflight out.2).map fun r => ⟨out.1, r.1, s.outbuf ++ r.2⟩ := by
  induction bytes generalizing s with
  | nil => simp [pushGuestBytes, FrameAccum.pump, serveFrames]
  | cons b bytes ih =>
      rw [pushGuestBytes, FrameAccum.pump]
      cases hb : s.accum.pushByte b with
      | none => rfl
      | some out =>
          obtain ⟨accum, _ | n⟩ := out
          · exact ih { s with accum := accum }
          · simp only [Option.bind_map]
            cases hf : serveFrame lane c s.inflight (decode (accum.bytes.take n)) with
            | none =>
                cases (accum.consume n).pump bytes with
                | none => rfl
                | some out => simp [serveFrames, hf]
            | some r =>
                obtain ⟨inflight, o⟩ := r
                simp only [ih]
                cases (accum.consume n).pump bytes with
                | none => rfl
                | some out =>
                    cases hrest : serveFrames lane c inflight out.2 with
                    | none => simp [serveFrames, hf, hrest]
                    | some r' => simp [serveFrames, hf, hrest, List.append_assoc]

theorem pushGuestBytes_append (s : PeerState) (a b : List UInt8) :
    pushGuestBytes lane c s (a ++ b) = (pushGuestBytes lane c s a).bind fun s' =>
      pushGuestBytes lane c s' b := by
  induction a generalizing s with
  | nil => rfl
  | cons x a ih =>
      rw [List.cons_append, pushGuestBytes, pushGuestBytes]
      split
      · rfl
      · exact ih _
      · split
        · rfl
        · exact ih _

/-- How the stream is cut into reads makes no difference. -/
theorem serve_flatten (reads : List (List UInt8)) :
    serve lane c reads = pushGuestBytes lane c PeerState.new reads.flatten := by
  rw [serve]
  generalize PeerState.new = s
  induction reads generalizing s with
  | nil => rfl
  | cons r reads ih =>
      rw [List.foldlM_cons, List.flatten_cons, pushGuestBytes_append]
      exact congrArg _ (funext fun s' => ih s')

/-- A frame of the stream has a payload of the bounded length. -/
theorem payload_le_of_parsed (s : List UInt8) : ∀ f ∈ referenceParse s, f.payload.length ≤ INFER_PAYLOAD_CAP := by
  induction s using referenceParse.induct with
  | case1 => simp [referenceParse]
  | case2 b rest hv f hdec ih =>
      rw [referenceParse, if_pos hv, hdec]
      intro g hg
      rcases List.mem_cons.mp hg with rfl | hg
      · obtain ⟨hhead, hfull⟩ := valid_of_decode hdec
        have heq := decode_of_valid hhead hfull
        rw [hdec, Option.some.injEq] at heq
        rw [heq]
        exact Nat.le_trans (List.length_take_le _ _) (of_decide_eq_true hhead.encodable)
      · exact ih g hg
  | case3 b rest hv hdec =>
      rw [referenceParse, if_pos hv, hdec]
      simp
  | case4 b rest hv ih => rwa [referenceParse_of_invalid hv]

/-- A peer writes its replies to the requests of the stream, in order, and nothing else. -/
theorem serve_eq (ha : Answers lane peerOf) (reads : List (List UInt8)) :
    ∃ s, serve lane c reads = some s ∧ s.outbuf = (requestsOf c.key reads.flatten).flatMap fun r =>
      (reply c lane.peerId peerOf r).bytes := by
  obtain ⟨acc, hpump, -⟩ := pump_referenceParse (Nat.le_refl INFER_ACCUM_CAP) reads.flatten
  have hempty : Holds none (⟨none, []⟩ : Desk c.key).inflight := trivial
  obtain ⟨inflight, rs, hserve, hrs⟩ := serveFrames_refines ha hempty (payload_le_of_parsed reads.flatten)
  refine ⟨⟨acc, inflight, rs.flatMap fun r => (reply c lane.peerId peerOf r).bytes⟩, ?_, ?_⟩
  · rw [serve_flatten, pushGuestBytes_eq, PeerState.new, hpump]
    simp [hserve]
  · rw [requestsOf, hrs, List.nil_append]

end Refine

end Yuva.Peer
