/-
# `Yuva.Wire.Transport` — a body across the wire

The fixed chunk discipline of `tb-encode/src/inferwire.rs`, and the two ends it joins:

    body --chunks--> sub-header and chunk --tag, canon--> bytes of the stream
      byte --FrameAccum--> frame --verify--> sub-header and chunk --InferAssembler--> body

The receive loop is `pump` with what becomes of each frame (`receive_eq`).  So the ends
meet in the middle: what is pumped out of the stream are the frames put in, they verify
as the chunks they were made of, and the chunks are a whole body.
-/
import Yuva.Wire.Auth
import Yuva.Wire.Stream

namespace Yuva.Wire

open Yuva.Bytes Yuva.Hash

/-! ## The sending end -/

/-- The number of chunks, zero for a body that is empty or too long. -/
def inferChunkCount (totalLen : Nat) : Nat :=
  if totalLen = 0 ∨ totalLen > INFER_BODY_CAP then 0
  else (totalLen + (INFER_CHUNK_CAP - 1)) / INFER_CHUNK_CAP

/-- The length of the stream that carries a body. -/
def inferChunksWireLen (totalLen : Nat) : Nat :=
  let n := inferChunkCount totalLen
  if n = 0 then 0 else n * (INFER_HEADER_LEN + INFER_SUBHDR_LEN) + totalLen

/-- Where the chunk at `lo` ends. -/
def chunkEnd (body : List UInt8) (lo : Nat) : Nat := min (lo + INFER_CHUNK_CAP) body.length

/-- The `c`-th chunk under its sub-header. -/
def chunkAt (body : List UInt8) (c : Nat) : Push :=
  let lo := c * INFER_CHUNK_CAP
  let hi := chunkEnd body lo
  (⟨BitVec.ofNat 16 c, decide (hi < body.length), BitVec.ofNat 32 body.length, bodyDigest body⟩,
    slice body lo (hi - lo))

def chunks (body : List UInt8) : List Push := (List.range (inferChunkCount body.length)).map (chunkAt body)

/-- One end of a session: the key, and what its frames repeat. -/
structure Session where
  key : Bytes32
  peerId : UInt8
  nonce : Bytes16
  challenge : Bytes16
  reqId : BitVec 64

/-- A chunk as a tagged response frame. -/
def Session.frame (e : Session) (p : Push) : InferFrame where
  kind := Kind.INFER_RESP
  reqId := e.reqId
  challenge := e.challenge
  nonce := e.nonce
  peerId := e.peerId
  tag := inferTag e.key e.peerId e.nonce e.challenge e.reqId Kind.INFER_RESP p.1 p.2
  payload := (subhdrCanon p.1 (List.replicate INFER_SUBHDR_LEN 0)).2 ++ p.2

/-- What `canon` writes for a frame into a buffer of its length. -/
def wire (f : InferFrame) : List UInt8 := (canon f (List.replicate (wireLen f) 0)).2

/-- The stream that carries a body. -/
def Session.send (e : Session) (body : List UInt8) : List UInt8 :=
  ((chunks body).map fun p => wire (e.frame p)).flatten

/-! ## The receiving end -/

structure Receiver where
  acc : FrameAccum INFER_ACCUM_CAP
  asm : InferAssembler INFER_BODY_CAP
  completed : Option Nat

def Receiver.new : Receiver := ⟨.new, .new, none⟩

/-- What becomes of one emitted frame: decoded, verified, pushed.  `none` is a frame the
loop gives up on. -/
def Session.accept (e : Session) (asm : InferAssembler INFER_BODY_CAP) (completed : Option Nat)
    (frame : Option InferFrame) : Option (InferAssembler INFER_BODY_CAP × Option Nat) :=
  match frame with
  | none => none
  | some f =>
      match verifyInferResp e.key f e.reqId e.challenge with
      | none => none
      | some (sub, chunk) =>
          match asm.pushChunk sub chunk with
          | some (.accepted, asm') => some (asm', completed)
          | some (.complete n, asm') => some (asm', some n)
          | some (.rejected, _) => none
          | none => none

/-- The receive loop. -/
def Session.receive (e : Session) : Receiver → List UInt8 → Option Receiver
  | r, [] => some r
  | r, b :: s =>
      match r.acc.pushByte b with
      | none => none
      | some (acc, none) => e.receive { r with acc := acc } s
      | some (acc, some n) =>
          match e.accept r.asm r.completed (decode (acc.bytes.take n)) with
          | none => none
          | some (asm, completed) => e.receive ⟨acc.consume n, asm, completed⟩ s

/-- The frames of a stream, one after another. -/
def Session.acceptAll (e : Session) (asm : InferAssembler INFER_BODY_CAP) (completed : Option Nat) :
    List (Option InferFrame) → Option (InferAssembler INFER_BODY_CAP × Option Nat)
  | [] => some (asm, completed)
  | f :: fs =>
      match e.accept asm completed f with
      | none => none
      | some (asm', completed') => e.acceptAll asm' completed' fs

/-- The loop is the pump, and what becomes of the frames it emits. -/
theorem receive_eq (e : Session) (s : List UInt8) (r : Receiver) :
    e.receive r s = (r.acc.pump s).bind fun out =>
      (e.acceptAll r.asm r.completed out.2).map fun end' => ⟨out.1, end'.1, end'.2⟩ := by
  induction s generalizing r with
  | nil => rfl
  | cons b s ih =>
      rw [Session.receive, FrameAccum.pump]
      cases hb : r.acc.pushByte b with
      | none => rfl
      | some out =>
          obtain ⟨acc, _ | n⟩ := out
          · exact ih { r with acc := acc }
          · dsimp only
            rw [Option.bind_map]
            cases ha : e.accept r.asm r.completed (decode (acc.bytes.take n)) with
            | none =>
                dsimp only
                cases (acc.consume n).pump s with
                | none => rfl
                | some out =>
                    show none = _
                    simp only [Option.bind_some, Function.comp_apply, Session.acceptAll, ha, Option.map_none]
            | some end' =>
                obtain ⟨asm, completed⟩ := end'
                dsimp only
                rw [ih]
                cases (acc.consume n).pump s with
                | none => rfl
                | some out =>
                    simp only [Option.bind_some, Function.comp_apply, Session.acceptAll, ha]

/-! ## The chunks are a whole body -/

/-- A body the discipline has chunks for. -/
structure Sendable (body : List UInt8) : Prop where
  pos : 1 ≤ body.length
  le : body.length ≤ INFER_BODY_CAP

theorem chunkAt_snd (body : List UInt8) (c : Nat) :
    (chunkAt body c).2 = slice body (c * INFER_CHUNK_CAP) INFER_CHUNK_CAP := by
  show slice body _ (min (c * INFER_CHUNK_CAP + INFER_CHUNK_CAP) body.length - c * INFER_CHUNK_CAP) = _
  rw [slice, slice, ← Nat.sub_min_sub_right, Nat.add_sub_cancel_left, ← List.length_drop, ← List.take_take,
    List.take_length]

theorem concat_chunks_take (body : List UInt8) (n : Nat) :
    concat ((List.range n).map (chunkAt body)) = body.take (n * INFER_CHUNK_CAP) := by
  induction n with
  | zero => simp
  | succ n ih =>
      rw [List.range_succ, List.map_append, concat_append, ih, List.map_singleton, Nat.succ_mul, List.take_add]
      congr 1
      rw [concat_cons, concat_nil, List.append_nil]
      exact chunkAt_snd body n

variable {body : List UInt8}

/-- All chunks but the last are full, and the last is not empty. -/
theorem Sendable.count (h : Sendable body) : ∃ n, inferChunkCount body.length = n + 1 ∧
    n * INFER_CHUNK_CAP < body.length ∧ body.length ≤ (n + 1) * INFER_CHUNK_CAP := by
  have hpos := h.pos
  have hle := h.le
  refine ⟨(body.length - 1) / INFER_CHUNK_CAP, ?_, ?_, ?_⟩
  · rw [inferChunkCount, if_neg (by omega)]
    simp only [INFER_CHUNK_CAP, INFER_PAYLOAD_CAP, INFER_SUBHDR_LEN]
    omega
  · simp only [INFER_CHUNK_CAP, INFER_PAYLOAD_CAP, INFER_SUBHDR_LEN]
    omega
  · simp only [INFER_CHUNK_CAP, INFER_PAYLOAD_CAP, INFER_SUBHDR_LEN]
    omega

theorem Sendable.concat (h : Sendable body) : concat (chunks body) = body := by
  obtain ⟨n, hcount, -, hle⟩ := h.count
  rw [chunks, concat_chunks_take, hcount, List.take_of_length_le hle]

theorem Sendable.total (h : Sendable body) : (BitVec.ofNat 32 body.length).toNat = body.length := by
  have hle := h.le
  rw [BitVec.toNat_ofNat, Nat.mod_eq_of_lt]
  exact Nat.lt_of_le_of_lt hle (by decide)

theorem Sendable.length_chunk (h : Sendable body) {c : Nat} (hc : c < inferChunkCount body.length) :
    (chunkAt body c).2.length ≠ 0 ∧ (chunkAt body c).2.length ≤ INFER_CHUNK_CAP := by
  obtain ⟨n, hcount, hlt, -⟩ := h.count
  have hmul : c * INFER_CHUNK_CAP ≤ n * INFER_CHUNK_CAP := Nat.mul_le_mul_right _ (by omega)
  rw [chunkAt_snd, slice, List.length_take, List.length_drop]
  simp only [INFER_CHUNK_CAP, INFER_PAYLOAD_CAP, INFER_SUBHDR_LEN] at *
  omega

theorem Sendable.inOrder (h : Sendable body) :
    InOrder (chunks body) (BitVec.ofNat 32 body.length) (bodyDigest body) where
  seq := by
    intro i p hp
    rw [chunks, List.getElem?_map, Option.map_eq_some_iff] at hp
    obtain ⟨c, hc, rfl⟩ := hp
    obtain ⟨hi, hget⟩ := List.getElem?_eq_some_iff.mp hc
    rw [List.getElem_range] at hget
    subst hget
    obtain ⟨n, hcount, hlt, -⟩ := h.count
    have hle := h.le
    rw [List.length_range, hcount] at hi
    simp only [INFER_CHUNK_CAP, INFER_PAYLOAD_CAP, INFER_SUBHDR_LEN, INFER_BODY_CAP] at hlt hle
    show (BitVec.ofNat 16 i).toNat = i
    rw [BitVec.toNat_ofNat]
    exact Nat.mod_eq_of_lt (by omega)
  total := by
    intro p hp
    obtain ⟨c, -, rfl⟩ := List.mem_map.mp hp
    rfl
  digest := by
    intro p hp
    obtain ⟨c, -, rfl⟩ := List.mem_map.mp hp
    rfl
  chunk := by
    intro p hp
    obtain ⟨c, hc, rfl⟩ := List.mem_map.mp hp
    obtain ⟨hne, hle⟩ := h.length_chunk (List.mem_range.mp hc)
    exact ⟨fun hnil => hne (List.length_eq_zero_iff.mpr hnil), hle⟩

theorem Sendable.wholeBody (h : Sendable body) :
    WholeBody (chunks body) (BitVec.ofNat 32 body.length) (bodyDigest body) where
  inOrder := h.inOrder
  more := by
    obtain ⟨n, hcount, hlt, hle⟩ := h.count
    refine ⟨(List.range n).map (chunkAt body), chunkAt body n, ?_, ?_, ?_⟩
    · rw [chunks, hcount, List.range_succ, List.map_append, List.map_singleton]
    · show decide (min (n * INFER_CHUNK_CAP + INFER_CHUNK_CAP) body.length < body.length) = false
      rw [Nat.succ_mul] at hle
      exact decide_eq_false (by omega)
    · intro p hp
      obtain ⟨c, hc, rfl⟩ := List.mem_map.mp hp
      show decide (min (c * INFER_CHUNK_CAP + INFER_CHUNK_CAP) body.length < body.length) = true
      have hmul : (c + 1) * INFER_CHUNK_CAP ≤ n * INFER_CHUNK_CAP :=
        Nat.mul_le_mul_right _ (List.mem_range.mp hc)
      rw [Nat.succ_mul] at hmul
      exact decide_eq_true (by omega)
  length := by rw [h.concat, h.total]
  digest := by rw [h.concat]

/-! ## The frames carry the chunks -/

theorem Sendable.bounded (h : Sendable body) {p : Push} (hp : p ∈ chunks body) : p.1.Bounded := by
  rw [SubHdr.Bounded, h.inOrder.total p hp]
  refine ⟨fun hzero => ?_, by rw [h.total]; exact h.le⟩
  have hlen : 0 = body.length := by
    rw [← h.total, hzero]
    rfl
  exact Nat.ne_of_lt h.pos hlen

theorem payload_frame (e : Session) {p : Push} (hp : p.1.Bounded) :
    (e.frame p).payload = p.1.bytes ++ p.2 := by
  show (subhdrCanon p.1 _).2 ++ p.2 = _
  rw [subhdrCanon, if_neg (by rw [List.length_replicate]; exact Nat.lt_irrefl _),
    if_neg (not_or.mpr ⟨hp.1, Nat.not_lt.mpr hp.2⟩)]
  dsimp only
  rw [List.drop_of_length_le (Nat.le_of_eq List.length_replicate), List.append_nil]

theorem frame_encodable (e : Session) {p : Push} (hp : p.1.Bounded) (hc : p.2.length ≤ INFER_CHUNK_CAP) :
    Encodable (e.frame p) := by
  refine ⟨?_, rfl⟩
  rw [payload_frame e hp, List.length_append, p.1.length_bytes]
  simp only [INFER_CHUNK_CAP, INFER_PAYLOAD_CAP, INFER_SUBHDR_LEN] at *
  omega

/-- A tagged chunk verifies as the chunk it is. -/
theorem verify_frame (e : Session) {p : Push} (hp : p.1.Bounded) (hc : p.2 ≠ []) :
    verifyInferResp e.key (e.frame p) e.reqId e.challenge = some p := by
  refine verifyInferResp_eq_some.mpr ⟨rfl, rfl, rfl, ?_, rfl⟩
  rw [payload_frame e hp]
  exact parts_of_chunk (.inr rfl) hp hc

/-- An encodable frame fills a buffer of its length. -/
theorem canon_wireLen {f : InferFrame} (h : Encodable f) :
    canon f (List.replicate (wireLen f) 0) = (wireLen f, encode f) := by
  have hok : ¬ (!frameIsEncodable f.payload.length || !kindKnown f.kind) = true := by
    rw [frameIsEncodable, decide_eq_true h.1, h.2]
    exact Bool.noConfusion
  rw [canon, if_neg hok, if_neg (by rw [List.length_replicate]; exact Nat.lt_irrefl _), wireLen,
    List.drop_of_length_le (Nat.le_of_eq List.length_replicate), List.append_nil]

theorem send_eq (e : Session) (h : Sendable body) :
    e.send body = ((chunks body).map fun p => encode (e.frame p)).flatten := by
  rw [Session.send]
  refine congrArg List.flatten (List.map_congr_left fun p hp => ?_)
  rw [wire, canon_wireLen (frame_encodable e (h.bounded hp) (h.inOrder.chunk p hp).2)]

/-- A header and a sub-header for each chunk, and the bytes of the body once. -/
theorem length_frames {frame : Push → InferFrame} {ps : List Push}
    (h : ∀ p ∈ ps, (frame p).payload = p.1.bytes ++ p.2) :
    (ps.map fun p => encode (frame p)).flatten.length =
      ps.length * (INFER_HEADER_LEN + INFER_SUBHDR_LEN) + (concat ps).length := by
  induction ps with
  | nil => rfl
  | cons p ps ih =>
      rw [List.map_cons, List.flatten_cons, List.length_append, ih fun q hq => h q (List.mem_cons_of_mem _ hq),
        length_encode, h p List.mem_cons_self, canonLen, List.length_append,
        p.1.length_bytes, concat_cons, List.length_append, List.length_cons, Nat.succ_mul]
      omega

theorem length_chunks (body : List UInt8) : (chunks body).length = inferChunkCount body.length := by
  rw [chunks, List.length_map, List.length_range]

theorem Sendable.length_frames (h : Sendable body) {frame : Push → InferFrame}
    (hpayload : ∀ p ∈ chunks body, (frame p).payload = p.1.bytes ++ p.2) :
    ((chunks body).map fun p => encode (frame p)).flatten.length = inferChunksWireLen body.length := by
  obtain ⟨n, hcount, -⟩ := h.count
  rw [Wire.length_frames hpayload, length_chunks, h.concat, inferChunksWireLen,
    if_neg (by rw [hcount]; exact Nat.succ_ne_zero n)]

/-! ## Through the assembler -/

/-- What the loop keeps of an outcome. -/
def noted (completed : Option Nat) : AsmPush → Option Nat
  | .complete n => some n
  | _ => completed

theorem foldl_noted {outs : List AsmPush} {n : Nat} (completed : Option Nat)
    (h : outs.getLast? = some (.complete n)) : outs.foldl noted completed = some n := by
  obtain ⟨init, rfl⟩ := List.getLast?_eq_some_iff.mp h
  rw [List.foldl_append]
  rfl

theorem accept_frame {e : Session} {p : Push}
    (hv : verifyInferResp e.key (e.frame p) e.reqId e.challenge = some p)
    {asm asm' : InferAssembler INFER_BODY_CAP} {o : AsmPush} (hpush : asm.pushChunk p.1 p.2 = some (o, asm'))
    (ho : o ≠ .rejected) (completed : Option Nat) :
    e.accept asm completed (some (e.frame p)) = some (asm', noted completed o) := by
  rw [Session.accept, hv]
  dsimp only
  rw [hpush]
  cases o with
  | accepted => rfl
  | complete n => rfl
  | rejected => exact absurd rfl ho

/-- Frames that verify, none of them rejected, are pushed as one run. -/
theorem acceptAll_eq (e : Session) {ps : List Push}
    (hv : ∀ p ∈ ps, verifyInferResp e.key (e.frame p) e.reqId e.challenge = some p) :
    ∀ {asm asm' : InferAssembler INFER_BODY_CAP} {outs : List AsmPush} (completed : Option Nat),
      asm.pushAll ps = some (asm', outs) → AsmPush.rejected ∉ outs →
      e.acceptAll asm completed ((ps.map e.frame).map some) = some (asm', outs.foldl noted completed) := by
  induction ps with
  | nil =>
      intro asm asm' outs completed hrun _
      cases hrun
      rfl
  | cons p ps ih =>
      intro asm asm' outs completed hrun hno
      rw [InferAssembler.pushAll] at hrun
      cases hpush : asm.pushChunk p.1 p.2 with
      | none => rw [hpush] at hrun; cases hrun
      | some r =>
          obtain ⟨o, asm₁⟩ := r
          rw [hpush] at hrun
          obtain ⟨⟨asm₂, outs₂⟩, hrest, heq⟩ := Option.map_eq_some_iff.mp hrun
          cases heq
          have ho : o ≠ .rejected := fun h => hno (h ▸ List.mem_cons_self)
          rw [List.map_cons, List.map_cons, Session.acceptAll, accept_frame (hv p List.mem_cons_self) hpush ho]
          exact ih (fun q hq => hv q (List.mem_cons_of_mem _ hq)) (noted completed o) hrest
            fun h => hno (List.mem_cons_of_mem _ h)

/-- The assembler takes every chunk of a body, and the last completes it. -/
theorem Sendable.pushAll (h : Sendable body) : ∃ (asm : InferAssembler INFER_BODY_CAP) (outs : List AsmPush),
    InferAssembler.new.pushAll (chunks body) = some (asm, outs) ∧ AsmPush.rejected ∉ outs ∧
      outs.getLast? = some (.complete body.length) ∧ asm.body = body := by
  obtain ⟨asm, outs, hrun, hout⟩ :=
    InferAssembler.Open.pushAll_spec (chunks body) (@InferAssembler.open_new INFER_BODY_CAP)
  have hne : chunks body ≠ [] := by
    obtain ⟨init, last, heq, -⟩ := h.wholeBody.more
    rw [heq]
    exact List.append_ne_nil_of_right_ne_nil _ (List.cons_ne_nil _ _)
  have hcap : (BitVec.ofNat 32 body.length).toNat ≤ INFER_BODY_CAP := by
    rw [h.total]
    exact h.le
  have hlast : outs.getLast? = some (.complete body.length) :=
    (hout.complete_iff _).mpr ⟨hne, _, _, h.wholeBody, ⟨hcap, hcap⟩, h.total.symm⟩
  refine ⟨asm, outs, hrun, fun hrej => ?_, hlast, ?_⟩
  · -- a rejected chunk is followed by no `complete`
    obtain ⟨init, rfl⟩ := List.getLast?_eq_some_iff.mp hlast
    rcases List.mem_append.mp hrej with hin | hin
    · obtain ⟨i, hi⟩ := List.mem_iff_getElem?.mp hin
      have hlt := (List.getElem?_eq_some_iff.mp hi).1
      refine hout.rejected i init.length body.length ?_ hlt ?_
      · rw [List.getElem?_append_left hlt]
        exact hi
      · exact List.getElem?_concat_length
    · cases List.mem_singleton.mp hin
  · rw [hout.body _ hlast]
    exact h.concat

/-- A body of any length the discipline allows, in chunks, tagged, encoded and streamed,
is received whole; and the stream is as long as was announced. -/
theorem transport_delivers (e : Session) (body : List UInt8) (hpos : 1 ≤ body.length)
    (hle : body.length ≤ INFER_BODY_CAP) :
    (chunks body).length = inferChunkCount body.length ∧
    (e.send body).length = inferChunksWireLen body.length ∧
    ∃ r, e.receive .new (e.send body) = some r ∧ r.completed = some body.length ∧ r.asm.body = body := by
  have h : Sendable body := ⟨hpos, hle⟩
  refine ⟨length_chunks body, ?_, ?_⟩
  · rw [send_eq e h]
    exact h.length_frames fun p hp => payload_frame e (h.bounded hp)
  · obtain ⟨asm, outs, hrun, hno, hlast, hbody⟩ := h.pushAll
    have henc : ∀ f ∈ (chunks body).map e.frame, Encodable f := by
      intro f hf
      obtain ⟨p, hp, rfl⟩ := List.mem_map.mp hf
      exact frame_encodable e (h.bounded hp) (h.inOrder.chunk p hp).2
    have hparse : referenceParse (e.send body) = (chunks body).map e.frame := by
      rw [send_eq e h, ← referenceParse_encodes henc, List.map_map]
      rfl
    have hv : ∀ p ∈ chunks body, verifyInferResp e.key (e.frame p) e.reqId e.challenge = some p :=
      fun p hp => verify_frame e (h.bounded hp) (h.inOrder.chunk p hp).1
    obtain ⟨acc, hpump, -⟩ := pump_referenceParse (Nat.le_refl INFER_ACCUM_CAP) (e.send body)
    refine ⟨⟨acc, asm, outs.foldl noted none⟩, ?_, foldl_noted none hlast, hbody⟩
    rw [receive_eq, Receiver.new, hpump, Option.bind_some, hparse, acceptAll_eq e hv none hrun hno]
    rfl

/-- One byte more than a chunk holds. -/
theorem two_chunks_delivered :
    (chunks (List.replicate 1001 0x61)).length = 2 ∧
      ∃ r, (⟨zeros 32, 2, zeros 16, zeros 16, 7⟩ : Session).receive .new
          ((⟨zeros 32, 2, zeros 16, zeros 16, 7⟩ : Session).send (List.replicate 1001 0x61)) = some r ∧
        r.completed = some 1001 ∧ r.asm.body = List.replicate 1001 0x61 := by
  obtain ⟨hlen, -, r, hr, hdone, hbody⟩ := transport_delivers ⟨zeros 32, 2, zeros 16, zeros 16, 7⟩
    (List.replicate 1001 0x61) (by rw [List.length_replicate]; decide) (by rw [List.length_replicate]; decide)
  rw [List.length_replicate] at hlen hdone
  exact ⟨hlen.trans rfl, r, hr, hdone, hbody⟩

end Yuva.Wire
