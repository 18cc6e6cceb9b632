/-
# `Yuva.Op.Transcript` — the operator transcript

`tb-encode/src/opframe.rs`: the transcript frame, its canonical bytes, and the fold of the
frames into one operator head.

    magic 2 | ver 1 | kind 1 | sev 1 | partition 1 | reserved 1 (zero) | seq 8
    | t_logical 8 | prev_head 32 | payload_len 4 | payload

A frame of the held-out partition has no encoding, and a frame without one does not move
the head.  The chain hash is any function; what is assumed of it is that it separates the
byte strings the two folds hash.

**Proved here.**  Two transcripts of emitted frames, numbered from zero, with one head are
the same, as long as neither is empty or both are (`transcript_determined`).  Whether some
hash leads a frame back to the head it started from is nothing injectivity excludes.
-/
import Mathlib.Data.List.Nodup
import Yuva.Mem.Chains

namespace Yuva.Op

open Yuva.Bytes Yuva.Mem

def OPFRAME_VER : UInt8 := 1
def OPFRAME_MAGIC : Nat := 0x5956
def OPFRAME_HEADER_LEN : Nat := 59
def SEV_MIN : UInt8 := 1
def SEV_MAX : UInt8 := 24

namespace Frame

def INTRO : UInt8 := 1
def MARKER : UInt8 := 2
def EXPERIENCE_DIGEST : UInt8 := 3
def GATE_VERDICT : UInt8 := 4

def CANDIDATE : UInt8 := 0

def OFF_MAGIC : Nat := 0
def OFF_VER : Nat := 2
def OFF_KIND : Nat := 3
def OFF_SEV : Nat := 4
def OFF_PARTITION : Nat := 5
def OFF_RESERVED : Nat := 6
def OFF_SEQ : Nat := 7
def OFF_TLOGICAL : Nat := 15
def OFF_PREV_HEAD : Nat := 23
def OFF_PAYLOAD_LEN : Nat := 55
def OFF_PAYLOAD : Nat := 59

end Frame

@[ext] structure OpFrame where
  kind : UInt8
  sev : UInt8
  partitionId : UInt8
  seq : BitVec 64
  tLogical : BitVec 64
  prevHead : Block 32
  payload : List UInt8
  deriving DecidableEq

namespace OpFrame

def canonLen (f : OpFrame) : Nat := OPFRAME_HEADER_LEN + f.payload.length

/-- Only the candidate partition may leave. -/
def frameIsEmittable (f : OpFrame) : Bool :=
  let kindOk := f.kind == Frame.INTRO || f.kind == Frame.MARKER || f.kind == Frame.EXPERIENCE_DIGEST ||
    f.kind == Frame.GATE_VERDICT
  let sevOk := decide (SEV_MIN ≤ f.sev) && decide (f.sev ≤ SEV_MAX)
  let partitionOk := f.partitionId == Frame.CANDIDATE
  kindOk && sevOk && partitionOk

/-! ## Encoding -/

/-- The fields `canon` stores, in the order of their offsets. -/
def fields (f : OpFrame) : List (List UInt8) :=
  [le 2 OPFRAME_MAGIC, [OPFRAME_VER], [f.kind], [f.sev], [f.partitionId], [0], le 8 f.seq.toNat,
    le 8 f.tLogical.toNat, f.prevHead.val, le 4 f.payload.length, f.payload]

def encode (f : OpFrame) : List UInt8 := f.fields.flatten

/-- The number of bytes written, zero when nothing is, and the buffer after. -/
def canon (f : OpFrame) (out : List UInt8) : Nat × List UInt8 :=
  if !f.frameIsEmittable then (0, out)
  else if f.payload.length > 2 ^ 32 - 1 then (0, out)
  else if out.length < f.canonLen then (0, out)
  else (f.canonLen, f.encode ++ out.drop f.canonLen)

/-- What `canon` asks before it writes into a buffer of `n` bytes. -/
structure Emitted (n : Nat) (f : OpFrame) : Prop where
  emittable : f.frameIsEmittable = true
  payload : f.payload.length < 2 ^ 32
  fits : f.canonLen ≤ n

instance (n : Nat) (f : OpFrame) : Decidable (f.Emitted n) :=
  decidable_of_iff (f.frameIsEmittable = true ∧ f.payload.length < 2 ^ 32 ∧ f.canonLen ≤ n)
    ⟨fun h => ⟨h.1, h.2.1, h.2.2⟩, fun h => ⟨h.emittable, h.payload, h.fits⟩⟩

theorem length_encode (f : OpFrame) : f.encode.length = f.canonLen := by
  simp only [encode, fields, canonLen, OPFRAME_HEADER_LEN, List.flatten_cons, List.flatten_nil,
    List.length_append, length_le, List.length_cons, List.length_nil, f.prevHead.property]
  omega

theorem canon_of_emitted {f : OpFrame} {out : List UInt8} (h : f.Emitted out.length) :
    f.canon out = (f.canonLen, f.encode ++ out.drop f.canonLen) := by
  have hplen := h.payload
  have hfits := h.fits
  rw [canon, if_neg (by simp [h.emittable]), if_neg (by omega), if_neg (by omega)]

theorem emitted_iff {f : OpFrame} {out : List UInt8} : (f.canon out).1 ≠ 0 ↔ f.Emitted out.length := by
  constructor
  · intro h
    unfold canon at h
    split at h
    · exact absurd rfl h
    · split at h
      · exact absurd rfl h
      · split at h
        · exact absurd rfl h
        · rename_i hemit hplen hlen
          exact ⟨by simpa using hemit, by omega, by omega⟩
  · intro h
    rw [canon_of_emitted h]
    simp [canonLen, OPFRAME_HEADER_LEN]

/-- No write changes the length of the buffer. -/
theorem length_canon (f : OpFrame) (out : List UInt8) : (f.canon out).2.length = out.length := by
  unfold canon
  split
  · rfl
  · split
    · rfl
    · split
      · rfl
      · rename_i hlen
        rw [List.length_append, f.length_encode, List.length_drop]
        omega

end OpFrame

/-! ## Decoding -/

namespace Frame

def payloadLen (buf : List UInt8) : Nat := unle (slice buf OFF_PAYLOAD_LEN 4)

def unpack (buf : List UInt8) : OpFrame where
  kind := buf.getD OFF_KIND 0
  sev := buf.getD OFF_SEV 0
  partitionId := buf.getD OFF_PARTITION 0
  seq := .ofNat 64 (unle (slice buf OFF_SEQ 8))
  tLogical := .ofNat 64 (unle (slice buf OFF_TLOGICAL 8))
  prevHead := fixed buf OFF_PREV_HEAD 32
  payload := slice buf OFF_PAYLOAD (payloadLen buf)

def decode (buf : List UInt8) : Option OpFrame :=
  if buf.length < OPFRAME_HEADER_LEN then none
  else if unle (slice buf OFF_MAGIC 2) ≠ OPFRAME_MAGIC then none
  else if buf.getD OFF_VER 0 ≠ OPFRAME_VER then none
  else if buf.getD OFF_RESERVED 0 ≠ 0 then none
  else if buf.length < OFF_PAYLOAD + payloadLen buf then none
  else if !(unpack buf).frameIsEmittable then none
  else some (unpack buf)

/-- What was emitted decodes to the frame, whatever stands behind it. -/
theorem decode_encode {n : Nat} {f : OpFrame} (h : f.Emitted n) (s : List UInt8) :
    decode (f.encode ++ s) = some f := by
  have field : ∀ {i : Nat} {x : List UInt8} {off n : Nat}, f.fields[i]? = some x →
      (f.fields.take i).flatten.length = off → x.length = n →
      slice (f.encode ++ s) off n = x := slice_field s
  have hprev := f.prevHead.property
  have hlen : (f.encode ++ s).length = 59 + f.payload.length + s.length := by
    rw [List.length_append, f.length_encode]
    rfl
  have hpl : payloadLen (f.encode ++ s) = f.payload.length := by
    rw [payloadLen, field (i := 9) rfl (by simp [OpFrame.fields, hprev, OFF_PAYLOAD_LEN]) (length_le 4 _), unle_le]
    exact Nat.mod_eq_of_lt h.payload
  have hmagic : slice (f.encode ++ s) OFF_MAGIC 2 = le 2 OPFRAME_MAGIC := field (i := 0) rfl rfl rfl
  have hver : (f.encode ++ s).getD OFF_VER 0 = OPFRAME_VER := getD_of_slice (field (i := 1) rfl rfl rfl)
  have hkind : (f.encode ++ s).getD OFF_KIND 0 = f.kind := getD_of_slice (field (i := 2) rfl rfl rfl)
  have hsev : (f.encode ++ s).getD OFF_SEV 0 = f.sev := getD_of_slice (field (i := 3) rfl rfl rfl)
  have hpart : (f.encode ++ s).getD OFF_PARTITION 0 = f.partitionId :=
    getD_of_slice (field (i := 4) rfl rfl rfl)
  have hres : (f.encode ++ s).getD OFF_RESERVED 0 = 0 := getD_of_slice (field (i := 5) rfl rfl rfl)
  have hseq : slice (f.encode ++ s) OFF_SEQ 8 = le 8 f.seq.toNat := field (i := 6) rfl rfl (length_le 8 _)
  have htime : slice (f.encode ++ s) OFF_TLOGICAL 8 = le 8 f.tLogical.toNat :=
    field (i := 7) rfl rfl (length_le 8 _)
  have hhead : slice (f.encode ++ s) OFF_PREV_HEAD 32 = f.prevHead.val := field (i := 8) rfl rfl hprev
  have hpay : slice (f.encode ++ s) OFF_PAYLOAD f.payload.length = f.payload :=
    field (i := 10) rfl (by simp [OpFrame.fields, hprev, OFF_PAYLOAD]) rfl
  have hunpack : unpack (f.encode ++ s) = f := by
    simp only [OpFrame.ext_iff, unpack, hseq, htime, hpl, hpay]
    refine ⟨hkind, hsev, hpart, ofNat_unle_le rfl _, ofNat_unle_le rfl _, Subtype.ext ?_, trivial⟩
    rw [fixed_val (by rw [hlen]; simp only [OFF_PREV_HEAD]; omega), hhead]
  rw [decode, if_neg (by rw [hlen]; simp only [OPFRAME_HEADER_LEN]; omega), if_neg (by rw [hmagic]; decide),
    if_neg (not_not.mpr hver), if_neg (not_not.mpr hres),
    if_neg (by rw [hlen, hpl]; simp only [OFF_PAYLOAD]; omega), hunpack, if_neg (by simp [h.emittable])]

end Frame

/-- An encoding determines its frame. -/
theorem OpFrame.encode_inj {n m : Nat} {f g : OpFrame} (hf : f.Emitted n) (hg : g.Emitted m)
    (h : f.encode = g.encode) : f = g := by
  have hdec := Frame.decode_encode hf []
  rw [h, Frame.decode_encode hg []] at hdec
  exact (Option.some.inj hdec).symm

/-! ## The fold -/

section Fold

variable (hash : List UInt8 → Block 32)

def chainMix (head id : Block 32) : Block 32 := hash (Prov.mixBytes (head, id))

/-- The new head and the frame's id, if there is an encoding, and the scratch buffer. -/
def foldFrame (head : Block 32) (f : OpFrame) (scratch : List UInt8) :
    Option (Block 32 × Block 32) × List UInt8 :=
  let (n, scratch) := f.canon scratch
  if n = 0 then (none, scratch)
  else
    let frameId := hash (scratch.take n)
    (some (chainMix hash head frameId, frameId), scratch)

/-- The operator head after a run of frames; a frame that is turned away leaves it. -/
def opHead : Block 32 → List UInt8 → List OpFrame → Block 32
  | head, _, [] => head
  | head, scratch, f :: fs =>
      match foldFrame hash head f scratch with
      | (some (head', _), scratch') => opHead head' scratch' fs
      | (none, scratch') => opHead head scratch' fs

/-- `seqs[i] == i` for every index of the slice. -/
def seqIndexExact (seqs : List (BitVec 64)) : Bool :=
  (List.range seqs.length).all fun i => seqs.getD i 0 == BitVec.ofNat 64 i

/-- A slice of frames: its length fits a machine word. -/
structure Transcript where
  frames : List OpFrame
  length_lt : frames.length < 2 ^ 64

/-- The bytes the fold hashes: each frame's encoding, and each head with a frame's id. -/
def hashed (head : Block 32) (fs : List OpFrame) : List (List UInt8) :=
  fs.map OpFrame.encode ++
    (Chain.inputs (chainMix hash) head (fs.map fun f => hash f.encode)).map Prov.mixBytes

/-- The hash separates what the two folds hash. -/
def SeparatesFolds (head : Block 32) (fs gs : List OpFrame) : Prop :=
  ∀ x ∈ hashed hash head fs, ∀ y ∈ hashed hash head gs, hash x = hash y → x = y

variable {hash}

theorem foldFrame_of_emitted {head : Block 32} {f : OpFrame} {scratch : List UInt8}
    (h : f.Emitted scratch.length) : (foldFrame hash head f scratch).1 =
      some (chainMix hash head (hash f.encode), hash f.encode) := by
  have hne : f.canonLen ≠ 0 := by simp [OpFrame.canonLen, OPFRAME_HEADER_LEN]
  simp only [foldFrame, OpFrame.canon_of_emitted h, if_neg hne, List.take_left' f.length_encode]

theorem foldFrame_of_not_emitted {head : Block 32} {f : OpFrame} {scratch : List UInt8}
    (h : ¬f.Emitted scratch.length) : (foldFrame hash head f scratch).1 = none := by
  have hz : (f.canon scratch).1 = 0 := by
    by_contra hne
    exact h (OpFrame.emitted_iff.mp hne)
  simp only [foldFrame, hz, if_pos]

theorem length_scratch (head : Block 32) (f : OpFrame) (scratch : List UInt8) :
    (foldFrame hash head f scratch).2.length = scratch.length := by
  simp only [foldFrame]
  split <;> exact OpFrame.length_canon f scratch

/-- The head is the chain over the ids of the frames that have an encoding. -/
theorem opHead_eq_chain (head : Block 32) (scratch : List UInt8) (fs : List OpFrame) :
    opHead hash head scratch fs =
      Chain.head (chainMix hash) head ((fs.filter (·.Emitted scratch.length)).map fun f => hash f.encode) := by
  induction fs generalizing head scratch with
  | nil => rfl
  | cons f fs ih =>
      have hlen : (foldFrame hash head f scratch).2.length = scratch.length := length_scratch head f scratch
      obtain ⟨res, scratch', heq⟩ : ∃ res scratch', foldFrame hash head f scratch = (res, scratch') :=
        ⟨_, _, rfl⟩
      have hres : res = (foldFrame hash head f scratch).1 := by rw [heq]
      rw [heq] at hlen
      cases hf : decide (f.Emitted scratch.length) with
      | true =>
          rw [foldFrame_of_emitted (of_decide_eq_true hf)] at hres
          simp only [opHead, heq, hres, ih, hlen, List.filter_cons, hf, if_true, List.map_cons, Chain.head,
            List.foldl_cons]
      | false =>
          rw [foldFrame_of_not_emitted (of_decide_eq_false hf)] at hres
          simp only [opHead, heq, hres, ih, hlen, List.filter_cons, hf, Bool.false_eq_true, if_false]

/-- Frames that are not emittable leave the head where it is, wherever they stand. -/
theorem opHead_filter (head : Block 32) (scratch : List UInt8) (fs : List OpFrame) :
    opHead hash head scratch (fs.filter OpFrame.frameIsEmittable) = opHead hash head scratch fs := by
  have hsub : ∀ f : OpFrame, (decide (f.Emitted scratch.length) && f.frameIsEmittable) =
      decide (f.Emitted scratch.length) := by
    intro f
    cases hf : decide (f.Emitted scratch.length) with
    | false => rfl
    | true => exact (of_decide_eq_true hf).emittable
  rw [opHead_eq_chain, opHead_eq_chain, List.filter_filter]
  simp only [hsub]

theorem seqIndexExact_getElem {seqs : List (BitVec 64)} (h : seqIndexExact seqs = true) {i : Nat}
    (hi : i < seqs.length) : seqs[i] = BitVec.ofNat 64 i := by
  have hall := List.all_eq_true.mp h i (List.mem_range.mpr hi)
  rwa [beq_iff_eq, List.getD_eq_getElem _ _ hi] at hall

/-- The number of the last frame. -/
theorem seq_of_seqIndexExact {fs : List OpFrame} {f : OpFrame}
    (h : seqIndexExact ((fs ++ [f]).map OpFrame.seq) = true) : f.seq = BitVec.ofNat 64 fs.length := by
  have hget := seqIndexExact_getElem h (i := fs.length) (by simp)
  simpa using hget

theorem SeparatesFolds.collisionFree {head : Block 32} {fs gs : List OpFrame}
    (h : SeparatesFolds hash head fs gs) :
    Chain.CollisionFree (chainMix hash)
      (Chain.inputs (chainMix hash) head (fs.map fun f => hash f.encode))
      (Chain.inputs (chainMix hash) head (gs.map fun f => hash f.encode)) := by
  intro p hp q hq heq
  exact Prov.mixBytes_injective (h _ (List.mem_append_right _ (List.mem_map_of_mem hp)) _
    (List.mem_append_right _ (List.mem_map_of_mem hq)) heq)

/-- Frames with one id are the same frame. -/
theorem SeparatesFolds.frame_eq {head : Block 32} {n m : Nat} {fs gs : List OpFrame} {f g : OpFrame}
    (h : SeparatesFolds hash head fs gs) (hf : f ∈ fs) (hg : g ∈ gs) (hfn : f.Emitted n)
    (hgm : g.Emitted m) (hid : hash f.encode = hash g.encode) : f = g :=
  OpFrame.encode_inj hfn hgm
    (h _ (List.mem_append_left _ (List.mem_map_of_mem hf)) _
      (List.mem_append_left _ (List.mem_map_of_mem hg)) hid)

/-- Where the heads agree and neither transcript is empty, the last frames do, and they
name the length. -/
theorem length_eq_of_head_eq {head : Block 32} {n m : Nat} {t t' : Transcript}
    (ht : ∀ f ∈ t.frames, f.Emitted n) (ht' : ∀ f ∈ t'.frames, f.Emitted m)
    (hseq : seqIndexExact (t.frames.map OpFrame.seq) = true)
    (hseq' : seqIndexExact (t'.frames.map OpFrame.seq) = true)
    (hsep : SeparatesFolds hash head t.frames t'.frames) (hempty : t.frames = [] ↔ t'.frames = [])
    (hhead : Chain.head (chainMix hash) head (t.frames.map fun f => hash f.encode) =
      Chain.head (chainMix hash) head (t'.frames.map fun f => hash f.encode)) :
    t.frames.length = t'.frames.length := by
  obtain ⟨fs, hlt⟩ := t
  obtain ⟨gs, hlt'⟩ := t'
  simp only at *
  cases fs using List.reverseRecOn with
  | nil => rw [hempty.mp rfl]
  | append_singleton fs f =>
      cases gs using List.reverseRecOn with
      | nil => exact absurd (hempty.mpr rfl) (by simp)
      | append_singleton gs g =>
          have hfree := hsep.collisionFree
          simp only [List.map_append, List.map_cons, List.map_nil, Chain.inputs_snoc] at hfree
          simp only [List.map_append, List.map_cons, List.map_nil, Chain.head_snoc] at hhead
          obtain ⟨-, hid⟩ := Prod.mk.inj (hfree.last hhead)
          have hlast : f = g := hsep.frame_eq (by simp) (by simp) (ht f (by simp)) (ht' g (by simp)) hid
          have hnum : BitVec.ofNat 64 fs.length = BitVec.ofNat 64 gs.length := by
            rw [← seq_of_seqIndexExact hseq, ← seq_of_seqIndexExact hseq', hlast]
          have hmod := congrArg BitVec.toNat hnum
          simp only [List.length_append, List.length_cons, List.length_nil] at hlt hlt' ⊢
          rw [BitVec.toNat_ofNat, BitVec.toNat_ofNat, Nat.mod_eq_of_lt (by omega),
            Nat.mod_eq_of_lt (by omega)] at hmod
          omega

/-- Two numbered transcripts of emitted frames that reach one head from one head are the
same, unless just one of them is empty; and what is not emittable never moves the head. -/
theorem transcript_determined {head : Block 32} {scratch scratch' : List UInt8} {t t' : Transcript}
    (ht : ∀ f ∈ t.frames, (f.canon scratch).1 ≠ 0) (ht' : ∀ f ∈ t'.frames, (f.canon scratch').1 ≠ 0)
    (hseq : seqIndexExact (t.frames.map OpFrame.seq) = true)
    (hseq' : seqIndexExact (t'.frames.map OpFrame.seq) = true)
    (hsep : SeparatesFolds hash head t.frames t'.frames) (hempty : t.frames = [] ↔ t'.frames = [])
    (hhead : opHead hash head scratch t.frames = opHead hash head scratch' t'.frames) :
    t.frames = t'.frames ∧
      ∀ fs, opHead hash head scratch (fs.filter OpFrame.frameIsEmittable) = opHead hash head scratch fs := by
  refine ⟨?_, opHead_filter head scratch⟩
  have he : ∀ f ∈ t.frames, f.Emitted scratch.length := fun f hf => OpFrame.emitted_iff.mp (ht f hf)
  have he' : ∀ f ∈ t'.frames, f.Emitted scratch'.length := fun f hf => OpFrame.emitted_iff.mp (ht' f hf)
  rw [opHead_eq_chain, opHead_eq_chain, List.filter_eq_self.mpr (by simpa using he),
    List.filter_eq_self.mpr (by simpa using he')] at hhead
  have hlen := length_eq_of_head_eq he he' hseq hseq' hsep hempty hhead
  have hids := Chain.eq_of_head_eq (by rw [List.length_map, List.length_map, hlen]) hsep.collisionFree hhead
  refine List.ext_getElem hlen fun i hi hi' => ?_
  refine hsep.frame_eq (List.getElem_mem hi) (List.getElem_mem hi') (he _ (List.getElem_mem hi))
    (he' _ (List.getElem_mem hi')) ?_
  have hi? := congrArg (·[i]?) hids
  simpa [hi, hi'] using hi?

end Fold

/-- The opening frame of a transcript. -/
def introFrame : OpFrame := ⟨Frame.INTRO, 9, Frame.CANDIDATE, 0, 0, zeros 32, []⟩

/-- A marker behind it, and one of the held-out partition. -/
def markerFrame : OpFrame := ⟨Frame.MARKER, 1, Frame.CANDIDATE, 1, 5, zeros 32, [0x21]⟩
def heldOutFrame : OpFrame := { markerFrame with partitionId := 1 }

/-- A hash that leads from the zero head back to it. -/
def cyclicHash (bytes : List UInt8) : Block 32 :=
  if bytes.length = 65 then zeros 32 else ⟨List.replicate 32 1, List.length_replicate⟩

/-- An opening frame and a marker, encoded in scratch space of two sizes; the frame held out between
them does not move the head. -/
theorem transcript_determined_intro :
    let sent := [introFrame, heldOutFrame, markerFrame]
    (∀ f ∈ [introFrame, markerFrame], (f.canon (List.replicate 60 0)).1 ≠ 0) ∧
    SeparatesFolds Prov.provHash (zeros 32) (sent.filter OpFrame.frameIsEmittable) [introFrame, markerFrame] ∧
    sent.filter OpFrame.frameIsEmittable = [introFrame, markerFrame] ∧
    ∀ fs, opHead Prov.provHash (zeros 32) (List.replicate 90 0) (fs.filter OpFrame.frameIsEmittable) =
      opHead Prov.provHash (zeros 32) (List.replicate 90 0) fs := by
  intro sent
  let t : Transcript := ⟨sent.filter OpFrame.frameIsEmittable, by decide⟩
  let t' : Transcript := ⟨[introFrame, markerFrame], by decide⟩
  have hemit : ∀ f ∈ t.frames, (f.canon (List.replicate 90 0)).1 ≠ 0 := by decide
  have hemit' : ∀ f ∈ t'.frames, (f.canon (List.replicate 60 0)).1 ≠ 0 := by decide
  have hdistinct : ((hashed Prov.provHash (zeros 32) [introFrame, markerFrame]).map Prov.provHash).Nodup := by
    rw [Prov.provHash_eq_rfc]
    decide +kernel
  have hsep : SeparatesFolds Prov.provHash (zeros 32) t.frames t'.frames := fun x hx y hy heq =>
    List.inj_on_of_nodup_map hdistinct hx hy heq
  have hhead : opHead Prov.provHash (zeros 32) (List.replicate 90 0) t.frames =
      opHead Prov.provHash (zeros 32) (List.replicate 60 0) t'.frames := by
    rw [opHead_eq_chain, opHead_eq_chain]
    rfl
  obtain ⟨hframes, hheld⟩ := transcript_determined hemit hemit' (by decide) (by decide) hsep (by decide) hhead
  exact ⟨hemit', hsep, hframes, hheld⟩

/-- One frame, or none: under `cyclicHash`, which separates what is hashed, both transcripts
have the zero head. -/
theorem empty_transcript_undetermined :
    ∃ (hash : List UInt8 → Block 32) (head : Block 32) (scratch : List UInt8) (t t' : Transcript),
      (∀ f ∈ t.frames ++ t'.frames, (f.canon scratch).1 ≠ 0) ∧
      seqIndexExact (t.frames.map OpFrame.seq) = true ∧ seqIndexExact (t'.frames.map OpFrame.seq) = true ∧
      (∀ x ∈ hashed hash head (t.frames ++ t'.frames), ∀ y ∈ hashed hash head (t.frames ++ t'.frames),
        hash x = hash y → x = y) ∧
      opHead hash head scratch t.frames = opHead hash head scratch t'.frames ∧ t.frames ≠ t'.frames := by
  refine ⟨cyclicHash, zeros 32, List.replicate 59 0, ⟨[], by decide⟩, ⟨[introFrame], by decide⟩, ?_, ?_, ?_,
    ?_, ?_, ?_⟩
  · decide
  · decide
  · decide
  · decide
  · decide
  · decide

end Yuva.Op
