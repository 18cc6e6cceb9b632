/-
# `Yuva.Op.Command` — the inbound operator command

`tb-encode/src/opframe_rx.rs`: the command frame, its canonical bytes, the keyed MAC
over them and the verdict on a received buffer.

    magic 2 | ver 1 | kind 1 | reserved 1 (zero) | nonce 8 | op_head 32 | seq 8
    | cred_a 2 | cred_b 2 | payload_len 4 | payload | mac 16

The MAC trails the canonical bytes and is computed over them alone.  The keyed hash is
any function here.

**Proved here.**  A buffer is accepted exactly when it begins with the sealed encoding of
one command that is fresh, bound to the live head and carries two credentials
(`decodeAndVerify_accept_iff`).
-/
import Yuva.Hash.Khash

namespace Yuva.Op

open Yuva.Bytes

def CMD_VER : UInt8 := 1
def CMD_MAGIC : Nat := 0x5957
def CMD_HEADER_LEN : Nat := 61
def KEY_LEN : Nat := 32
def MAC_LEN : Nat := 16
def PROV_HASH_LEN : Nat := 32

/-- `"YUVA-OPCMD-KDF-V1"`. -/
def KDF_DOMAIN : List UInt8 :=
  [0x59, 0x55, 0x56, 0x41, 0x2d, 0x4f, 0x50, 0x43, 0x4d, 0x44, 0x2d, 0x4b, 0x44, 0x46, 0x2d, 0x56, 0x31]

namespace Cmd

def CHALLENGE_REQ : UInt8 := 1
def ACTIVATE_CMD : UInt8 := 2
def NOP : UInt8 := 3

def OFF_MAGIC : Nat := 0
def OFF_VER : Nat := 2
def OFF_KIND : Nat := 3
def OFF_RESERVED : Nat := 4
def OFF_NONCE : Nat := 5
def OFF_HEAD_BIND : Nat := 13
def OFF_SEQ : Nat := 45
def OFF_CRED_A : Nat := 53
def OFF_CRED_B : Nat := 55
def OFF_PAYLOAD_LEN : Nat := 57
def OFF_PAYLOAD : Nat := 61

def kindKnown (k : UInt8) : Bool := k == CHALLENGE_REQ || k == ACTIVATE_CMD || k == NOP

end Cmd

@[ext] structure CmdFrame where
  kind : UInt8
  nonceEcho : BitVec 64
  opHeadBind : Block PROV_HASH_LEN
  seq : BitVec 64
  credAId : BitVec 16
  credBId : BitVec 16
  payload : List UInt8
  mac : Block MAC_LEN
  deriving DecidableEq

namespace CmdFrame

def canonLen (f : CmdFrame) : Nat := CMD_HEADER_LEN + f.payload.length

def wireLen (f : CmdFrame) : Nat := f.canonLen + MAC_LEN

def frameIsEncodable (f : CmdFrame) : Bool := Cmd.kindKnown f.kind

/-! ## Encoding -/

/-- The fields `canon` stores, in the order of their offsets. -/
def fields (f : CmdFrame) : List (List UInt8) :=
  [le 2 CMD_MAGIC, [CMD_VER], [f.kind], [0], le 8 f.nonceEcho.toNat, f.opHeadBind.val, le 8 f.seq.toNat,
    le 2 f.credAId.toNat, le 2 f.credBId.toNat, le 4 f.payload.length, f.payload]

def encode (f : CmdFrame) : List UInt8 := f.fields.flatten

/-- The number of bytes written, zero when nothing is, and the buffer after. -/
def canon (f : CmdFrame) (out : List UInt8) : Nat × List UInt8 :=
  if !f.frameIsEncodable then (0, out)
  else if f.payload.length > 2 ^ 32 - 1 then (0, out)
  else if out.length < f.canonLen then (0, out)
  else (f.canonLen, f.encode ++ out.drop f.canonLen)

/-- Whether `canon` has an encoding for a frame. -/
structure Encodable (f : CmdFrame) : Prop where
  kind : Cmd.kindKnown f.kind = true
  payload : f.payload.length < 2 ^ 32

theorem length_encode (f : CmdFrame) : f.encode.length = f.canonLen := by
  simp only [encode, fields, canonLen, CMD_HEADER_LEN, List.flatten_cons, List.flatten_nil,
    List.length_append, length_le, List.length_cons, List.length_nil, f.opHeadBind.property, PROV_HASH_LEN]
  omega

theorem canon_of_encodable {f : CmdFrame} (h : f.Encodable) {out : List UInt8}
    (hout : f.canonLen ≤ out.length) : f.canon out = (f.canonLen, f.encode ++ out.drop f.canonLen) := by
  have hplen := h.payload
  rw [canon, if_neg (by simp [frameIsEncodable, h.kind]), if_neg (by omega), if_neg (by omega)]

theorem encodable_of_canon {f : CmdFrame} {out : List UInt8} (h : (f.canon out).1 ≠ 0) :
    f.Encodable ∧ f.canonLen ≤ out.length := by
  unfold canon at h
  split at h
  · exact absurd rfl h
  · split at h
    · exact absurd rfl h
    · split at h
      · exact absurd rfl h
      · rename_i hkind hplen hlen
        exact ⟨⟨by simpa [frameIsEncodable] using hkind, by omega⟩, by omega⟩

end CmdFrame

/-! ## Decoding -/

namespace Cmd

/-- The declared payload length. -/
def payloadLen (buf : List UInt8) : Nat := unle (slice buf OFF_PAYLOAD_LEN 4)

/-- The fields at their offsets, and the MAC behind the payload. -/
def unpack (buf : List UInt8) : CmdFrame where
  kind := buf.getD OFF_KIND 0
  nonceEcho := .ofNat 64 (unle (slice buf OFF_NONCE 8))
  opHeadBind := fixed buf OFF_HEAD_BIND PROV_HASH_LEN
  seq := .ofNat 64 (unle (slice buf OFF_SEQ 8))
  credAId := .ofNat 16 (unle (slice buf OFF_CRED_A 2))
  credBId := .ofNat 16 (unle (slice buf OFF_CRED_B 2))
  payload := slice buf OFF_PAYLOAD (payloadLen buf)
  mac := fixed buf (OFF_PAYLOAD + payloadLen buf) MAC_LEN

/-- The command a buffer begins with; bytes behind it are ignored. -/
def decode (buf : List UInt8) : Option CmdFrame :=
  if buf.length < CMD_HEADER_LEN + MAC_LEN then none
  else if unle (slice buf OFF_MAGIC 2) ≠ CMD_MAGIC then none
  else if buf.getD OFF_VER 0 ≠ CMD_VER then none
  else if buf.getD OFF_RESERVED 0 ≠ 0 then none
  else if !kindKnown (buf.getD OFF_KIND 0) then none
  else if buf.length < OFF_PAYLOAD + payloadLen buf + MAC_LEN then none
  else some (unpack buf)

/-- A decoded command stands at the front of the buffer, as `canon` writes it and with its
MAC behind. -/
theorem encode_of_decode {buf : List UInt8} {f : CmdFrame} (h : decode buf = some f) :
    f.Encodable ∧ f.encode ++ f.mac.val <+: buf := by
  simp only [decode, Option.ite_none_left_eq_some, not_not, ne_eq, Nat.not_lt, Bool.not_eq_true',
    Bool.not_eq_false, Option.some.injEq] at h
  obtain ⟨-, hmagic, hver, hres, hkind, hfull, rfl⟩ := h
  have hlen : 61 + payloadLen buf + 16 ≤ buf.length := hfull
  have hpl : payloadLen buf < 2 ^ 32 := by
    have hlt := unle_lt (slice buf OFF_PAYLOAD_LEN 4)
    rwa [length_slice (by simp only [OFF_PAYLOAD_LEN]; omega)] at hlt
  have hpayload : (slice buf OFF_PAYLOAD (payloadLen buf)).length = payloadLen buf :=
    length_slice (by simp only [OFF_PAYLOAD]; omega)
  refine ⟨⟨hkind, by rw [unpack, hpayload]; exact hpl⟩, ?_⟩
  have hfields : (unpack buf).fields ++ [(unpack buf).mac.val] =
      cuts buf 0 [2, 1, 1, 1, 8, 32, 8, 2, 2, 4, payloadLen buf, 16] := by
    have hb : ∀ off, off < buf.length → [buf.getD off 0] = slice buf off 1 :=
      fun off hoff => (slice_one hoff 0).symm
    simp only [CmdFrame.fields, unpack, cuts, List.cons_append, List.nil_append, List.cons.injEq,
      and_true, true_and, Nat.zero_add, Nat.reduceAdd, OFF_KIND, OFF_NONCE, OFF_HEAD_BIND, OFF_SEQ, OFF_CRED_A,
      OFF_CRED_B, OFF_PAYLOAD, PROV_HASH_LEN, MAC_LEN]
    refine ⟨le_unle_slice (by omega) hmagic, ?_, hb 3 (by omega), ?_, le_word_slice rfl (by omega),
      fixed_val (by omega), le_word_slice rfl (by omega), le_word_slice rfl (by omega),
      le_word_slice rfl (by omega), le_unle_slice (by omega) hpayload.symm, fixed_val (by omega)⟩
    · rw [← hver]
      exact hb 2 (by omega)
    · rw [← hres]
      exact hb 4 (by omega)
  have hwire : (unpack buf).encode ++ (unpack buf).mac.val = slice buf 0 (61 + payloadLen buf + 16) := by
    have hsum : [2, 1, 1, 1, 8, 32, 8, 2, 2, 4, payloadLen buf, 16].sum = 61 + payloadLen buf + 16 := by
      simp only [List.sum_cons, List.sum_nil]
      omega
    rw [CmdFrame.encode, ← List.flatten_singleton (l := (unpack buf).mac.val), ← List.flatten_append,
      hfields, flatten_cuts, hsum]
  rw [hwire, slice, List.drop_zero]
  exact List.take_prefix _ _

/-- A sealed command decodes to itself, whatever stands behind it. -/
theorem decode_encode {f : CmdFrame} (h : f.Encodable) (s : List UInt8) :
    decode (f.encode ++ f.mac.val ++ s) = some f := by
  have field : ∀ {i : Nat} {x : List UInt8} {off n : Nat}, f.fields[i]? = some x →
      (f.fields.take i).flatten.length = off → x.length = n →
      slice (f.encode ++ f.mac.val ++ s) off n = x := by
    intro i x off n hx hoff hn
    rw [List.append_assoc]
    exact slice_field _ hx hoff hn
  have hhead := f.opHeadBind.property
  have hlen : (f.encode ++ f.mac.val ++ s).length = 61 + f.payload.length + 16 + s.length := by
    simp only [List.length_append, CmdFrame.length_encode, CmdFrame.canonLen, f.mac.property]
    rfl
  have hpl : payloadLen (f.encode ++ f.mac.val ++ s) = f.payload.length := by
    rw [payloadLen, field (i := 9) rfl (by simp [CmdFrame.fields, hhead, OFF_PAYLOAD_LEN, PROV_HASH_LEN])
      (length_le 4 _), unle_le]
    exact Nat.mod_eq_of_lt h.payload
  have hmac : slice (f.encode ++ f.mac.val ++ s) (OFF_PAYLOAD + f.payload.length) MAC_LEN = f.mac.val := by
    rw [List.append_assoc]
    exact (slice_skip _ _ (Nat.le_of_eq f.length_encode)).trans
      ((congrArg (slice _ · _) (Nat.sub_eq_zero_of_le (Nat.le_of_eq f.length_encode.symm))).trans
        (slice_here _ _ f.mac.property))
  have hmagic : slice (f.encode ++ f.mac.val ++ s) OFF_MAGIC 2 = le 2 CMD_MAGIC := field (i := 0) rfl rfl rfl
  have hver : (f.encode ++ f.mac.val ++ s).getD OFF_VER 0 = CMD_VER :=
    getD_of_slice (field (i := 1) rfl rfl rfl)
  have hkind : (f.encode ++ f.mac.val ++ s).getD OFF_KIND 0 = f.kind :=
    getD_of_slice (field (i := 2) rfl rfl rfl)
  have hres : (f.encode ++ f.mac.val ++ s).getD OFF_RESERVED 0 = 0 :=
    getD_of_slice (field (i := 3) rfl rfl rfl)
  have hnonce : slice (f.encode ++ f.mac.val ++ s) OFF_NONCE 8 = le 8 f.nonceEcho.toNat :=
    field (i := 4) rfl rfl (length_le 8 _)
  have hbind : slice (f.encode ++ f.mac.val ++ s) OFF_HEAD_BIND PROV_HASH_LEN = f.opHeadBind.val :=
    field (i := 5) rfl rfl hhead
  have hseq : slice (f.encode ++ f.mac.val ++ s) OFF_SEQ 8 = le 8 f.seq.toNat :=
    field (i := 6) rfl (by simp [CmdFrame.fields, hhead, OFF_SEQ, PROV_HASH_LEN]) (length_le 8 _)
  have hcredA : slice (f.encode ++ f.mac.val ++ s) OFF_CRED_A 2 = le 2 f.credAId.toNat :=
    field (i := 7) rfl (by simp [CmdFrame.fields, hhead, OFF_CRED_A, PROV_HASH_LEN]) (length_le 2 _)
  have hcredB : slice (f.encode ++ f.mac.val ++ s) OFF_CRED_B 2 = le 2 f.credBId.toNat :=
    field (i := 8) rfl (by simp [CmdFrame.fields, hhead, OFF_CRED_B, PROV_HASH_LEN]) (length_le 2 _)
  have hpay : slice (f.encode ++ f.mac.val ++ s) OFF_PAYLOAD f.payload.length = f.payload :=
    field (i := 10) rfl (by simp [CmdFrame.fields, hhead, OFF_PAYLOAD, PROV_HASH_LEN]) rfl
  have hunpack : unpack (f.encode ++ f.mac.val ++ s) = f := by
    simp only [CmdFrame.ext_iff, unpack, hnonce, hseq, hcredA, hcredB, hpl, hpay]
    refine ⟨hkind, ofNat_unle_le rfl _, Subtype.ext ?_, ofNat_unle_le rfl _, ofNat_unle_le rfl _,
      ofNat_unle_le rfl _, trivial, Subtype.ext ?_⟩
    · rw [fixed_val (by rw [hlen]; simp only [OFF_HEAD_BIND, PROV_HASH_LEN]; omega), hbind]
    · rw [fixed_val (by rw [hlen]; simp only [OFF_PAYLOAD, MAC_LEN]; omega), hmac]
  rw [decode, if_neg (by rw [hlen]; simp only [CMD_HEADER_LEN, MAC_LEN]; omega), if_neg (by rw [hmagic]; decide),
    if_neg (not_not.mpr hver), if_neg (not_not.mpr hres), if_neg (by rw [hkind, h.kind]; decide),
    if_neg (by rw [hlen, hpl]; simp only [OFF_PAYLOAD, MAC_LEN]; omega), hunpack]

end Cmd

/-! ## The MAC and the verdict -/

/-- Both keys contribute to the session key, in order. -/
def computeMac (khash : Block KEY_LEN → List UInt8 → Block KEY_LEN) (keyA keyB : Block KEY_LEN)
    (canonBytes : List UInt8) : Block MAC_LEN :=
  let ks := khash keyA (KDF_DOMAIN ++ keyB.val)
  fixed (khash ks canonBytes).val 0 MAC_LEN

inductive CmdVerdict where
  | accept
  | malformed
  | notActivate
  | rejectStale
  | rejectWrongHead
  | rejectSingleCred
  | rejectBadMac
  deriving DecidableEq, Repr

def verifyDecoded (f : CmdFrame) (expectedNonce : BitVec 64) (liveHead : Block PROV_HASH_LEN)
    (macOk : Bool) : CmdVerdict :=
  if f.kind ≠ Cmd.ACTIVATE_CMD then .notActivate
  else if f.nonceEcho ≠ expectedNonce then .rejectStale
  else if f.opHeadBind ≠ liveHead then .rejectWrongHead
  else if f.credAId = f.credBId then .rejectSingleCred
  else if !macOk then .rejectBadMac
  else .accept

section Verify

variable (khash : Block KEY_LEN → List UInt8 → Block KEY_LEN)

def decodeAndVerify (buf : List UInt8) (expectedNonce : BitVec 64) (liveHead : Block PROV_HASH_LEN)
    (keyA keyB : Block KEY_LEN) (scratch : List UInt8) : CmdVerdict :=
  match Cmd.decode buf with
  | none => .malformed
  | some f =>
      let (n, scratch) := f.canon scratch
      let macOk := n != 0 && computeMac khash keyA keyB (scratch.take n) == f.mac
      verifyDecoded f expectedNonce liveHead macOk

/-- The number of bytes written and the buffer after; the frame's own MAC is not read. -/
def sealFrame (f : CmdFrame) (keyA keyB : Block KEY_LEN) (out : List UInt8) : Nat × List UInt8 :=
  if out.length < f.wireLen then (0, out)
  else
    let (n, out) := f.canon out
    if n = 0 then (0, out)
    else
      let mac := computeMac khash keyA keyB (out.take n)
      (n + MAC_LEN, out.take n ++ mac.val ++ out.drop (n + MAC_LEN))

/-- `w` is what `seal` writes for `f` into some buffer. -/
def SealedEncoding (keyA keyB : Block KEY_LEN) (f : CmdFrame) (w : List UInt8) : Prop :=
  ∃ out, (sealFrame khash f keyA keyB out).1 ≠ 0 ∧
    w = (sealFrame khash f keyA keyB out).2.take (sealFrame khash f keyA keyB out).1

/-- An activation that answers the challenge, is bound to the live head, names two
credentials and carries the MAC of the two keys. -/
structure Authorised (expectedNonce : BitVec 64) (liveHead : Block PROV_HASH_LEN)
    (keyA keyB : Block KEY_LEN) (f : CmdFrame) : Prop where
  kind : f.kind = Cmd.ACTIVATE_CMD
  nonce : f.nonceEcho = expectedNonce
  head : f.opHeadBind = liveHead
  creds : f.credAId ≠ f.credBId
  mac : f.mac = computeMac khash keyA keyB f.encode

variable {khash} {keyA keyB : Block KEY_LEN} {f : CmdFrame}

theorem sealedEncoding_iff {w : List UInt8} : SealedEncoding khash keyA keyB f w ↔
    f.Encodable ∧ w = f.encode ++ (computeMac khash keyA keyB f.encode).val := by
  have hwrite : ∀ out, f.Encodable → f.wireLen ≤ out.length →
      (sealFrame khash f keyA keyB out).1 = f.wireLen ∧
      (sealFrame khash f keyA keyB out).2.take f.wireLen =
        f.encode ++ (computeMac khash keyA keyB f.encode).val := by
    intro out henc hout
    have hroom : f.canonLen ≤ out.length := by
      simp only [CmdFrame.wireLen] at hout
      omega
    have hcanon := CmdFrame.canon_of_encodable henc hroom
    have hne : f.canonLen ≠ 0 := by simp [CmdFrame.canonLen, CMD_HEADER_LEN]
    have htake : (f.encode ++ out.drop f.canonLen).take f.canonLen = f.encode :=
      List.take_left' f.length_encode
    simp only [sealFrame, if_neg (Nat.not_lt.mpr hout), hcanon, if_neg hne, htake]
    refine ⟨rfl, List.take_left' ?_⟩
    rw [List.length_append, f.length_encode, (computeMac khash keyA keyB f.encode).property, CmdFrame.wireLen]
  constructor
  · rintro ⟨out, hne, rfl⟩
    have hout : f.wireLen ≤ out.length := by
      by_contra hlt
      exact hne (by rw [sealFrame, if_pos (Nat.lt_of_not_le hlt)])
    have henc : f.Encodable := by
      have hcanon : (f.canon out).1 ≠ 0 := by
        intro hz
        apply hne
        rw [sealFrame, if_neg (Nat.not_lt.mpr hout)]
        simp only [hz, if_pos]
      exact (CmdFrame.encodable_of_canon hcanon).1
    obtain ⟨hn, htake⟩ := hwrite out henc hout
    exact ⟨henc, by rw [hn, htake]⟩
  · rintro ⟨henc, rfl⟩
    obtain ⟨hn, htake⟩ := hwrite (List.replicate f.wireLen 0) henc (by rw [List.length_replicate])
    refine ⟨List.replicate f.wireLen 0, ?_, ?_⟩
    · rw [hn]
      simp [CmdFrame.wireLen, MAC_LEN]
    · rw [hn, htake]

theorem verifyDecoded_accept {nonce : BitVec 64} {head : Block PROV_HASH_LEN} {macOk : Bool} :
    verifyDecoded f nonce head macOk = .accept ↔ f.kind = Cmd.ACTIVATE_CMD ∧ f.nonceEcho = nonce ∧
      f.opHeadBind = head ∧ f.credAId ≠ f.credBId ∧ macOk = true := by
  unfold verifyDecoded
  split
  case isTrue hk => simp [hk]
  case isFalse hk =>
    split
    case isTrue hn => simp [hn]
    case isFalse hn =>
      split
      case isTrue hh => simp [hh]
      case isFalse hh =>
        split
        case isTrue hc => simp [hc]
        case isFalse hc => cases macOk <;> simp_all

/-- A sealed command at the front of a buffer is the one that is decoded. -/
theorem decode_of_sealed {buf w : List UInt8} {nonce : BitVec 64} {head : Block PROV_HASH_LEN}
    (hauth : Authorised khash nonce head keyA keyB f) (hw : SealedEncoding khash keyA keyB f w)
    (hpre : w <+: buf) : Cmd.decode buf = some f := by
  obtain ⟨s, rfl⟩ := hpre
  obtain ⟨henc, rfl⟩ := sealedEncoding_iff.mp hw
  rw [← hauth.mac]
  exact Cmd.decode_encode henc s

/-- A buffer is accepted exactly when it begins with an authorised command, sealed under the two
keys, and it begins with no two of them. -/
theorem decodeAndVerify_accept_iff {buf scratch : List UInt8} {nonce : BitVec 64} {head : Block PROV_HASH_LEN}
    (hscratch : ∀ f, Cmd.decode buf = some f → f.canonLen ≤ scratch.length) :
    (decodeAndVerify khash buf nonce head keyA keyB scratch = .accept ↔
      ∃ f, Authorised khash nonce head keyA keyB f ∧ ∃ w, SealedEncoding khash keyA keyB f w ∧ w <+: buf) ∧
    ∀ f g, (Authorised khash nonce head keyA keyB f ∧ ∃ w, SealedEncoding khash keyA keyB f w ∧ w <+: buf) →
      (Authorised khash nonce head keyA keyB g ∧ ∃ w, SealedEncoding khash keyA keyB g w ∧ w <+: buf) → f = g := by
  have haccept : ∀ f, Cmd.decode buf = some f →
      (decodeAndVerify khash buf nonce head keyA keyB scratch = .accept ↔
        Authorised khash nonce head keyA keyB f) := by
    intro f hf
    have hcanon := CmdFrame.canon_of_encodable (Cmd.encode_of_decode hf).1 (hscratch f hf)
    have hne : (f.canonLen != 0) = true := by simp [CmdFrame.canonLen, CMD_HEADER_LEN]
    have htake : (f.encode ++ scratch.drop f.canonLen).take f.canonLen = f.encode :=
      List.take_left' f.length_encode
    simp only [decodeAndVerify, hf, hcanon, verifyDecoded_accept, htake, hne, Bool.true_and, beq_iff_eq]
    constructor
    · rintro ⟨hkind, hnonce, hhead, hcreds, hmac⟩
      exact ⟨hkind, hnonce, hhead, hcreds, hmac.symm⟩
    · intro h
      exact ⟨h.kind, h.nonce, h.head, h.creds, h.mac.symm⟩
  refine ⟨⟨fun hacc => ?_, ?_⟩, ?_⟩
  · cases hf : Cmd.decode buf with
    | none => simp [decodeAndVerify, hf] at hacc
    | some f =>
        have hauth := (haccept f hf).mp hacc
        obtain ⟨henc, hpre⟩ := Cmd.encode_of_decode hf
        exact ⟨f, hauth, _, sealedEncoding_iff.mpr ⟨henc, rfl⟩, hauth.mac ▸ hpre⟩
  · rintro ⟨f, hauth, w, hw, hpre⟩
    exact (haccept f (decode_of_sealed hauth hw hpre)).mpr hauth
  · rintro f g ⟨hf, v, hv, hprev⟩ ⟨hg, w, hw, hprew⟩
    exact Option.some.inj ((decode_of_sealed hf hv hprev).symm.trans (decode_of_sealed hg hw hprew))

end Verify

/-- An activation without payload. -/
def blankCmd : CmdFrame := ⟨Cmd.ACTIVATE_CMD, 7, zeros PROV_HASH_LEN, 0, 1, 2, [], zeros MAC_LEN⟩

/-- The same under the keys `0…0` and `1…1`. -/
def sampleCmd : CmdFrame :=
  { blankCmd with
    mac := computeMac Hash.khash (zeros KEY_LEN) ⟨List.replicate KEY_LEN 1, rfl⟩ blankCmd.encode }

/-- It is accepted, and the buffer begins with no other. -/
theorem decodeAndVerify_accept_sample :
    decodeAndVerify Hash.khash (sampleCmd.encode ++ sampleCmd.mac.val) 7 (zeros PROV_HASH_LEN)
      (zeros KEY_LEN) ⟨List.replicate KEY_LEN 1, rfl⟩ (List.replicate CMD_HEADER_LEN 0) = .accept ∧
    ∀ g, (Authorised Hash.khash 7 (zeros PROV_HASH_LEN) (zeros KEY_LEN) ⟨List.replicate KEY_LEN 1, rfl⟩ g ∧
      ∃ w, SealedEncoding Hash.khash (zeros KEY_LEN) ⟨List.replicate KEY_LEN 1, rfl⟩ g w ∧
        w <+: sampleCmd.encode ++ sampleCmd.mac.val) → g = sampleCmd := by
  have henc : sampleCmd.Encodable := ⟨rfl, by decide⟩
  have hauth : Authorised Hash.khash 7 (zeros PROV_HASH_LEN) (zeros KEY_LEN)
      ⟨List.replicate KEY_LEN 1, rfl⟩ sampleCmd := by
    refine ⟨rfl, rfl, rfl, by decide, ?_⟩
    have hbytes : sampleCmd.encode = blankCmd.encode := by
      simp only [CmdFrame.encode, CmdFrame.fields, sampleCmd]
    rw [hbytes, sampleCmd]
  have hseal : SealedEncoding Hash.khash (zeros KEY_LEN) ⟨List.replicate KEY_LEN 1, rfl⟩ sampleCmd
      (sampleCmd.encode ++ sampleCmd.mac.val) := sealedEncoding_iff.mpr ⟨henc, by rw [hauth.mac]⟩
  have hbegins : Authorised Hash.khash 7 (zeros PROV_HASH_LEN) (zeros KEY_LEN) ⟨List.replicate KEY_LEN 1, rfl⟩
      sampleCmd ∧ ∃ w, SealedEncoding Hash.khash (zeros KEY_LEN) ⟨List.replicate KEY_LEN 1, rfl⟩ sampleCmd w ∧
        w <+: sampleCmd.encode ++ sampleCmd.mac.val := ⟨hauth, _, hseal, List.prefix_refl _⟩
  have hscratch : ∀ f, Cmd.decode (sampleCmd.encode ++ sampleCmd.mac.val) = some f →
      f.canonLen ≤ (List.replicate CMD_HEADER_LEN (0 : UInt8)).length := by
    intro f hf
    rw [decode_of_sealed hauth hseal (List.prefix_refl _), Option.some.injEq] at hf
    rw [← hf]
    decide
  exact ⟨(decodeAndVerify_accept_iff hscratch).1.mpr ⟨sampleCmd, hbegins⟩,
    fun g hg => (decodeAndVerify_accept_iff hscratch).2 g sampleCmd hg hbegins⟩

end Yuva.Op
