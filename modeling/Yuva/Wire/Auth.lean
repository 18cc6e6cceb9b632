/-
# `Yuva.Wire.Auth` — what a tag binds

The two keyed tags of `tb-encode/src/inferwire.rs` and the three verifiers.  Each tag is
the first half of one keyed hash, of a label and then

    echo     peer 1 | nonce 16 | challenge 16 | body
    infer    peer 1 | nonce 16 | challenge 16 | req_id 8 | kind 1 | seq 2 | sflags 1
             | total_len 4 | body_digest 16 | chunk

Everything in front of the body or the chunk has a fixed width, so the hashed bytes
determine the fields (`InferFields.msg_injective`, `EchoFields.msg_injective`), and the
labels keep the two apart (`msg_ne`).  The rest is the hash: on any set of inputs where
it does not collide, a frame verifies if and only if it carries the fields its tag was
made for.  The hash has finitely many values and cannot be injective outright.
-/
import Yuva.Hash.Feed
import Yuva.Wire.Chunk

namespace Yuva.Wire

open Yuva.Bytes Yuva.Hash

/-! ## The tags -/

def INFER_TAG_LEN : Nat := 16

def ECHO_DOMAIN : List UInt8 := "YUVA-M30-ECHO-V1".toUTF8.toList

def INFER_DOMAIN : List UInt8 := "YUVA-M31-INFER-V1".toUTF8.toList

theorem length_tag (d : Bytes32) : (d.val.take INFER_TAG_LEN).length = 16 := by
  rw [List.length_take, d.property]
  rfl

/-- The keyed hash, cut to the width of a tag. -/
def mac (key : Bytes32) (msg : List UInt8) : Bytes16 :=
  ⟨(khash key msg).val.take INFER_TAG_LEN, length_tag _⟩

/-- The fixed part of what `echo_tag` hashes. -/
def echoHeader (peerId : UInt8) (nonce challenge : Bytes16) : List (List UInt8) :=
  [ECHO_DOMAIN, [peerId], nonce.val, challenge.val]

def echoMsg (peerId : UInt8) (nonce challenge : Bytes16) (body : List UInt8) : List UInt8 :=
  (echoHeader peerId nonce challenge).flatten ++ body.take INFER_PAYLOAD_CAP

def echoTag (key : Bytes32) (peerId : UInt8) (nonce challenge : Bytes16) (body : List UInt8) : Bytes16 :=
  mac key (echoMsg peerId nonce challenge body)

/-- The fixed part of what `infer_tag` hashes. -/
def inferHeader (peerId : UInt8) (nonce challenge : Bytes16) (reqId : BitVec 64) (kind : UInt8)
    (sub : SubHdr) : List (List UInt8) :=
  [INFER_DOMAIN, [peerId], nonce.val, challenge.val, le 8 reqId.toNat, [kind], le 2 sub.seq.toNat,
    [sub.sflags], le 4 sub.totalLen.toNat, sub.bodyDigest.val]

def inferMsg (peerId : UInt8) (nonce challenge : Bytes16) (reqId : BitVec 64) (kind : UInt8)
    (sub : SubHdr) (chunk : List UInt8) : List UInt8 :=
  (inferHeader peerId nonce challenge reqId kind sub).flatten ++ chunk.take INFER_CHUNK_CAP

def inferTag (key : Bytes32) (peerId : UInt8) (nonce challenge : Bytes16) (reqId : BitVec 64) (kind : UInt8)
    (sub : SubHdr) (chunk : List UInt8) : Bytes16 :=
  mac key (inferMsg peerId nonce challenge reqId kind sub chunk)

/-! ## The verifiers -/

def respBindsReq (resp : InferFrame) (reqId : BitVec 64) : Bool :=
  resp.kind == Kind.ECHO_RESP && resp.reqId == reqId

def verifyEcho (key : Bytes32) (resp req : InferFrame) : Bool :=
  if !respBindsReq resp req.reqId then false
  else if resp.challenge ≠ req.challenge then false
  else if resp.payload ≠ req.payload then false
  else decide (echoTag key resp.peerId resp.nonce req.challenge resp.payload = resp.tag)

/-- The kinds a host answers an inference request with. -/
def isReply (kind : UInt8) : Bool :=
  kind == Kind.INFER_RESP || kind == Kind.INFER_PENDING || kind == Kind.ERR

def verifyInferResp (key : Bytes32) (frame : InferFrame) (reqId : BitVec 64) (challenge : Bytes16) :
    Option (SubHdr × List UInt8) :=
  if !isReply frame.kind then none
  else if frame.reqId ≠ reqId then none
  else if frame.challenge ≠ challenge then none
  else
    match inferPayloadParts frame.kind frame.payload with
    | none => none
    | some (sub, chunk) =>
        if inferTag key frame.peerId frame.nonce challenge reqId frame.kind sub chunk ≠ frame.tag then none
        else some (sub, chunk)

def verifyInferReq (key : Bytes32) (frame : InferFrame) : Option (SubHdr × List UInt8) :=
  if frame.kind ≠ Kind.INFER_REQ then none
  else if frame.nonce ≠ zeros 16 ∨ frame.peerId ≠ 0 then none
  else
    match inferPayloadParts frame.kind frame.payload with
    | none => none
    | some (sub, chunk) =>
        if inferTag key frame.peerId frame.nonce frame.challenge frame.reqId frame.kind sub chunk ≠ frame.tag
        then none
        else some (sub, chunk)

/-! ## What the hashed bytes determine -/

/-- The fields an inference tag is made for, the chunk one that a frame can carry. -/
structure InferFields where
  peerId : UInt8
  nonce : Bytes16
  challenge : Bytes16
  reqId : BitVec 64
  kind : UInt8
  sub : SubHdr
  chunk : List UInt8
  chunk_le : chunk.length ≤ INFER_CHUNK_CAP

/-- The fields an echo tag is made for, the body one that a frame can carry. -/
structure EchoFields where
  peerId : UInt8
  nonce : Bytes16
  challenge : Bytes16
  body : List UInt8
  body_le : body.length ≤ INFER_PAYLOAD_CAP

def InferFields.msg (x : InferFields) : List UInt8 :=
  inferMsg x.peerId x.nonce x.challenge x.reqId x.kind x.sub x.chunk

def InferFields.tag (x : InferFields) (key : Bytes32) : Bytes16 :=
  inferTag key x.peerId x.nonce x.challenge x.reqId x.kind x.sub x.chunk

def EchoFields.msg (y : EchoFields) : List UInt8 := echoMsg y.peerId y.nonce y.challenge y.body

def EchoFields.tag (y : EchoFields) (key : Bytes32) : Bytes16 :=
  echoTag key y.peerId y.nonce y.challenge y.body

theorem sflags_inj {b c : Bool} (h : (if b then 1 else 0 : UInt8) = if c then 1 else 0) : b = c := by
  revert h
  cases b <;> cases c <;> decide

theorem InferFields.msg_injective : Function.Injective InferFields.msg := by
  intro x y h
  obtain ⟨peerId, nonce, challenge, reqId, kind, ⟨seq, more, totalLen, bodyDigest⟩, chunk, hchunk⟩ := x
  obtain ⟨peerId', nonce', challenge', reqId', kind', ⟨seq', more', totalLen', bodyDigest'⟩, chunk',
    hchunk'⟩ := y
  have hwidths : (inferHeader peerId nonce challenge reqId kind ⟨seq, more, totalLen, bodyDigest⟩).map
      List.length = (inferHeader peerId' nonce' challenge' reqId' kind'
        ⟨seq', more', totalLen', bodyDigest'⟩).map List.length := by
    simp [inferHeader, nonce.property, nonce'.property, challenge.property, challenge'.property,
      bodyDigest.property, bodyDigest'.property]
  obtain ⟨hheader, hrest⟩ := fields_inj hwidths h
  simp only [inferHeader, List.cons.injEq, and_true, true_and, SubHdr.sflags] at hheader
  obtain ⟨hpeer, hnonce, hchal, hreq, hkind, hseq, hmore, htotal, hdigest⟩ := hheader
  dsimp only at hrest
  rw [List.take_of_length_le hchunk, List.take_of_length_le hchunk'] at hrest
  subst hpeer hkind hrest
  cases Subtype.ext hnonce
  cases Subtype.ext hchal
  cases Subtype.ext hdigest
  cases le_toNat_inj (k := 8) rfl hreq
  cases le_toNat_inj (k := 2) rfl hseq
  cases le_toNat_inj (k := 4) rfl htotal
  cases sflags_inj hmore
  rfl

theorem EchoFields.msg_injective : Function.Injective EchoFields.msg := by
  intro x y h
  obtain ⟨peerId, nonce, challenge, body, hbody⟩ := x
  obtain ⟨peerId', nonce', challenge', body', hbody'⟩ := y
  have hwidths : (echoHeader peerId nonce challenge).map List.length =
      (echoHeader peerId' nonce' challenge').map List.length := by
    simp [echoHeader, nonce.property, nonce'.property, challenge.property, challenge'.property]
  obtain ⟨hheader, hrest⟩ := fields_inj hwidths h
  simp only [echoHeader, List.cons.injEq, and_true, true_and] at hheader
  obtain ⟨hpeer, hnonce, hchal⟩ := hheader
  dsimp only at hrest
  rw [List.take_of_length_le hbody, List.take_of_length_le hbody'] at hrest
  subst hpeer hrest
  cases Subtype.ext hnonce
  cases Subtype.ext hchal
  rfl

/-- Neither label begins the other. -/
theorem msg_ne (x : InferFields) (y : EchoFields) : x.msg ≠ y.msg := by
  intro h
  have hx : INFER_DOMAIN <+: x.msg := by
    rw [InferFields.msg, inferMsg, inferHeader, List.flatten_cons, List.append_assoc]
    exact List.prefix_append _ _
  have hy : ECHO_DOMAIN <+: y.msg := by
    rw [EchoFields.msg, echoMsg, echoHeader, List.flatten_cons, List.append_assoc]
    exact List.prefix_append _ _
  rw [h] at hx
  have hle : ECHO_DOMAIN.length ≤ INFER_DOMAIN.length := by decide +kernel
  have hnot : ¬ ECHO_DOMAIN <+: INFER_DOMAIN := by decide +kernel
  exact hnot (List.prefix_of_prefix_length_le hy hx hle)

/-! ## What the verifiers ask -/

/-- Every field the tag covers is the one it was made for. -/
structure Carries (f : InferFrame) (x : InferFields) : Prop where
  peerId : f.peerId = x.peerId
  nonce : f.nonce = x.nonce
  challenge : f.challenge = x.challenge
  reqId : f.reqId = x.reqId
  kind : f.kind = x.kind
  parts : inferPayloadParts f.kind f.payload = some (x.sub, x.chunk)

structure CarriesEcho (f : InferFrame) (y : EchoFields) : Prop where
  peerId : f.peerId = y.peerId
  nonce : f.nonce = y.nonce
  challenge : f.challenge = y.challenge
  body : f.payload = y.body

/-- The fields a frame carries, if its payload parses. -/
def InferFrame.inferFields (f : InferFrame) (h : Encodable f) {sub : SubHdr} {chunk : List UInt8}
    (hp : inferPayloadParts f.kind f.payload = some (sub, chunk)) : InferFields :=
  ⟨f.peerId, f.nonce, f.challenge, f.reqId, f.kind, sub, chunk, chunk_le_of_parts hp h.1⟩

def InferFrame.echoFields (f : InferFrame) (h : Encodable f) : EchoFields :=
  ⟨f.peerId, f.nonce, f.challenge, f.payload, h.1⟩

/-- What a verifier hashes for a frame. -/
def InferFrame.inferInput (f : InferFrame) : Option (List UInt8) :=
  (inferPayloadParts f.kind f.payload).map fun p =>
    inferMsg f.peerId f.nonce f.challenge f.reqId f.kind p.1 p.2

def InferFrame.echoInput (f : InferFrame) : List UInt8 :=
  echoMsg f.peerId f.nonce f.challenge f.payload

theorem verifyInferResp_eq_some {key : Bytes32} {f : InferFrame} {reqId : BitVec 64} {challenge : Bytes16}
    {r : SubHdr × List UInt8} : verifyInferResp key f reqId challenge = some r ↔
      isReply f.kind = true ∧ f.reqId = reqId ∧ f.challenge = challenge ∧
        inferPayloadParts f.kind f.payload = some r ∧
        inferTag key f.peerId f.nonce f.challenge f.reqId f.kind r.1 r.2 = f.tag := by
  constructor
  · intro h
    rw [verifyInferResp, Option.ite_none_left_eq_some, Option.ite_none_left_eq_some,
      Option.ite_none_left_eq_some] at h
    obtain ⟨hkind, hreq, hchal, h⟩ := h
    rw [not_not] at hreq hchal
    subst hreq hchal
    split at h
    · cases h
    · next sub chunk hp =>
        rw [Option.ite_none_left_eq_some, not_not] at h
        obtain ⟨htag, hr⟩ := h
        cases hr
        exact ⟨by simpa using hkind, rfl, rfl, hp, htag⟩
  · rintro ⟨hkind, rfl, rfl, hp, htag⟩
    obtain ⟨sub, chunk⟩ := r
    rw [verifyInferResp, hkind, hp]
    dsimp only at htag ⊢
    rw [if_neg (not_not.mpr htag)]
    simp

theorem verifyInferReq_eq_some {key : Bytes32} {f : InferFrame} {r : SubHdr × List UInt8} :
    verifyInferReq key f = some r ↔
      f.kind = Kind.INFER_REQ ∧ f.nonce = zeros 16 ∧ f.peerId = 0 ∧
        inferPayloadParts f.kind f.payload = some r ∧
        inferTag key f.peerId f.nonce f.challenge f.reqId f.kind r.1 r.2 = f.tag := by
  constructor
  · intro h
    rw [verifyInferReq, Option.ite_none_left_eq_some, Option.ite_none_left_eq_some, not_or] at h
    obtain ⟨hkind, ⟨hnonce, hpeer⟩, h⟩ := h
    rw [not_not] at hkind hnonce hpeer
    split at h
    · cases h
    · next sub chunk hp =>
        rw [Option.ite_none_left_eq_some, not_not] at h
        obtain ⟨htag, hr⟩ := h
        cases hr
        exact ⟨hkind, hnonce, hpeer, hp, htag⟩
  · rintro ⟨hkind, hnonce, hpeer, hp, htag⟩
    obtain ⟨sub, chunk⟩ := r
    rw [verifyInferReq, if_neg (not_not.mpr hkind), if_neg (by simp [hnonce, hpeer]), hp]
    dsimp only at htag ⊢
    rw [if_neg (not_not.mpr htag)]

theorem verifyEcho_eq_true {key : Bytes32} {f req : InferFrame} : verifyEcho key f req = true ↔
    f.kind = Kind.ECHO_RESP ∧ f.reqId = req.reqId ∧ f.challenge = req.challenge ∧ f.payload = req.payload ∧
      echoTag key f.peerId f.nonce f.challenge f.payload = f.tag := by
  rw [verifyEcho, respBindsReq]
  constructor
  · intro h
    split at h
    · cases h
    · next hbind =>
        split at h
        · cases h
        · next hchal =>
            split at h
            · cases h
            · next hpay =>
                rw [not_not] at hchal hpay
                simp only [Bool.not_eq_true', Bool.not_eq_false, Bool.and_eq_true, beq_iff_eq] at hbind
                rw [← hchal] at h
                exact ⟨hbind.1, hbind.2, hchal, hpay, of_decide_eq_true h⟩
  · rintro ⟨hkind, hreq, hchal, hpay, htag⟩
    rw [if_neg (by simp [hkind, hreq]), if_neg (not_not.mpr hchal), if_neg (not_not.mpr hpay), ← hchal]
    exact decide_eq_true htag

/-! ## Binding -/

section Binding

-- inputs on which the keyed hash does not collide
variable {S : Set (Bytes32 × List UInt8)} (hS : S.InjOn (Function.uncurry mac))
include hS

/-- Of the inputs at hand only the one a tag was made from gives it. -/
theorem eq_of_mac_eq {key key₀ : Bytes32} {m m₀ : List UInt8} (hm : (key, m) ∈ S) (hm₀ : (key₀, m₀) ∈ S)
    (h : mac key m = mac key₀ m₀) : key = key₀ ∧ m = m₀ :=
  Prod.mk.inj (hS hm hm₀ h)

/-- The tag of a frame is right under a key exactly when it was made under that key, for
the fields the frame carries. -/
theorem inferTag_binds {key key₀ : Bytes32} {x : InferFields} {f : InferFrame} (hf : Encodable f)
    (htag : f.tag = x.tag key₀) (hx : (key₀, x.msg) ∈ S) (hin : ∀ m ∈ f.inferInput, (key, m) ∈ S)
    {r : SubHdr × List UInt8} (hp : inferPayloadParts f.kind f.payload = some r) :
    inferTag key f.peerId f.nonce f.challenge f.reqId f.kind r.1 r.2 = f.tag ↔
      key = key₀ ∧ Carries f x ∧ r = (x.sub, x.chunk) := by
  obtain ⟨sub, chunk⟩ := r
  have hmem : (key, (f.inferFields hf hp).msg) ∈ S := by
    refine hin _ ?_
    rw [InferFrame.inferInput, hp]
    rfl
  rw [htag]
  constructor
  · intro h
    obtain ⟨hkey, hmsg⟩ := eq_of_mac_eq hS hmem hx h
    have heq := InferFields.msg_injective hmsg
    subst heq
    exact ⟨hkey, ⟨rfl, rfl, rfl, rfl, rfl, hp⟩, rfl⟩
  · rintro ⟨rfl, ⟨hpeer, hnonce, hchal, hreq, hkind, -⟩, hr⟩
    cases hr
    rw [hpeer, hnonce, hchal, hreq, hkind]
    rfl

/-- A reply verifies exactly when it carries what its tag was made for, and that is a
reply to the request. -/
theorem verifyInferResp_iff {key key₀ : Bytes32} {x : InferFields} {f : InferFrame} (hf : Encodable f)
    (htag : f.tag = x.tag key₀) (hx : (key₀, x.msg) ∈ S) (hin : ∀ m ∈ f.inferInput, (key, m) ∈ S)
    (reqId : BitVec 64) (challenge : Bytes16) (r : SubHdr × List UInt8) :
    verifyInferResp key f reqId challenge = some r ↔
      key = key₀ ∧ Carries f x ∧ r = (x.sub, x.chunk) ∧
        isReply x.kind = true ∧ x.reqId = reqId ∧ x.challenge = challenge := by
  rw [verifyInferResp_eq_some]
  constructor
  · rintro ⟨hkind, rfl, rfl, hp, h⟩
    obtain ⟨hkey, hcar, hr⟩ := (inferTag_binds hS hf htag hx hin hp).mp h
    refine ⟨hkey, hcar, hr, ?_, hcar.reqId.symm, hcar.challenge.symm⟩
    rw [← hcar.kind]
    exact hkind
  · rintro ⟨hkey, hcar, rfl, hkind, rfl, rfl⟩
    have hp := hcar.parts
    refine ⟨?_, hcar.reqId, hcar.challenge, hp, (inferTag_binds hS hf htag hx hin hp).mpr ⟨hkey, hcar, rfl⟩⟩
    rw [hcar.kind]
    exact hkind

/-- The same of a request, which names no host. -/
theorem verifyInferReq_iff {key key₀ : Bytes32} {x : InferFields} {f : InferFrame} (hf : Encodable f)
    (htag : f.tag = x.tag key₀) (hx : (key₀, x.msg) ∈ S) (hin : ∀ m ∈ f.inferInput, (key, m) ∈ S)
    (r : SubHdr × List UInt8) :
    verifyInferReq key f = some r ↔
      key = key₀ ∧ Carries f x ∧ r = (x.sub, x.chunk) ∧
        x.kind = Kind.INFER_REQ ∧ x.nonce = zeros 16 ∧ x.peerId = 0 := by
  rw [verifyInferReq_eq_some]
  constructor
  · rintro ⟨hkind, hnonce, hpeer, hp, h⟩
    obtain ⟨hkey, hcar, hr⟩ := (inferTag_binds hS hf htag hx hin hp).mp h
    exact ⟨hkey, hcar, hr, hcar.kind.symm.trans hkind, hcar.nonce.symm.trans hnonce,
      hcar.peerId.symm.trans hpeer⟩
  · rintro ⟨hkey, hcar, rfl, hkind, hnonce, hpeer⟩
    have hp := hcar.parts
    exact ⟨hcar.kind.trans hkind, hcar.nonce.trans hnonce, hcar.peerId.trans hpeer, hp,
      (inferTag_binds hS hf htag hx hin hp).mpr ⟨hkey, hcar, rfl⟩⟩

/-- An echo's tag covers the host, the nonce, the challenge and the body; the kind and
the request id are held against the request. -/
theorem verifyEcho_iff {key key₀ : Bytes32} {y : EchoFields} {f : InferFrame} (hf : Encodable f)
    (htag : f.tag = y.tag key₀) (hy : (key₀, y.msg) ∈ S) (hin : (key, f.echoInput) ∈ S) (req : InferFrame) :
    verifyEcho key f req = true ↔
      key = key₀ ∧ CarriesEcho f y ∧ f.kind = Kind.ECHO_RESP ∧ f.reqId = req.reqId ∧
        y.challenge = req.challenge ∧ y.body = req.payload := by
  rw [verifyEcho_eq_true, htag]
  constructor
  · rintro ⟨hkind, hreq, hchal, hpay, h⟩
    obtain ⟨hkey, hmsg⟩ := eq_of_mac_eq hS hin hy h
    have heq : f.echoFields hf = y := EchoFields.msg_injective hmsg
    subst heq
    exact ⟨hkey, ⟨rfl, rfl, rfl, rfl⟩, hkind, hreq, hchal, hpay⟩
  · rintro ⟨rfl, ⟨hpeer, hnonce, hchal, hpay⟩, hkind, hreq, hchal', hpay'⟩
    refine ⟨hkind, hreq, hchal.trans hchal', hpay.trans hpay', ?_⟩
    rw [hpeer, hnonce, hchal, hpay]
    rfl

/-- An echo tag is no inference tag. -/
theorem inferTag_ne_echo {key key₀ : Bytes32} {y : EchoFields} {f : InferFrame} (hf : Encodable f)
    (htag : f.tag = y.tag key₀) (hy : (key₀, y.msg) ∈ S) (hin : ∀ m ∈ f.inferInput, (key, m) ∈ S)
    {r : SubHdr × List UInt8} (hp : inferPayloadParts f.kind f.payload = some r) :
    inferTag key f.peerId f.nonce f.challenge f.reqId f.kind r.1 r.2 ≠ f.tag := by
  intro h
  rw [htag] at h
  have hmem : (key, (f.inferFields hf hp).msg) ∈ S := by
    refine hin _ ?_
    rw [InferFrame.inferInput, hp]
    rfl
  exact msg_ne (f.inferFields hf hp) y (eq_of_mac_eq hS hmem hy h).2

/-- An inference tag is no echo tag. -/
theorem verifyEcho_of_inferTag {key key₀ : Bytes32} {x : InferFields} {f : InferFrame} (hf : Encodable f)
    (htag : f.tag = x.tag key₀) (hx : (key₀, x.msg) ∈ S) (hin : (key, f.echoInput) ∈ S) (req : InferFrame) :
    verifyEcho key f req = false := by
  refine Bool.eq_false_iff.mpr fun h => ?_
  rw [verifyEcho_eq_true, htag] at h
  obtain ⟨-, -, -, -, h⟩ := h
  exact msg_ne x (f.echoFields hf) (eq_of_mac_eq hS hin hx h).2.symm

/-- The fields determine what is hashed and are determined by it.  A frame off the wire,
carrying a tag made for some fields, verifies exactly when it carries those fields, its
kind among them; and no verifier of one generation takes a tag of the other. -/
theorem tags_bind_fields :
    Function.Injective InferFields.msg ∧ Function.Injective EchoFields.msg ∧
    (∀ (x : InferFields) (y : EchoFields), x.msg ≠ y.msg) ∧
    (∀ (key₀ key : Bytes32) (x : InferFields) (f : InferFrame), Encodable f → f.tag = x.tag key₀ →
      (key₀, x.msg) ∈ S → (∀ m ∈ f.inferInput, (key, m) ∈ S) →
      (∀ reqId challenge r, verifyInferResp key f reqId challenge = some r ↔
        key = key₀ ∧ Carries f x ∧ r = (x.sub, x.chunk) ∧
          isReply x.kind = true ∧ x.reqId = reqId ∧ x.challenge = challenge) ∧
      (∀ r, verifyInferReq key f = some r ↔
        key = key₀ ∧ Carries f x ∧ r = (x.sub, x.chunk) ∧
          x.kind = Kind.INFER_REQ ∧ x.nonce = zeros 16 ∧ x.peerId = 0) ∧
      ((key, f.echoInput) ∈ S → ∀ req, verifyEcho key f req = false)) ∧
    ∀ (key₀ key : Bytes32) (y : EchoFields) (f : InferFrame), Encodable f → f.tag = y.tag key₀ →
      (key₀, y.msg) ∈ S → (∀ m ∈ f.inferInput, (key, m) ∈ S) →
      (∀ reqId challenge, verifyInferResp key f reqId challenge = none) ∧ verifyInferReq key f = none ∧
      ((key, f.echoInput) ∈ S → ∀ req, verifyEcho key f req = true ↔
        key = key₀ ∧ CarriesEcho f y ∧ f.kind = Kind.ECHO_RESP ∧ f.reqId = req.reqId ∧
          y.challenge = req.challenge ∧ y.body = req.payload) := by
  refine ⟨InferFields.msg_injective, EchoFields.msg_injective, msg_ne, ?_, ?_⟩
  · intro key₀ key x f hf htag hx hin
    exact ⟨verifyInferResp_iff hS hf htag hx hin, verifyInferReq_iff hS hf htag hx hin,
      verifyEcho_of_inferTag hS hf htag hx⟩
  · intro key₀ key y f hf htag hy hin
    refine ⟨?_, ?_, verifyEcho_iff hS hf htag hy⟩
    · intro reqId challenge
      refine Option.eq_none_iff_forall_ne_some.mpr fun r h => ?_
      obtain ⟨-, -, -, hp, h⟩ := verifyInferResp_eq_some.mp h
      exact inferTag_ne_echo hS hf htag hy hin hp h
    · refine Option.eq_none_iff_forall_ne_some.mpr fun r h => ?_
      obtain ⟨-, -, -, hp, h⟩ := verifyInferReq_eq_some.mp h
      exact inferTag_ne_echo hS hf htag hy hin hp h

end Binding

/-- One chunk of a reply, as host 2 answers request 7. -/
def replyFields : InferFields where
  peerId := 2
  nonce := zeros 16
  challenge := zeros 16
  reqId := 7
  kind := Kind.INFER_RESP
  sub := ⟨0, false, 1, zeros 16⟩
  chunk := [0x61]
  chunk_le := by decide

/-- The tag of the reply, on a frame for request `reqId`. -/
def replyFrame (reqId : BitVec 64) : InferFrame where
  kind := Kind.INFER_RESP
  reqId := reqId
  challenge := zeros 16
  nonce := zeros 16
  peerId := 2
  tag := replyFields.tag (zeros 32)
  payload := replyFields.sub.bytes ++ replyFields.chunk

theorem replyFrame_encodable (reqId : BitVec 64) : Encodable (replyFrame reqId) := by
  refine ⟨?_, rfl⟩
  show (replyFields.sub.bytes ++ replyFields.chunk).length ≤ INFER_PAYLOAD_CAP
  rw [List.length_append, SubHdr.length_bytes]
  decide

theorem replyFrame_input (reqId : BitVec 64) :
    (replyFrame reqId).inferInput = some ({ replyFields with reqId := reqId }.msg) := by
  have hparts : inferPayloadParts (replyFrame reqId).kind (replyFrame reqId).payload =
      some (replyFields.sub, replyFields.chunk) :=
    parts_of_chunk (.inr rfl) (by decide) (by decide)
  rw [InferFrame.inferInput, hparts]
  rfl

/-- The reply verifies, and its tag on a frame for another request does not. -/
theorem reply_verifies_for_its_request :
    verifyInferResp (zeros 32) (replyFrame 7) 7 (zeros 16) = some (replyFields.sub, replyFields.chunk) ∧
      verifyInferResp (zeros 32) (replyFrame 8) 8 (zeros 16) = none := by
  let S : Set (Bytes32 × List UInt8) :=
    {(zeros 32, replyFields.msg), (zeros 32, { replyFields with reqId := 8 }.msg)}
  have hne : (khash (zeros 32) replyFields.msg).val.take INFER_TAG_LEN ≠
      (khash (zeros 32) { replyFields with reqId := 8 }.msg).val.take INFER_TAG_LEN := by
    rw [khash_eq_rfc]
    decide +kernel
  have hS : S.InjOn (Function.uncurry mac) :=
    Set.injOn_pair.mpr fun h => absurd (congrArg Subtype.val h) hne
  have hbind := (tags_bind_fields hS).2.2.2.1 (zeros 32) (zeros 32) replyFields
  have hx : (zeros 32, replyFields.msg) ∈ S := .inl rfl
  constructor
  · refine ((hbind (replyFrame 7) (replyFrame_encodable 7) rfl hx ?_).1 7 (zeros 16) _).mpr ?_
    · rw [replyFrame_input]
      rintro m ⟨⟩
      exact hx
    · exact ⟨rfl, ⟨rfl, rfl, rfl, rfl, rfl, parts_of_chunk (.inr rfl) (by decide) (by decide)⟩, rfl, rfl,
        rfl, rfl⟩
  · refine Option.eq_none_iff_forall_ne_some.mpr fun r h => ?_
    have hin : ∀ m ∈ (replyFrame 8).inferInput, (zeros 32, m) ∈ S := by
      rw [replyFrame_input]
      rintro m ⟨⟩
      exact .inr rfl
    obtain ⟨-, hcar, -⟩ := ((hbind (replyFrame 8) (replyFrame_encodable 8) rfl hx hin).1 8 (zeros 16) r).mp h
    exact absurd hcar.reqId (by decide)

end Yuva.Wire
