/-
# `Yuva.Wire.Codec` — the frame codec, access by access

`canon` and `decode` of `tb-encode/src/inferwire.rs` with the stores and the reads that they
are made of, each of which can fail: `none` is a panic.  None does, and what is computed is
the codec of `Yuva.Wire.Frame` (`canonChecked_eq`, `decodeChecked_eq`).

**Proved here.**  The two are inverse to each other, on the frames that have an encoding and
the buffers that start with one (`codec_exact`).
-/
import Yuva.Lib.Stores
import Yuva.Wire.Frame

namespace Yuva.Wire

open Yuva.Bytes Yuva.Checked Yuva.Stores

/-- `usize` addition that stays at the top. -/
def saturatingAdd (a b : Nat) : Nat := min (a + b) (2 ^ 64 - 1)

/-- `canon`, store by store. -/
def canonChecked (f : InferFrame) (out : List UInt8) : Option (Nat × List UInt8) :=
  if !frameIsEncodable f.payload.length || !kindKnown f.kind then some (0, out)
  else
    let plen := f.payload.length
    let total := saturatingAdd INFER_HEADER_LEN plen
    if out.length < total then some (0, out)
    else do
      let out ← copyLoop (le 2 INFER_MAGIC) 2 out OFF_MAGIC
      let out ← setAt out OFF_VER INFER_VER
      let out ← setAt out OFF_KIND f.kind
      let out ← setAt out OFF_FLAGS 0
      let out ← copyLoop (le 8 f.reqId.toNat) 8 out OFF_REQ_ID
      let out ← copyLoop f.challenge.val 16 out OFF_CHALLENGE
      let out ← copyLoop f.nonce.val 16 out OFF_NONCE
      let out ← setAt out OFF_PEER f.peerId
      let out ← copyLoop f.tag.val 16 out OFF_TAG
      let out ← copyLoop (le 4 plen) 4 out OFF_PAYLOAD_LEN
      let out ← copyLoop f.payload plen out OFF_PAYLOAD
      return (total, out)

/-- `decode`, read by read. -/
def decodeChecked (buf : List UInt8) : Option (Option InferFrame) :=
  if buf.length < INFER_HEADER_LEN then some none
  else do
    let magic ← cut buf OFF_MAGIC 2
    if unle magic ≠ INFER_MAGIC then return none
    let ver ← byteAt buf OFF_VER
    if ver ≠ INFER_VER then return none
    let flags ← byteAt buf OFF_FLAGS
    if flags ≠ 0 then return none
    let kind ← byteAt buf OFF_KIND
    if kindKnown kind = false then return none
    let plen ← (cut buf OFF_PAYLOAD_LEN 4).map unle
    if frameIsEncodable plen = false then return none
    if buf.length < INFER_HEADER_LEN + plen then return none
    let reqId ← cut buf OFF_REQ_ID 8
    let challenge ← blockAt buf OFF_CHALLENGE 16
    let nonce ← blockAt buf OFF_NONCE 16
    let tag ← blockAt buf OFF_TAG 16
    let peerId ← byteAt buf OFF_PEER
    let payload ← cut buf OFF_PAYLOAD plen
    return some ⟨kind, .ofNat 64 (unle reqId), challenge, nonce, peerId, tag, payload⟩

/-- No store of the encoder misses the buffer, and together they store the fields. -/
theorem canonChecked_eq (f : InferFrame) (out : List UInt8) : canonChecked f out = some (canon f out) := by
  rw [canonChecked, canon]
  split
  · rfl
  case isFalse hok =>
    have hcap : f.payload.length ≤ 1024 := by
      have hf : frameIsEncodable f.payload.length = true := by
        simp only [Bool.or_eq_true, Bool.not_eq_true', not_or, Bool.not_eq_false] at hok
        exact hok.1
      exact of_decide_eq_true hf
    have htotal : saturatingAdd INFER_HEADER_LEN f.payload.length = canonLen f.payload.length := by
      rw [saturatingAdd, canonLen, INFER_HEADER_LEN]
      omega
    dsimp only
    rw [htotal]
    split
    · rfl
    case isFalse hroom =>
      have hlen : 66 + f.payload.length ≤ out.length := Nat.not_lt.mp hroom
      have hchallenge := f.challenge.property
      have hnonce := f.nonce.property
      have htag := f.tag.property
      rw [copyLoop_eq (length_le 2 _) (by rw [OFF_MAGIC]; omega), some_bind, OFF_MAGIC,
        setAt_front OFF_VER rfl (by rw [OFF_VER]; omega), some_bind,
        setAt_front OFF_KIND rfl (by rw [OFF_KIND]; omega), some_bind,
        setAt_front OFF_FLAGS rfl (by rw [OFF_FLAGS]; omega), some_bind,
        copyLoop_front OFF_REQ_ID rfl (length_le 8 _) (by rw [OFF_REQ_ID]; omega), some_bind,
        copyLoop_front OFF_CHALLENGE rfl hchallenge (by rw [OFF_CHALLENGE]; omega), some_bind,
        copyLoop_front OFF_NONCE (by simp [hchallenge, OFF_NONCE]) hnonce (by rw [OFF_NONCE]; omega),
        some_bind, setAt_front OFF_PEER (by simp [hchallenge, hnonce, OFF_PEER]) (by rw [OFF_PEER]; omega),
        some_bind, copyLoop_front OFF_TAG (by simp [hchallenge, hnonce, OFF_TAG]) htag
          (by rw [OFF_TAG]; omega),
        some_bind, copyLoop_front OFF_PAYLOAD_LEN (by simp [hchallenge, hnonce, htag, OFF_PAYLOAD_LEN])
          (length_le 4 _) (by rw [OFF_PAYLOAD_LEN]; omega),
        some_bind, copyLoop_front OFF_PAYLOAD (by simp [hchallenge, hnonce, htag, OFF_PAYLOAD]) rfl
          (by rw [OFF_PAYLOAD]; omega), some_bind]
      have hencode : le 2 INFER_MAGIC ++ [INFER_VER] ++ [f.kind] ++ [0] ++ le 8 f.reqId.toNat ++ f.challenge.val ++
          f.nonce.val ++ [f.peerId] ++ f.tag.val ++ le 4 f.payload.length ++ f.payload = encode f := by
        simp [encode, fields]
      rw [hencode, splice, List.take_zero, List.nil_append, Nat.zero_add, length_encode]
      rfl

/-- No read of the decoder misses the buffer. -/
theorem decodeChecked_eq (buf : List UInt8) : decodeChecked buf = some (decode buf) := by
  rw [decodeChecked, decode]
  by_cases hlen : INFER_HEADER_LEN ≤ buf.length
  swap
  · rw [if_pos (Nat.not_le.mp hlen), dif_neg hlen]
  have hlen' : 66 ≤ buf.length := hlen
  rw [if_neg (Nat.not_lt.mpr hlen), dif_pos hlen, cut_eq (by rw [OFF_MAGIC]; omega), some_bind,
    byteAt_eq (by rw [OFF_VER]; omega), byteAt_eq (by rw [OFF_FLAGS]; omega), byteAt_eq (by rw [OFF_KIND]; omega),
    cut_eq (by rw [OFF_PAYLOAD_LEN]; omega), some_bind, some_bind, some_bind, Option.map_some, some_bind, ← payloadLen]
  split
  · rfl
  split
  · rfl
  split
  · rfl
  split
  · rfl
  split
  · rfl
  split
  · rfl
  case isFalse hfull =>
    have hpayload : OFF_PAYLOAD + payloadLen buf ≤ buf.length := Nat.not_lt.mp hfull
    have h16 : ∀ off (h : off + 16 ≤ buf.length), blockAt buf off 16 = some (bytes16 buf off h) := by
      intro off h
      rw [blockAt, dif_pos h]
      rfl
    rw [cut_eq (by rw [OFF_REQ_ID]; omega), some_bind, h16 OFF_CHALLENGE (by rw [OFF_CHALLENGE]; omega), some_bind,
      h16 OFF_NONCE (by rw [OFF_NONCE]; omega), some_bind, h16 OFF_TAG (by rw [OFF_TAG]; omega), some_bind,
      byteAt_eq (by rw [OFF_PEER]; omega), some_bind, cut_eq hpayload, some_bind]
    rfl

/-! ## Inverse to each other -/

/-- A buffer that decodes starts with the encoding of its frame. -/
theorem encode_of_decode {buf : List UInt8} {f : InferFrame} (h : decode buf = some f) :
    Encodable f ∧ wireLen f ≤ buf.length ∧ encode f = buf.take (wireLen f) := by
  obtain ⟨hv, hfull⟩ := valid_of_decode h
  have hunpack := decode_of_valid hv hfull
  rw [h] at hunpack
  obtain rfl := Option.some.inj hunpack
  have hlen : 66 + payloadLen buf ≤ buf.length := hfull
  have hpayload : (unpack buf hv.length).payload.length = payloadLen buf := length_slice hlen
  have hwire : wireLen (unpack buf hv.length) = 66 + payloadLen buf := by
    rw [wireLen, hpayload]
    rfl
  refine ⟨⟨hpayload ▸ of_decide_eq_true hv.encodable, hv.kind⟩, hwire ▸ hlen, ?_⟩
  have hone : ∀ off < 66, slice buf off 1 = [buf.getD off 0] := fun off hoff => slice_one (by omega) 0
  have hmagic : le 2 INFER_MAGIC = slice buf 0 2 := le_unle_slice (by omega) hv.magic
  have hdeclared : le 4 (payloadLen buf) = slice buf 62 4 := le_unle_slice (by omega) rfl
  have hidRoom : OFF_REQ_ID + 8 ≤ buf.length := by
    rw [OFF_REQ_ID]
    omega
  have hid : le 8 (unpack buf hv.length).reqId.toNat = slice buf 5 8 := le_word_slice rfl hidRoom
  have hver : [INFER_VER] = slice buf 2 1 := (hone 2 (by decide)).trans (congrArg (fun b => [b]) hv.ver) |>.symm
  have hflags : [(0 : UInt8)] = slice buf 4 1 := (hone 4 (by decide)).trans (congrArg (fun b => [b]) hv.flags) |>.symm
  have hfields : fields (unpack buf hv.length) = cuts buf 0 [2, 1, 1, 1, 8, 16, 16, 1, 16, 4, payloadLen buf] := by
    rw [fields, hpayload, hmagic, hdeclared, hid, hver, hflags]
    simp only [cuts, Nat.zero_add, Nat.reduceAdd, hone 3 (by decide), hone 45 (by decide)]
    rfl
  have hsum : 66 + payloadLen buf = [2, 1, 1, 1, 8, 16, 16, 1, 16, 4, payloadLen buf].sum := by
    simp only [List.sum_cons, List.sum_nil]
    omega
  rw [encode, hfields, flatten_cuts, hwire, hsum, slice, List.drop_zero]

theorem canon_of_encodable {f : InferFrame} {out : List UInt8} (h : Encodable f) (hroom : wireLen f ≤ out.length) :
    canon f out = (wireLen f, encode f ++ out.drop (wireLen f)) := by
  have hcap : frameIsEncodable f.payload.length = true := decide_eq_true h.1
  rw [canon, hcap, h.2]
  exact if_neg (Nat.not_lt.mpr hroom)

/-- What the encoder leaves: nothing of the buffer behind the frame has changed. -/
theorem canon_cases (f : InferFrame) (out : List UInt8) : canon f out = (0, out) ∨
    Encodable f ∧ wireLen f ≤ out.length ∧ canon f out = (wireLen f, encode f ++ out.drop (wireLen f)) := by
  by_cases henc : Encodable f
  · by_cases hroom : wireLen f ≤ out.length
    · exact .inr ⟨henc, hroom, canon_of_encodable henc hroom⟩
    · refine .inl ?_
      rw [canon]
      split
      · rfl
      · exact if_pos (Nat.not_le.mp hroom)
  · refine .inl (if_pos ?_)
    rw [Encodable, not_and_or] at henc
    rw [Bool.or_eq_true, Bool.not_eq_true', Bool.not_eq_true', frameIsEncodable, decide_eq_false_iff_not]
    exact henc.imp_right (Bool.eq_false_iff.mpr ·)

/-- The codec is exact: what was written decodes to the frame, with any bytes behind it; what
decoded is written again, byte for byte; and no access is outside a buffer. -/
theorem codec_exact :
    (∀ f out, ∃ n out', canonChecked f out = some (n, out') ∧ out'.length = out.length ∧
      out'.drop n = out.drop n ∧ (n ≠ 0 → n = wireLen f ∧ ∀ s, decodeChecked (out'.take n ++ s) = some (some f))) ∧
    ∀ buf, ∃ r, decodeChecked buf = some r ∧ ∀ f, r = some f → wireLen f ≤ buf.length ∧
      ∀ out, wireLen f ≤ out.length →
        ∃ out', canonChecked f out = some (wireLen f, out') ∧ out'.take (wireLen f) = buf.take (wireLen f) := by
  constructor
  · intro f out
    refine ⟨(canon f out).1, (canon f out).2, canonChecked_eq f out, ?_⟩
    obtain hnone | ⟨henc, hroom, hsome⟩ := canon_cases f out
    · rw [hnone]
      exact ⟨rfl, rfl, fun h => absurd rfl h⟩
    · have hlen : (encode f).length = wireLen f := length_encode f
      rw [hsome]
      refine ⟨?_, List.drop_left' hlen, fun _ => ⟨rfl, fun s => ?_⟩⟩
      · rw [List.length_append, hlen, List.length_drop]
        omega
      · rw [List.take_left' hlen, decodeChecked_eq, decode_encode s henc]
  · intro buf
    refine ⟨decode buf, decodeChecked_eq buf, fun f hf => ?_⟩
    obtain ⟨henc, hlen, hencode⟩ := encode_of_decode hf
    refine ⟨hlen, fun out hroom => ⟨encode f ++ out.drop (wireLen f), ?_, ?_⟩⟩
    · rw [canonChecked_eq, canon_of_encodable henc hroom]
    · rw [List.take_left' (show (encode f).length = wireLen f from length_encode f), hencode]

/-- An echo request with two bytes of payload. -/
def echoReq : InferFrame := ⟨1, 7, zeros 16, zeros 16, 0, zeros 16, [0xaa, 0xbb]⟩

/-- Written into a buffer of seventy bytes, and read back with a byte behind it. -/
theorem codec_exact_echoReq : ∃ out', canonChecked echoReq (List.replicate 70 0) = some (68, out') ∧
    decodeChecked (out'.take 68 ++ [0xff]) = some (some echoReq) := by
  obtain ⟨n, out', hcanon, -, -, hback⟩ := codec_exact.1 echoReq (List.replicate 70 0)
  have hn : (canonChecked echoReq (List.replicate 70 0)).map Prod.fst = some 68 := by decide
  rw [hcanon] at hn
  obtain rfl : n = 68 := Option.some.inj hn
  exact ⟨out', hcanon, (hback (by decide)).2 [0xff]⟩

end Yuva.Wire
