/-
# `Yuva.Prov.Head` — the persisted signed head

`tb-encode/src/provhead.rs`: the codec that spreads one signed-head record over
several sectors, and the selector between the two slots that hold one each.

    blob     magic 2 | version 1 | 0 | gen 8 | q 4 | siglen 2 | head 32 | i_id 16
             | pubroot 32 | sig | FNV-1a-64 of all before it
    sector   gen_tag 4 | FNV-1a-32 of tag and payload 4 | 504 bytes of the blob

The stamp `gen_tag` of a sector is the low half of the generation.  `decode_first`
says what `decode` does once sector 0 belongs to a record, `decode_sectors` that
the sectors of a record decode to it.
-/
import Yuva.Store.Blkfmt

namespace Yuva.Prov

open Yuva.Bytes
open Yuva.Store (fnv1a32 fnv1a64 FNV32_PRIME Sector rdU64)

def SECTOR : Nat := 512
def SEC_META : Nat := 8
def SEC_PAYLOAD : Nat := SECTOR - SEC_META

/-- `b"YH"`. -/
def PROV_MAGIC : List UInt8 := [0x59, 0x48]
def PROV_VERSION : UInt8 := 1

def HEAD_LEN : Nat := 32
def I_LEN : Nat := 16
def ROOT_LEN : Nat := 32
def SIG_CAP : Nat := 2508
def BLOB_FIXED : Nat := 98
def BLOB_CRC : Nat := 8
def BLOB_CAP : Nat := BLOB_FIXED + SIG_CAP + BLOB_CRC

/-- The sectors of the longest record: a slot's reservation. -/
def MAX_SECTORS : Nat := (BLOB_CAP + SEC_PAYLOAD - 1) / SEC_PAYLOAD
def SLAB_BYTES : Nat := MAX_SECTORS * SECTOR

def OFF_MAGIC : Nat := 0
def OFF_VERSION : Nat := 2
def OFF_GEN : Nat := 4
def OFF_Q : Nat := 12
def OFF_SIGLEN : Nat := 16
def OFF_HEAD : Nat := 18
def OFF_I : Nat := 50
def OFF_ROOT : Nat := 66
def OFF_SIG : Nat := 98

/-- What `encode` is given. -/
structure HeadRecord where
  gen : BitVec 64
  q : BitVec 32
  head : Block HEAD_LEN
  iId : Block I_LEN
  pubroot : Block ROOT_LEN
  sig : List UInt8
deriving DecidableEq

/-- What `decode` returns beside the reassembled blob, which holds the signature. -/
structure DecodedHead where
  gen : BitVec 64
  q : BitVec 32
  siglen : BitVec 16
  head : Block HEAD_LEN
  iId : Block I_LEN
  pubroot : Block ROOT_LEN
  nSectors : Nat
deriving DecidableEq

/-- The bytes of the blob of a record with a signature of this length. -/
def blobLen (siglen : Nat) : Nat := BLOB_FIXED + siglen + BLOB_CRC

def sectorsFor (siglen : Nat) : Option Nat :=
  if SIG_CAP < siglen then none
  else some ((blobLen siglen + SEC_PAYLOAD - 1) / SEC_PAYLOAD)

/-- `(gen & 0xffff_ffff) as u32`. -/
def genTag (gen : BitVec 64) : BitVec 32 := gen.setWidth 32

/-! ## Sectors -/

/-- Continue an FNV-1a-32 accumulator. -/
def fnv1a32Chain (h : BitVec 32) (data : List UInt8) : BitVec 32 :=
  data.foldl (fun h b => (h ^^^ b.toBitVec.setWidth 32) * FNV32_PRIME) h

/-- Everything but the stored checksum. -/
def sectorCrc (sec : List UInt8) : BitVec 32 :=
  fnv1a32Chain (fnv1a32 (slice sec 0 4)) (slice sec SEC_META SEC_PAYLOAD)

def rdU32 (s : List UInt8) (off : Nat) : BitVec 32 := BitVec.ofNat 32 (unle (slice s off 4))

/-- The stamp and the checksum of a sector. -/
def stampFields (tag : BitVec 32) (payload : Block SEC_PAYLOAD) : List (List UInt8) :=
  [le 4 tag.toNat, le 4 (fnv1a32Chain (fnv1a32 (le 4 tag.toNat)) payload.val).toNat]

/-- A sector of 504 payload bytes. -/
def stampSector (tag : BitVec 32) (payload : Block SEC_PAYLOAD) : Sector :=
  ⟨(stampFields tag payload).flatten ++ payload.val, by
    rw [List.length_append, payload.property]
    rfl⟩

/-- The two per-sector checks of `decode`. -/
def sectorGate (sec : List UInt8) (tag : BitVec 32) : Bool :=
  sectorCrc sec == rdU32 sec 4 && rdU32 sec 0 == tag

section stamp

variable (tag : BitVec 32) (payload : Block SEC_PAYLOAD)

theorem payload_stampSector :
    slice (stampSector tag payload).val SEC_META SEC_PAYLOAD = payload.val :=
  slice_tail rfl payload.property

theorem tag_stampSector : slice (stampSector tag payload).val 0 4 = le 4 tag.toNat :=
  slice_field payload.val (i := 0) rfl rfl (length_le 4 _)

/-- A stamped sector passes the gate of its own tag and of no other. -/
theorem sectorGate_stampSector (tag' : BitVec 32) :
    sectorGate (stampSector tag payload).val tag' = true ↔ tag = tag' := by
  have hcrc : slice (stampSector tag payload).val 4 4 =
      le 4 (fnv1a32Chain (fnv1a32 (le 4 tag.toNat)) payload.val).toNat :=
    slice_field payload.val (i := 1) rfl rfl (length_le 4 _)
  rw [sectorGate, sectorCrc, rdU32, rdU32, tag_stampSector, payload_stampSector, hcrc,
    ofNat_unle_le rfl, ofNat_unle_le rfl, beq_self_eq_true, Bool.true_and, beq_iff_eq]

end stamp

/-! ## The blob -/

/-- The fields before the signature. -/
def blobFields (r : HeadRecord) : List (List UInt8) :=
  [PROV_MAGIC, [PROV_VERSION], [0], le 8 r.gen.toNat, le 4 r.q.toNat, le 2 r.sig.length, r.head.val,
    r.iId.val, r.pubroot.val]

def blobBody (r : HeadRecord) : List UInt8 := (blobFields r).flatten ++ r.sig

def blob (r : HeadRecord) : List UInt8 := blobBody r ++ le 8 (fnv1a64 (blobBody r)).toNat

/-- Bytes `504 * s ..` of the blob, the last sector filled with zeros. -/
def payloadAt (bytes : List UInt8) (s : Nat) : Block SEC_PAYLOAD :=
  fixed bytes (s * SEC_PAYLOAD) SEC_PAYLOAD

/-- The first `n` sectors of a record. -/
def encodeSectors (r : HeadRecord) (n : Nat) : List Sector :=
  (List.range n).map fun s => stampSector (genTag r.gen) (payloadAt (blob r) s)

/-- `none` where the source returns 0: the signature is too long for a record, or a
buffer too short. -/
def encode (r : HeadRecord) (blobBuf outBuf : Nat) : Option (List UInt8) :=
  match sectorsFor r.sig.length with
  | none => none
  | some n =>
      if blobBuf < blobLen r.sig.length ∨ outBuf < n * SECTOR then none
      else some ((encodeSectors r n).map Subtype.val).flatten

/-- Sector `s` of a slot. -/
def sectorAt (sectors : List UInt8) (s : Nat) : List UInt8 := slice sectors (SECTOR * s) SECTOR

/-- The reassembled blob. -/
def reassemble (sectors : List UInt8) (n l : Nat) : List UInt8 :=
  ((List.range n).map fun s => slice (sectorAt sectors s) SEC_META SEC_PAYLOAD).flatten.take l

/-- The spanning checksum, and the fields of the reassembled blob. -/
def extract (gen : BitVec 64) (q : BitVec 32) (siglen n : Nat) (blob : List UInt8) :
    Option (DecodedHead × List UInt8) :=
  if fnv1a64 (blob.take (blobLen siglen - BLOB_CRC)) ≠ rdU64 blob (blobLen siglen - BLOB_CRC) then
    none
  else
    some
      ({ gen := gen
         q := q
         siglen := BitVec.ofNat 16 siglen
         head := fixed blob OFF_HEAD HEAD_LEN
         iId := fixed blob OFF_I I_LEN
         pubroot := fixed blob OFF_ROOT ROOT_LEN
         nSectors := n }, blob)

/-- The geometry is read from sector 0; every sector must then pass its gate and
the blob its checksum. -/
def decode (sectors : List UInt8) (blobBuf : Nat) : Option (DecodedHead × List UInt8) :=
  if sectors.length < SECTOR then none
  else
    let p0 := slice (sectorAt sectors 0) SEC_META SEC_PAYLOAD
    if slice p0 OFF_MAGIC 2 ≠ PROV_MAGIC ∨ p0.getD OFF_VERSION 0 ≠ PROV_VERSION then none
    else
      let gen := rdU64 p0 OFF_GEN
      let siglen := unle (slice p0 OFF_SIGLEN 2)
      match sectorsFor siglen with
      | none => none
      | some n =>
          if sectors.length < n * SECTOR ∨ blobBuf < blobLen siglen then none
          else if (List.range n).any fun s => !sectorGate (sectorAt sectors s) (genTag gen) then none
          else extract gen (rdU32 p0 OFF_Q) siglen n (reassemble sectors n (blobLen siglen))

/-- Which of two decoded generations is the newer: `true` for the second. -/
def pickNewer : Option (BitVec 64) → Option (BitVec 64) → Option Bool
  | none, none => none
  | some _, none => some false
  | none, some _ => some true
  | some ga, some gb => some (decide (ga < gb))

/-! ## What a record's sectors decode to -/

section record

variable (r : HeadRecord)

theorem length_blobFields : (blobFields r).flatten.length = BLOB_FIXED := by
  simp [blobFields, PROV_MAGIC, BLOB_FIXED, r.head.property, r.iId.property, r.pubroot.property,
    HEAD_LEN, I_LEN, ROOT_LEN]

theorem length_blobBody : (blobBody r).length = blobLen r.sig.length - BLOB_CRC := by
  rw [blobBody, List.length_append, length_blobFields, blobLen, Nat.add_sub_cancel]

theorem length_blob : (blob r).length = blobLen r.sig.length := by
  rw [blob, List.length_append, length_blobBody, length_le, blobLen, Nat.add_sub_cancel]
  rfl

theorem slice_blob {i off n : Nat} {f : List UInt8} (hf : (blobFields r)[i]? = some f)
    (hoff : ((blobFields r).take i).flatten.length = off) (hn : f.length = n) :
    slice (blob r) off n = f := by
  rw [blob, blobBody, List.append_assoc]
  exact slice_field _ hf hoff hn

theorem fixed_blob {i off n : Nat} (f : Block n) (hf : (blobFields r)[i]? = some f.val)
    (hoff : ((blobFields r).take i).flatten.length = off) (hle : off + n ≤ BLOB_FIXED) :
    fixed (blob r) off n = f := by
  have hlen : off + n ≤ (blob r).length := by
    rw [length_blob, blobLen]
    omega
  exact Subtype.ext ((fixed_val hlen).trans (slice_blob r hf hoff f.property))

/-- The spanning checksum holds of a record's blob. -/
theorem span_blob : fnv1a64 ((blob r).take (blobLen r.sig.length - BLOB_CRC)) =
    rdU64 (blob r) (blobLen r.sig.length - BLOB_CRC) := by
  have hbody := length_blobBody r
  have hread : slice (blob r) (blobLen r.sig.length - BLOB_CRC) 8 =
      le 8 (fnv1a64 (blobBody r)).toNat := slice_tail hbody (length_le 8 _)
  rw [rdU64, hread, ofNat_unle_le rfl, blob, ← hbody, List.take_left]

/-- The fixed fields lie in the first sector. -/
theorem slice_payloadAt_zero {off n : Nat} (h : off + n ≤ BLOB_FIXED) :
    slice (payloadAt (blob r) 0).val off n = slice (blob r) off n := by
  have hpad : 0 * SEC_PAYLOAD + SEC_PAYLOAD ≤ (blob r ++ List.replicate SEC_PAYLOAD 0).length := by
    rw [List.length_append, List.length_replicate]
    omega
  have hlen : off + n ≤ (blob r).length := by
    rw [length_blob, blobLen]
    omega
  have hin : off + n ≤ SEC_PAYLOAD := Nat.le_trans h (by decide)
  rw [payloadAt, ← fixed_pad _ _ _ SEC_PAYLOAD, fixed_val hpad, slice_slice hin, Nat.zero_mul,
    Nat.zero_add, slice_append _ hlen]

end record

theorem sectorsFor_eq {siglen n : Nat} (h : sectorsFor siglen = some n) :
    siglen ≤ SIG_CAP ∧ 0 < n ∧ blobLen siglen ≤ n * SEC_PAYLOAD := by
  unfold sectorsFor at h
  split at h
  · cases h
  · rename_i hle
    cases h
    simp only [blobLen, BLOB_FIXED, BLOB_CRC, SEC_PAYLOAD, SECTOR, SEC_META]
    omega

theorem sectorsFor_count {siglen n : Nat} (h : sectorsFor siglen = some n) :
    n = (blobLen siglen + SEC_PAYLOAD - 1) / SEC_PAYLOAD := by
  unfold sectorsFor at h
  split at h
  · cases h
  · exact (Option.some.inj h).symm

/-- What a record decodes to. -/
def decodedOf (r : HeadRecord) (n : Nat) : DecodedHead × List UInt8 :=
  ({ gen := r.gen
     q := r.q
     siglen := BitVec.ofNat 16 r.sig.length
     head := r.head
     iId := r.iId
     pubroot := r.pubroot
     nSectors := n }, blob r)

/-- Sector `s` of a record. -/
def recordSector (r : HeadRecord) (s : Nat) : Sector :=
  stampSector (genTag r.gen) (payloadAt (blob r) s)

section decode

variable {r : HeadRecord} {n bb : Nat} {sectors : List UInt8}

/-- Sector 0 of a record fixes the geometry and the stamp every sector must bear. -/
theorem decode_first (hn : sectorsFor r.sig.length = some n) (hlen : SECTOR ≤ sectors.length)
    (h0 : sectorAt sectors 0 = (recordSector r 0).val) :
    decode sectors bb =
      if sectors.length < n * SECTOR ∨ bb < blobLen r.sig.length then none
      else if (List.range n).any fun s => !sectorGate (sectorAt sectors s) (genTag r.gen) then none
      else extract r.gen r.q r.sig.length n (reassemble sectors n (blobLen r.sig.length)) := by
  have hp0 : slice (sectorAt sectors 0) SEC_META SEC_PAYLOAD = (payloadAt (blob r) 0).val := by
    rw [h0]
    exact payload_stampSector _ _
  have hmagic : slice (payloadAt (blob r) 0).val OFF_MAGIC 2 = PROV_MAGIC := by
    rw [slice_payloadAt_zero r (by decide)]
    exact slice_blob r (i := 0) rfl rfl rfl
  have hver : (payloadAt (blob r) 0).val.getD OFF_VERSION 0 = PROV_VERSION := by
    refine getD_of_slice ?_
    rw [slice_payloadAt_zero r (by decide)]
    exact slice_blob r (i := 1) rfl rfl rfl
  have hgen : rdU64 (payloadAt (blob r) 0).val OFF_GEN = r.gen := by
    have hf : slice (blob r) OFF_GEN 8 = le 8 r.gen.toNat := slice_blob r (i := 3) rfl rfl rfl
    rw [rdU64, slice_payloadAt_zero r (by decide), hf, ofNat_unle_le rfl]
  have hq : rdU32 (payloadAt (blob r) 0).val OFF_Q = r.q := by
    have hf : slice (blob r) OFF_Q 4 = le 4 r.q.toNat := slice_blob r (i := 4) rfl rfl rfl
    rw [rdU32, slice_payloadAt_zero r (by decide), hf, ofNat_unle_le rfl]
  have hsiglen : unle (slice (payloadAt (blob r) 0).val OFF_SIGLEN 2) = r.sig.length := by
    have hf : slice (blob r) OFF_SIGLEN 2 = le 2 r.sig.length := slice_blob r (i := 5) rfl rfl rfl
    have hcap : r.sig.length ≤ 2508 := (sectorsFor_eq hn).1
    rw [slice_payloadAt_zero r (by decide), hf, unle_le]
    exact Nat.mod_eq_of_lt (by omega)
  simp only [decode, if_neg (Nat.not_lt.mpr hlen), hp0, hmagic, hver, ne_eq, not_true_eq_false,
    or_self, if_false, hgen, hq, hsiglen, hn]

/-- So a slot that decodes under sector 0 of a record passes the record's gates. -/
theorem gates_of_decode {out : DecodedHead × List UInt8} (hn : sectorsFor r.sig.length = some n)
    (h0 : sectorAt sectors 0 = (recordSector r 0).val) (h : decode sectors bb = some out) :
    n * SECTOR ≤ sectors.length ∧ blobLen r.sig.length ≤ bb ∧
      ∀ s < n, sectorGate (sectorAt sectors s) (genTag r.gen) = true := by
  have hlen : SECTOR ≤ sectors.length := by
    refine Nat.le_of_not_lt fun hlt => ?_
    rw [decode, if_pos hlt] at h
    cases h
  rw [decode_first hn hlen h0] at h
  split at h
  · cases h
  · rename_i hroom
    split at h
    · cases h
    · rename_i hgates
      simp only [not_or, Nat.not_lt] at hroom
      refine ⟨hroom.1, hroom.2, fun s hs => ?_⟩
      simp only [List.any_eq_true, not_exists, not_and, List.mem_range, Bool.not_eq_true',
        Bool.not_eq_false] at hgates
      exact hgates s hs

/-- Its geometry is the record's. -/
theorem nSectors_of_decode {out : DecodedHead × List UInt8} (hn : sectorsFor r.sig.length = some n)
    (hlen : SECTOR ≤ sectors.length) (h0 : sectorAt sectors 0 = (recordSector r 0).val)
    (h : decode sectors bb = some out) : out.1.nSectors = n := by
  rw [decode_first hn hlen h0] at h
  split at h
  · cases h
  · split at h
    · cases h
    · rw [extract] at h
      split at h
      · cases h
      · cases h
        rfl

theorem reassemble_eq (hn : sectorsFor r.sig.length = some n)
    (hall : ∀ s < n, sectorAt sectors s = (recordSector r s).val) :
    reassemble sectors n (blobLen r.sig.length) = blob r := by
  obtain ⟨-, -, hfit⟩ := sectorsFor_eq hn
  have hpad : (blob r ++ List.replicate (n * SEC_PAYLOAD - blobLen r.sig.length) 0).length =
      n * SEC_PAYLOAD := by
    rw [List.length_append, List.length_replicate, length_blob]
    omega
  have hpay : ∀ s ∈ List.range n, slice (sectorAt sectors s) SEC_META SEC_PAYLOAD =
      slice (blob r ++ List.replicate (n * SEC_PAYLOAD - blobLen r.sig.length) 0) (s * SEC_PAYLOAD)
        SEC_PAYLOAD := by
    intro s hs
    have hle : s * SEC_PAYLOAD + SEC_PAYLOAD ≤ n * SEC_PAYLOAD := by
      rw [← Nat.succ_mul]
      exact Nat.mul_le_mul_right _ (List.mem_range.mp hs)
    rw [hall s (List.mem_range.mp hs), recordSector, payload_stampSector, payloadAt,
      ← fixed_pad _ _ _ (n * SEC_PAYLOAD - blobLen r.sig.length), fixed_val (by rw [hpad]; exact hle)]
  rw [reassemble, List.map_congr_left hpay, flatten_slices hpad, ← length_blob, List.take_left]

theorem extract_blob (n : Nat) : extract r.gen r.q r.sig.length n (blob r) = some (decodedOf r n) := by
  have hhead : fixed (blob r) OFF_HEAD HEAD_LEN = r.head := fixed_blob r (i := 6) r.head rfl rfl (by decide)
  have hid : fixed (blob r) OFF_I I_LEN = r.iId := by
    refine fixed_blob r (i := 7) r.iId rfl ?_ (by decide)
    simp [blobFields, PROV_MAGIC, OFF_I, r.head.property, HEAD_LEN]
  have hroot : fixed (blob r) OFF_ROOT ROOT_LEN = r.pubroot := by
    refine fixed_blob r (i := 8) r.pubroot rfl ?_ (by decide)
    simp [blobFields, PROV_MAGIC, OFF_ROOT, r.head.property, r.iId.property, HEAD_LEN, I_LEN]
  rw [extract, if_neg (not_not.mpr (span_blob r)), hhead, hid, hroot, decodedOf]

theorem decode_sectors (hn : sectorsFor r.sig.length = some n) (hlen : n * SECTOR ≤ sectors.length)
    (hbb : blobLen r.sig.length ≤ bb)
    (hall : ∀ s < n, sectorAt sectors s = (recordSector r s).val) :
    decode sectors bb = some (decodedOf r n) := by
  obtain ⟨-, hpos, -⟩ := sectorsFor_eq hn
  have hone : SECTOR ≤ sectors.length :=
    Nat.le_trans (Nat.le_mul_of_pos_left SECTOR hpos) hlen
  have hgates : ¬ ((List.range n).any fun s =>
      !sectorGate (sectorAt sectors s) (genTag r.gen)) = true := by
    simp only [List.any_eq_true, not_exists, not_and, List.mem_range, Bool.not_eq_true',
      Bool.not_eq_false]
    intro s hs
    rw [hall s hs]
    exact (sectorGate_stampSector _ _ _).mpr rfl
  rw [decode_first hn hone (hall 0 hpos), if_neg (by omega), if_neg hgates, reassemble_eq hn hall,
    extract_blob]

/-- What a slot that decodes has passed. -/
structure Accepted (sectors : List UInt8) (bb : Nat) (out : DecodedHead × List UInt8) : Prop where
  geometry : sectorsFor out.1.siglen.toNat = some out.1.nSectors
  room : out.1.nSectors * SECTOR ≤ sectors.length
  scratch : blobLen out.1.siglen.toNat ≤ bb
  gates : ∀ s < out.1.nSectors, sectorGate (sectorAt sectors s) (genTag out.1.gen) = true
  blob : out.2 = reassemble sectors out.1.nSectors (blobLen out.1.siglen.toNat)

theorem accepted_of_decode {out : DecodedHead × List UInt8} (h : decode sectors bb = some out) :
    Accepted sectors bb out := by
  unfold decode at h
  split at h
  · cases h
  · dsimp only at h
    split at h
    · cases h
    · split at h
      · cases h
      · rename_i k hk
        split at h
        · cases h
        · rename_i hroom
          split at h
          · cases h
          · rename_i hgates
            rw [extract] at h
            split at h
            · cases h
            · cases h
              obtain ⟨hcap, -, -⟩ := sectorsFor_eq hk
              have hlen : (BitVec.ofNat 16 (unle (slice (slice (sectorAt sectors 0) SEC_META SEC_PAYLOAD)
                  OFF_SIGLEN 2))).toNat =
                  unle (slice (slice (sectorAt sectors 0) SEC_META SEC_PAYLOAD) OFF_SIGLEN 2) := by
                rw [BitVec.toNat_ofNat]
                exact Nat.mod_eq_of_lt (Nat.lt_of_le_of_lt hcap (by decide))
              simp only [not_or, Nat.not_lt] at hroom
              simp only [List.any_eq_true, not_exists, not_and, List.mem_range, Bool.not_eq_true',
                Bool.not_eq_false] at hgates
              constructor <;> simp only [hlen]
              · exact hk
              · exact hroom.1
              · exact hroom.2
              · exact hgates

end decode

end Yuva.Prov
