/-
# `Yuva.Store.Blkfmt` — the on-disk format

`tb-encode/src/blkfmt.rs`: the log geometry, the superblock and the record
frame.  A sector is 512 bytes.  An encoded sector is written here as the
concatenation of its fields, in the order and with the widths of the source's
layout comments, where the source stores them into a zeroed buffer at their
offsets.

    superblock   magic 8 | version 4 | 0 x4 | gen 8 | log_head 3x8 | record_count 3x8
                 | 0 x432 | FNV-1a-64 of the first 504 bytes
    frame        tag 1 | 0 | len 2 | seq 8 | FNV-1a-32 of the payload 4 | 0 x8
                 | payload | 0 ...

Both decode to what was encoded (`superblockDecode_encode`,
`recordFrameDecode_encode`), and two logs never share a sector
(`recordSector_inj`).
-/
import Yuva.Lib.Bytes

namespace Yuva.Store

open Yuva.Bytes

/-- The contents of one sector. -/
abbrev Sector := { bytes : List UInt8 // bytes.length = 512 }

/-- The three log streams. -/
inductive Region where
  | episodic | semantic | working
deriving DecidableEq, Repr

/-! ## Checksums -/

def FNV64_OFFSET : BitVec 64 := 0xcbf29ce484222325
def FNV64_PRIME : BitVec 64 := 0x00000100000001b3
def FNV32_OFFSET : BitVec 32 := 0x811c9dc5
def FNV32_PRIME : BitVec 32 := 0x01000193

/-- FNV-1a over 64 bits. -/
def fnv1a64 (data : List UInt8) : BitVec 64 :=
  data.foldl (fun h b => (h ^^^ b.toBitVec.setWidth 64) * FNV64_PRIME) FNV64_OFFSET

/-- FNV-1a over 32 bits. -/
def fnv1a32 (data : List UInt8) : BitVec 32 :=
  data.foldl (fun h b => (h ^^^ b.toBitVec.setWidth 32) * FNV32_PRIME) FNV32_OFFSET

/-! ## Geometry -/

def SECTOR_SIZE : Nat := 512
def SB_SECTOR : Nat := 0

/-- First sector and number of sectors of a region's log. -/
def regionExtent : Region → Nat × Nat
  | .episodic => (1, 4095)
  | .semantic => (4096, 2048)
  | .working => (6144, 2048)

/-- The sector of a region's log at a byte watermark; `none` past the extent. -/
def recordSector (r : Region) (logHead : Nat) : Option Nat :=
  let idx := logHead / SECTOR_SIZE
  if idx ≥ (regionExtent r).2 then none else some ((regionExtent r).1 + idx)

theorem recordSector_eq {r : Region} {i x : Nat} :
    recordSector r (i * SECTOR_SIZE) = some x ↔
      i < (regionExtent r).2 ∧ x = (regionExtent r).1 + i := by
  have hdiv : i * SECTOR_SIZE / SECTOR_SIZE = i := Nat.mul_div_cancel i (by decide)
  simp only [recordSector, hdiv]
  split
  · rename_i h
    simp only [reduceCtorEq, false_iff]
    rintro ⟨hlt, -⟩
    exact absurd hlt (Nat.not_lt.mpr h)
  · rename_i h
    simp only [Option.some.injEq]
    constructor
    · rintro rfl
      exact ⟨Nat.lt_of_not_le h, rfl⟩
    · rintro ⟨-, rfl⟩
      rfl

/-- No log reaches the superblock's sector. -/
theorem recordSector_ne_sb {r : Region} {i x : Nat}
    (h : recordSector r (i * SECTOR_SIZE) = some x) : x ≠ SB_SECTOR := by
  obtain ⟨-, rfl⟩ := recordSector_eq.mp h
  cases r <;> simp only [regionExtent, SB_SECTOR] <;> omega

/-- A sector belongs to one place of one log. -/
theorem recordSector_inj {r r' : Region} {i i' x : Nat}
    (h : recordSector r (i * SECTOR_SIZE) = some x)
    (h' : recordSector r' (i' * SECTOR_SIZE) = some x) : r = r' ∧ i = i' := by
  obtain ⟨hlt, rfl⟩ := recordSector_eq.mp h
  obtain ⟨hlt', he⟩ := recordSector_eq.mp h'
  cases r <;> cases r' <;> simp only [regionExtent] at hlt hlt' he <;>
    first
    | exact ⟨rfl, by omega⟩
    | omega

/-! ## The superblock -/

/-- `b"YUVAMEM0"`. -/
def SB_MAGIC : List UInt8 := [0x59, 0x55, 0x56, 0x41, 0x4d, 0x45, 0x4d, 0x30]

theorem length_magic : SB_MAGIC.length = 8 := rfl

def SB_VERSION : BitVec 32 := 1
def SB_CKSUM_OFF : Nat := 504

/-- The checkpoint: one watermark and one record count per region. -/
structure Superblock where
  version : BitVec 32
  gen : BitVec 64
  logHead : Region → BitVec 64
  recordCount : Region → BitVec 64

/-- One 64-bit word per region, in the source's order. -/
def words (f : Region → BitVec 64) : List UInt8 :=
  le 8 (f .episodic).toNat ++ le 8 (f .semantic).toNat ++ le 8 (f .working).toNat

/-- The checksummed part of a superblock. -/
def superblockBody (gen : BitVec 64) (logHead recordCount : Region → BitVec 64) : List UInt8 :=
  SB_MAGIC ++ le 4 SB_VERSION.toNat ++ List.replicate 4 0 ++ le 8 gen.toNat ++
    words logHead ++ words recordCount ++ List.replicate 432 0

theorem length_superblockBody (gen : BitVec 64) (logHead recordCount : Region → BitVec 64) :
    (superblockBody gen logHead recordCount).length = SB_CKSUM_OFF := by
  simp only [superblockBody, words, List.length_append, length_le, List.length_replicate,
    length_magic, SB_CKSUM_OFF]

def superblockEncode (gen : BitVec 64) (logHead recordCount : Region → BitVec 64) : Sector :=
  ⟨superblockBody gen logHead recordCount ++
      le 8 (fnv1a64 (superblockBody gen logHead recordCount)).toNat,
    by rw [List.length_append, length_superblockBody, length_le, SB_CKSUM_OFF]⟩

/-- The 64-bit word at an offset. -/
def rdU64 (s : List UInt8) (off : Nat) : BitVec 64 := BitVec.ofNat 64 (unle (slice s off 8))

/-- Magic, version, then checksum; the fields only if all three hold. -/
def superblockDecode (s : Sector) : Option Superblock :=
  if slice s.val 0 8 ≠ SB_MAGIC then none
  else
    let version := BitVec.ofNat 32 (unle (slice s.val 8 4))
    if version ≠ SB_VERSION then none
    else if fnv1a64 (s.val.take SB_CKSUM_OFF) ≠ rdU64 s.val SB_CKSUM_OFF then none
    else
      some
        { version := version
          gen := rdU64 s.val 16
          logHead := fun
            | .episodic => rdU64 s.val 24
            | .semantic => rdU64 s.val 32
            | .working => rdU64 s.val 40
          recordCount := fun
            | .episodic => rdU64 s.val 48
            | .semantic => rdU64 s.val 56
            | .working => rdU64 s.val 64 }

theorem rdU64_skip {a : List UInt8} (s : List UInt8) {off : Nat} (h : a.length ≤ off) :
    rdU64 (a ++ s) off = rdU64 s (off - a.length) := by
  rw [rdU64, rdU64, slice_skip s 8 h]

theorem rdU64_skip_word (x : BitVec 64) (s : List UInt8) {off : Nat} (h : 8 ≤ off) :
    rdU64 (le 8 x.toNat ++ s) off = rdU64 s (off - 8) := by
  rw [rdU64_skip s (by rwa [length_le]), length_le]

theorem rdU64_here (x : BitVec 64) (s : List UInt8) : rdU64 (le 8 x.toNat ++ s) 0 = x := by
  rw [rdU64, slice_here _ _ (length_le 8 _)]
  exact ofNat_unle_le rfl x

/-- The checksum gate holds of what was encoded. -/
theorem superblockEncode_cksum (gen : BitVec 64) (logHead recordCount : Region → BitVec 64) :
    fnv1a64 ((superblockEncode gen logHead recordCount).val.take SB_CKSUM_OFF) =
      rdU64 (superblockEncode gen logHead recordCount).val SB_CKSUM_OFF := by
  have hbody := length_superblockBody gen logHead recordCount
  have hread : rdU64 (superblockEncode gen logHead recordCount).val SB_CKSUM_OFF =
      fnv1a64 (superblockBody gen logHead recordCount) := by
    have hhere := rdU64_here (fnv1a64 (superblockBody gen logHead recordCount)) []
    rw [List.append_nil] at hhere
    rw [superblockEncode, rdU64_skip _ (Nat.le_of_eq hbody), hbody, Nat.sub_self, hhere]
  rw [hread, superblockEncode, ← hbody, List.take_left]

theorem superblockDecode_encode (gen : BitVec 64) (logHead recordCount : Region → BitVec 64) :
    superblockDecode (superblockEncode gen logHead recordCount) =
      some ⟨SB_VERSION, gen, logHead, recordCount⟩ := by
  have hck := superblockEncode_cksum gen logHead recordCount
  have hmagic : slice (superblockEncode gen logHead recordCount).val 0 8 = SB_MAGIC := by
    simp only [superblockEncode, superblockBody, List.append_assoc]
    exact slice_here _ _ rfl
  have hver : BitVec.ofNat 32 (unle (slice (superblockEncode gen logHead recordCount).val 8 4)) =
      SB_VERSION := by
    simp only [superblockEncode, superblockBody, List.append_assoc]
    rw [slice_skip _ 4 (Nat.le_of_eq length_magic), length_magic, slice_here _ _ (length_le 4 _)]
    exact ofNat_unle_le rfl SB_VERSION
  -- each word is read past the sixteen bytes and the words before it
  have hword : ∀ off, 16 ≤ off → rdU64 (superblockEncode gen logHead recordCount).val off =
      rdU64 (le 8 gen.toNat ++ (le 8 (logHead .episodic).toNat ++
        (le 8 (logHead .semantic).toNat ++ (le 8 (logHead .working).toNat ++
        (le 8 (recordCount .episodic).toNat ++ (le 8 (recordCount .semantic).toNat ++
        (le 8 (recordCount .working).toNat ++ (List.replicate 432 0 ++ le 8 (fnv1a64
          (superblockBody gen logHead recordCount)).toNat)))))))) (off - 16) := by
    intro off hoff
    have hfront : (SB_MAGIC ++ (le 4 SB_VERSION.toNat ++ List.replicate 4 0)).length = 16 := rfl
    rw [← hfront, ← rdU64_skip _ (by rwa [hfront])]
    simp only [superblockEncode, superblockBody, words, List.append_assoc]
  simp only [superblockDecode, hmagic, hver, hck, ne_eq, not_true_eq_false, if_false,
    Option.some.injEq, Superblock.mk.injEq, true_and]
  refine ⟨?_, funext fun r => ?_, funext fun r => ?_⟩
  · simp (disch := decide) only [hword, rdU64_here, Nat.reduceSub]
  · cases r <;> simp (disch := decide) only [hword, rdU64_skip_word, rdU64_here, Nat.reduceSub]
  · cases r <;> simp (disch := decide) only [hword, rdU64_skip_word, rdU64_here, Nat.reduceSub]

/-! ## The record frame -/

def FRAME_HEADER_LEN : Nat := 24
def MAX_PAYLOAD : Nat := SECTOR_SIZE - FRAME_HEADER_LEN

/-- The tag byte of a region. -/
def regionTag : Region → UInt8
  | .episodic => 0
  | .semantic => 1
  | .working => 2

structure FrameHeader where
  regionTag : UInt8
  len : BitVec 16
  seq : BitVec 64
  payloadCrc : BitVec 32
deriving DecidableEq, Repr

def frameHeaderEncode (h : FrameHeader) : List UInt8 :=
  [h.regionTag, 0] ++ le 2 h.len.toNat ++ le 8 h.seq.toNat ++ le 4 h.payloadCrc.toNat ++
    List.replicate 8 0

/-- The raw fields, unvalidated. -/
def frameHeaderDecode (s : List UInt8) : FrameHeader where
  regionTag := s.headD 0
  len := BitVec.ofNat 16 (unle (slice s 2 2))
  seq := BitVec.ofNat 64 (unle (slice s 4 8))
  payloadCrc := BitVec.ofNat 32 (unle (slice s 12 4))

theorem length_frameHeader (h : FrameHeader) : (frameHeaderEncode h).length = FRAME_HEADER_LEN := by
  simp only [frameHeaderEncode, List.length_append, length_le, List.length_replicate,
    List.length_cons, List.length_nil, FRAME_HEADER_LEN]

/-- `none` for a payload that fits no frame. -/
def recordFrameEncode (tag : UInt8) (seq : BitVec 64) (payload : List UInt8) : Option Sector :=
  if hlen : payload.length > MAX_PAYLOAD then none
  else
    let h : FrameHeader := ⟨tag, BitVec.ofNat 16 payload.length, seq, fnv1a32 payload⟩
    some ⟨frameHeaderEncode h ++ (payload ++ List.replicate (MAX_PAYLOAD - payload.length) 0), by
      rw [List.length_append, length_frameHeader, List.length_append, List.length_replicate]
      simp only [MAX_PAYLOAD, SECTOR_SIZE, FRAME_HEADER_LEN] at hlen ⊢
      omega⟩

/-- The header and the payload's offset, only if the length is in bounds and the
payload's checksum matches. -/
def recordFrameDecode (s : Sector) : Option (FrameHeader × Nat) :=
  let h := frameHeaderDecode (s.val.take FRAME_HEADER_LEN)
  if h.len.toNat > MAX_PAYLOAD then none
  else if fnv1a32 (slice s.val FRAME_HEADER_LEN h.len.toNat) ≠ h.payloadCrc then none
  else some (h, FRAME_HEADER_LEN)

theorem frameHeaderDecode_encode (h : FrameHeader) :
    frameHeaderDecode (frameHeaderEncode h) = h := by
  have hfields : frameHeaderEncode h = [h.regionTag, 0] ++ (le 2 h.len.toNat ++
      (le 8 h.seq.toNat ++ (le 4 h.payloadCrc.toNat ++ List.replicate 8 0))) := by
    simp only [frameHeaderEncode, List.append_assoc]
  have hlen : slice (frameHeaderEncode h) 2 2 = le 2 h.len.toNat := by
    rw [hfields, slice_skip _ 2 (Nat.le_refl 2)]
    exact slice_here _ _ (length_le 2 _)
  have hseq : slice (frameHeaderEncode h) 4 8 = le 8 h.seq.toNat := by
    rw [hfields, slice_skip _ 8 (by simp), slice_skip _ 8 (by simp)]
    simp only [List.length_cons, List.length_nil, length_le]
    exact slice_here _ _ (length_le 8 _)
  have hcrc : slice (frameHeaderEncode h) 12 4 = le 4 h.payloadCrc.toNat := by
    rw [hfields, slice_skip _ 4 (by simp), slice_skip _ 4 (by simp), slice_skip _ 4 (by simp)]
    simp only [List.length_cons, List.length_nil, length_le]
    exact slice_here _ _ (length_le 4 _)
  rw [frameHeaderDecode, hlen, hseq, hcrc, ofNat_unle_le rfl, ofNat_unle_le rfl, ofNat_unle_le rfl,
    hfields]
  rfl

/-- A frame decodes to its four fields and its payload. -/
theorem recordFrameDecode_fields {tag : UInt8} {seq : BitVec 64} {payload : List UInt8} {s : Sector}
    (h : recordFrameEncode tag seq payload = some s) :
    recordFrameDecode s = some (⟨tag, BitVec.ofNat 16 payload.length, seq, fnv1a32 payload⟩, FRAME_HEADER_LEN) ∧
      (BitVec.ofNat 16 payload.length).toNat = payload.length ∧
      slice s.val FRAME_HEADER_LEN payload.length = payload := by
  simp only [recordFrameEncode] at h
  split at h
  · cases h
  · rename_i hle
    have hmax : payload.length ≤ 488 := Nat.le_of_not_gt hle
    cases h
    have hhd : (frameHeaderEncode ⟨tag, BitVec.ofNat 16 payload.length, seq, fnv1a32 payload⟩ ++
        (payload ++ List.replicate (MAX_PAYLOAD - payload.length) 0)).take FRAME_HEADER_LEN =
        frameHeaderEncode ⟨tag, BitVec.ofNat 16 payload.length, seq, fnv1a32 payload⟩ := by
      rw [← length_frameHeader ⟨tag, BitVec.ofNat 16 payload.length, seq, fnv1a32 payload⟩,
        List.take_left]
    have hlen : (BitVec.ofNat 16 payload.length).toNat = payload.length := by
      rw [BitVec.toNat_ofNat]
      exact Nat.mod_eq_of_lt (by omega)
    have hpay : slice (frameHeaderEncode
        ⟨tag, BitVec.ofNat 16 payload.length, seq, fnv1a32 payload⟩ ++
        (payload ++ List.replicate (MAX_PAYLOAD - payload.length) 0)) FRAME_HEADER_LEN
          payload.length = payload := by
      rw [slice_skip _ _ (Nat.le_of_eq (length_frameHeader _)), length_frameHeader, Nat.sub_self]
      exact slice_here _ _ rfl
    refine ⟨?_, hlen, hpay⟩
    simp only [recordFrameDecode, hhd, frameHeaderDecode_encode, hlen, hpay, if_neg hle, ne_eq,
      not_true_eq_false, if_false]

/-- A frame decodes to what was framed. -/
theorem recordFrameDecode_encode {tag : UInt8} {seq : BitVec 64} {payload : List UInt8} {s : Sector}
    (h : recordFrameEncode tag seq payload = some s) :
    ∃ hd, recordFrameDecode s = some (hd, FRAME_HEADER_LEN) ∧ hd.seq = seq ∧
      slice s.val FRAME_HEADER_LEN hd.len.toNat = payload := by
  obtain ⟨hdecode, hlen, hpay⟩ := recordFrameDecode_fields h
  refine ⟨_, hdecode, rfl, ?_⟩
  rw [hlen, hpay]

theorem recordFrameEncode_of_le (tag : UInt8) (seq : BitVec 64) {payload : List UInt8}
    (h : payload.length ≤ MAX_PAYLOAD) : ∃ s, recordFrameEncode tag seq payload = some s := by
  simp only [recordFrameEncode, dif_neg (Nat.not_lt.mpr h)]
  exact ⟨_, rfl⟩

end Yuva.Store
