/-
# `Yuva.Store.Layout` — the sectors of the partition and what is stored in them

`region_extent`, `record_sector` and the two encoders of `tb-encode/src/blkfmt.rs` as they take
their arguments: a region is a tag byte, a log position is a byte watermark, and an encoder
stores its fields at their offsets in a buffer.  `none` is a panic; no run ends there.

    sector     0      1 … 4095    4096 … 6143    6144 … 8191
               super  episodic    semantic       working

**Proved here.**  A sector belongs to one record index of one region, never to the superblock,
and lies inside the partition; a watermark has no sector exactly where its index is past the
extent.  Both encoders store the sectors of `Store.Blkfmt`, whatever the buffer held, and both
decoders answer every field that was encoded (`block_layout`).
-/
import Yuva.Lib.Stores
import Yuva.Store.Blkfmt

namespace Yuva.Store

open Yuva.Bytes Yuva.Checked Yuva.Stores

/-- One past the last sector of the last extent. -/
def PARTITION_SECTORS : Nat := 8192

/-! ## Extents -/

def regionExtentAt (tag : UInt8) : Option (Nat × Nat) :=
  if tag = regionTag .episodic then some (regionExtent .episodic)
  else if tag = regionTag .semantic then some (regionExtent .semantic)
  else if tag = regionTag .working then some (regionExtent .working)
  else none

/-- The answer is `none` for an unknown tag and past the extent; the sum is a machine word. -/
def recordSectorAt (tag : UInt8) (logHead : BitVec 64) : Option (Option Nat) :=
  match regionExtentAt tag with
  | none => some none
  | some (first, count) =>
      let idx := logHead.toNat / SECTOR_SIZE
      if idx ≥ count then some none else (word (first + idx)).map some

theorem regionExtentAt_tag (r : Region) : regionExtentAt (regionTag r) = some (regionExtent r) := by
  cases r <;> rfl

theorem regionExtentAt_eq_some {tag : UInt8} {first count : Nat} :
    regionExtentAt tag = some (first, count) ↔ ∃ r, tag = regionTag r ∧ regionExtent r = (first, count) := by
  constructor
  · intro h
    rw [regionExtentAt] at h
    split_ifs at h with h0 h1 h2
    · exact ⟨.episodic, h0, Option.some.inj h⟩
    · exact ⟨.semantic, h1, Option.some.inj h⟩
    · exact ⟨.working, h2, Option.some.inj h⟩
  · rintro ⟨r, rfl, hr⟩
    rw [regionExtentAt_tag, hr]

theorem extent_inside (r : Region) :
    SB_SECTOR < (regionExtent r).1 ∧ (regionExtent r).1 + (regionExtent r).2 ≤ PARTITION_SECTORS := by
  cases r <;> decide

theorem recordSectorAt_tag (r : Region) (logHead : BitVec 64) :
    recordSectorAt (regionTag r) logHead = some (recordSector r logHead.toNat) := by
  have hin := (extent_inside r).2
  rw [PARTITION_SECTORS] at hin
  rw [recordSectorAt, regionExtentAt_tag, recordSector]
  generalize regionExtent r = e at hin ⊢
  obtain ⟨first, count⟩ := e
  dsimp only at hin ⊢
  by_cases hfull : logHead.toNat / SECTOR_SIZE ≥ count
  · rw [if_pos hfull, if_pos hfull]
  · rw [if_neg hfull, if_neg hfull, word_eq (by omega)]
    rfl

/-- No watermark of any tag is a panic. -/
theorem recordSectorAt_cases (tag : UInt8) (logHead : BitVec 64) :
    (∃ r, tag = regionTag r ∧ recordSectorAt tag logHead = some (recordSector r logHead.toNat)) ∨
      regionExtentAt tag = none ∧ recordSectorAt tag logHead = some none := by
  cases h : regionExtentAt tag with
  | none => exact .inr ⟨rfl, by rw [recordSectorAt, h]⟩
  | some e =>
      obtain ⟨r, rfl, -⟩ := regionExtentAt_eq_some.mp h
      exact .inl ⟨r, rfl, recordSectorAt_tag r logHead⟩

/-- Where a record goes: a byte watermark counts whole sectors. -/
theorem recordSector_floor {r : Region} {logHead x : Nat} :
    recordSector r logHead = some x ↔
      logHead / SECTOR_SIZE < (regionExtent r).2 ∧ x = (regionExtent r).1 + logHead / SECTOR_SIZE := by
  rw [← recordSector_eq, recordSector, recordSector, Nat.mul_div_cancel _ (by decide)]

theorem recordSectorAt_eq_some {tag : UInt8} {logHead : BitVec 64} {x : Nat}
    (h : recordSectorAt tag logHead = some (some x)) :
    ∃ r, tag = regionTag r ∧ logHead.toNat / SECTOR_SIZE < (regionExtent r).2 ∧
      x = (regionExtent r).1 + logHead.toNat / SECTOR_SIZE := by
  rcases recordSectorAt_cases tag logHead with ⟨r, htag, hr⟩ | ⟨-, hr⟩
  · rw [hr] at h
    exact ⟨r, htag, recordSector_floor.mp (Option.some.inj h)⟩
  · rw [hr] at h
    cases h

theorem recordSector_eq_none {r : Region} {logHead : Nat} :
    recordSector r logHead = none ↔ (regionExtent r).2 ≤ logHead / SECTOR_SIZE := by
  rw [recordSector]
  by_cases hfull : (regionExtent r).2 ≤ logHead / SECTOR_SIZE
  · rw [if_pos hfull]
    exact iff_of_true rfl hfull
  · rw [if_neg hfull]
    exact iff_of_false (Option.some_ne_none _) hfull

/-! ## The superblock -/

/-- `superblock_encode`, into a zeroed buffer. -/
def superblockInto (gen : BitVec 64) (logHead recordCount : Region → BitVec 64) : Option (List UInt8) := do
  let s ← copyLoop SB_MAGIC 8 (List.replicate 512 0) 0
  let s ← copyLoop (le 4 SB_VERSION.toNat) 4 s 8
  let s ← copyLoop (le 8 gen.toNat) 8 s 16
  let s ← copyLoop (le 8 (logHead .episodic).toNat) 8 s 24
  let s ← copyLoop (le 8 (logHead .semantic).toNat) 8 s 32
  let s ← copyLoop (le 8 (logHead .working).toNat) 8 s 40
  let s ← copyLoop (le 8 (recordCount .episodic).toNat) 8 s 48
  let s ← copyLoop (le 8 (recordCount .semantic).toNat) 8 s 56
  let s ← copyLoop (le 8 (recordCount .working).toNat) 8 s 64
  let spanned ← cut s 0 SB_CKSUM_OFF
  copyLoop (le 8 (fnv1a64 spanned).toNat) 8 s SB_CKSUM_OFF

theorem superblockInto_eq (gen : BitVec 64) (logHead recordCount : Region → BitVec 64) :
    superblockInto gen logHead recordCount = some (superblockEncode gen logHead recordCount).val := by
  have hbody := length_superblockBody gen logHead recordCount
  have hz : (List.replicate 512 (0 : UInt8)).length = 512 := List.length_replicate
  have hfields : SB_MAGIC ++ le 4 SB_VERSION.toNat ++ List.replicate 4 0 ++ le 8 gen.toNat ++
      le 8 (logHead .episodic).toNat ++ le 8 (logHead .semantic).toNat ++ le 8 (logHead .working).toNat ++
      le 8 (recordCount .episodic).toNat ++ le 8 (recordCount .semantic).toNat ++
      le 8 (recordCount .working).toNat ++ List.replicate 432 0 = superblockBody gen logHead recordCount := by
    simp only [superblockBody, words, List.append_assoc]
  have hoff : SB_CKSUM_OFF = 504 := rfl
  rw [superblockInto, copyLoop_eq length_magic (by omega), some_bind,
    copyLoop_front 8 length_magic (length_le 4 _) (by omega), some_bind,
    splice_zeros (n := 4) (by simp [length_magic]),
    copyLoop_front 16 (by simp [length_magic]) (length_le 8 _) (by omega), some_bind,
    copyLoop_front 24 (by simp [length_magic]) (length_le 8 _) (by omega), some_bind,
    copyLoop_front 32 (by simp [length_magic]) (length_le 8 _) (by omega), some_bind,
    copyLoop_front 40 (by simp [length_magic]) (length_le 8 _) (by omega), some_bind,
    copyLoop_front 48 (by simp [length_magic]) (length_le 8 _) (by omega), some_bind,
    copyLoop_front 56 (by simp [length_magic]) (length_le 8 _) (by omega), some_bind,
    copyLoop_front 64 (by simp [length_magic]) (length_le 8 _) (by omega), some_bind,
    splice_zeros (n := 432) (by simp [length_magic]), hfields,
    cut_eq (by rw [length_splice (by omega)]; omega), some_bind, slice_splice (by omega) hbody,
    copyLoop_front _ hbody (length_le 8 _) (by omega), splice_all (by rw [List.length_append, length_le]; omega)]
  rfl

/-! ## The record frame -/

/-- `frame_header_encode`, into a zeroed buffer. -/
def frameHeaderInto (tag : UInt8) (len : BitVec 16) (seq : BitVec 64) (payloadCrc : BitVec 32) :
    Option (List UInt8) := do
  let h ← setAt (List.replicate FRAME_HEADER_LEN 0) 0 tag
  let h ← copyLoop (le 2 len.toNat) 2 h 2
  let h ← copyLoop (le 8 seq.toNat) 8 h 4
  copyLoop (le 4 payloadCrc.toNat) 4 h 12

/-- `record_frame_encode`: whether the payload fits, and the buffer. -/
def recordFrameInto (tag : UInt8) (seq : BitVec 64) (payload out : List UInt8) : Option (Bool × List UInt8) :=
  if payload.length > MAX_PAYLOAD then some (false, out)
  else do
    let crc := fnv1a32 payload
    let hdr ← frameHeaderInto tag (BitVec.ofNat 16 payload.length) seq crc
    let out ← fillLoop 512 out 0
    let out ← copyLoop hdr FRAME_HEADER_LEN out 0
    let out ← copyLoop payload payload.length out FRAME_HEADER_LEN
    return (true, out)

theorem frameHeaderInto_eq (tag : UInt8) (len : BitVec 16) (seq : BitVec 64) (payloadCrc : BitVec 32) :
    frameHeaderInto tag len seq payloadCrc = some (frameHeaderEncode ⟨tag, len, seq, payloadCrc⟩) := by
  have hlen : FRAME_HEADER_LEN = 24 := rfl
  have hz : (List.replicate 24 (0 : UInt8)).length = 24 := List.length_replicate
  rw [frameHeaderInto, hlen, setAt_eq (by omega), some_bind, splice_zeros (n := 1) (by simp),
    copyLoop_front 2 rfl (length_le 2 _) (by omega), some_bind,
    copyLoop_front 4 (by simp) (length_le 8 _) (by omega), some_bind,
    copyLoop_front 12 (by simp) (length_le 4 _) (by omega), splice_zeros (n := 8) (by simp),
    splice_all (by simp)]
  rfl

theorem recordFrameInto_eq (tag : UInt8) (seq : BitVec 64) (payload : List UInt8) (out : Sector) :
    recordFrameInto tag seq payload out.val =
      some (match recordFrameEncode tag seq payload with
        | none => (false, out.val)
        | some s => (true, s.val)) := by
  have hout := out.property
  have hmax : MAX_PAYLOAD = 488 := rfl
  have hhdr := length_frameHeader ⟨tag, BitVec.ofNat 16 payload.length, seq, fnv1a32 payload⟩
  have hlen : FRAME_HEADER_LEN = 24 := rfl
  have hz : (List.replicate 512 (0 : UInt8)).length = 512 := List.length_replicate
  rw [recordFrameInto, recordFrameEncode]
  by_cases hlong : payload.length > MAX_PAYLOAD
  · rw [if_pos hlong, dif_pos hlong]
  · rw [if_neg hlong, dif_neg hlong]
    dsimp only
    rw [frameHeaderInto_eq, some_bind, fillLoop_eq (by omega), some_bind,
      splice_all (by omega), copyLoop_eq hhdr (by omega), some_bind, copyLoop_front _ hhdr rfl (by omega), some_bind,
      splice_zeros (n := MAX_PAYLOAD - payload.length) (by rw [List.length_append]; omega),
      splice_all (by rw [List.length_append, List.length_append, List.length_replicate]; omega), List.append_assoc]
    rfl

/-! ## The layout -/

/-- The extents of the format: a tag, its first sector and how many follow. -/
def extents : List (UInt8 × Nat × Nat) := [(0, 1, 4095), (1, 4096, 2048), (2, 6144, 2048)]

/-- The sector of a watermark, by the table. -/
theorem recordSectorAt_extent {e : UInt8 × Nat × Nat} (he : e ∈ extents) (logHead : BitVec 64) :
    recordSectorAt e.1 logHead =
      some (if logHead.toNat / 512 < e.2.2 then some (e.2.1 + logHead.toNat / 512) else none) := by
  have htag : ∃ r, e = (regionTag r, regionExtent r) := by
    simp only [extents, List.mem_cons, List.not_mem_nil, or_false] at he
    rcases he with rfl | rfl | rfl
    · exact ⟨.episodic, rfl⟩
    · exact ⟨.semantic, rfl⟩
    · exact ⟨.working, rfl⟩
  obtain ⟨r, rfl⟩ := htag
  rw [recordSectorAt_tag, Option.some.injEq]
  by_cases hin : logHead.toNat / 512 < (regionExtent r).2
  · rw [if_pos hin]
    exact recordSector_floor.mpr ⟨hin, rfl⟩
  · rw [if_neg hin]
    exact recordSector_eq_none.mpr (Nat.le_of_not_lt hin)

/-- A tag that is not in the table has no sector. -/
theorem recordSectorAt_unknown {tag : UInt8} (hno : ∀ e ∈ extents, e.1 ≠ tag) (logHead : BitVec 64) :
    recordSectorAt tag logHead = some none := by
  rcases recordSectorAt_cases tag logHead with ⟨r, rfl, -⟩ | ⟨-, hr⟩
  · exfalso
    cases r
    · exact hno (0, 1, 4095) (by decide) rfl
    · exact hno (1, 4096, 2048) (by decide) rfl
    · exact hno (2, 6144, 2048) (by decide) rfl
  · exact hr

/-- A record of a region lies where the table says, or nowhere when its index is past the extent
or its tag unknown; so distinct records have distinct sectors inside the partition, off the
superblock.  Both codecs give back every field. -/
theorem block_layout :
    (∀ e ∈ extents, ∀ logHead : BitVec 64, recordSectorAt e.1 logHead =
      some (if logHead.toNat / 512 < e.2.2 then some (e.2.1 + logHead.toNat / 512) else none)) ∧
    (∀ tag : UInt8, (∀ e ∈ extents, e.1 ≠ tag) → ∀ logHead : BitVec 64,
      recordSectorAt tag logHead = some none) ∧
    (∀ (tag tag' : UInt8) (logHead logHead' : BitVec 64) (x : Nat),
      recordSectorAt tag logHead = some (some x) → recordSectorAt tag' logHead' = some (some x) →
        tag = tag' ∧ logHead.toNat / SECTOR_SIZE = logHead'.toNat / SECTOR_SIZE) ∧
    (∀ (tag : UInt8) (logHead : BitVec 64) (x : Nat), recordSectorAt tag logHead = some (some x) →
      x ≠ SB_SECTOR ∧ x < PARTITION_SECTORS) ∧
    (∀ (gen : BitVec 64) (logHead recordCount : Region → BitVec 64), ∃ s : Sector,
      superblockInto gen logHead recordCount = some s.val ∧
        superblockDecode s = some ⟨SB_VERSION, gen, logHead, recordCount⟩) ∧
    (∀ (tag : UInt8) (seq : BitVec 64) (payload : List UInt8) (out : Sector),
      (payload.length ≤ MAX_PAYLOAD → ∃ s : Sector, recordFrameInto tag seq payload out.val = some (true, s.val) ∧
        recordFrameDecode s = some (⟨tag, BitVec.ofNat 16 payload.length, seq, fnv1a32 payload⟩, FRAME_HEADER_LEN) ∧
        (BitVec.ofNat 16 payload.length).toNat = payload.length ∧
        slice s.val FRAME_HEADER_LEN payload.length = payload) ∧
      (MAX_PAYLOAD < payload.length → recordFrameInto tag seq payload out.val = some (false, out.val))) := by
  refine ⟨fun e he => recordSectorAt_extent he, fun tag hno => recordSectorAt_unknown hno, ?_, ?_, ?_, ?_⟩
  · intro tag tag' logHead logHead' x h h'
    obtain ⟨r, rfl, hin, rfl⟩ := recordSectorAt_eq_some h
    obtain ⟨r', rfl, hin', hx⟩ := recordSectorAt_eq_some h'
    obtain ⟨rfl, hidx⟩ := recordSector_inj (recordSector_eq.mpr ⟨hin, rfl⟩) (recordSector_eq.mpr ⟨hin', hx⟩)
    exact ⟨rfl, hidx⟩
  · intro tag logHead x h
    obtain ⟨r, -, hin, rfl⟩ := recordSectorAt_eq_some h
    obtain ⟨hfirst, hlast⟩ := extent_inside r
    generalize logHead.toNat / SECTOR_SIZE = idx at hin ⊢
    omega
  · intro gen logHead recordCount
    exact ⟨_, superblockInto_eq gen logHead recordCount, superblockDecode_encode gen logHead recordCount⟩
  · intro tag seq payload out
    refine ⟨?_, ?_⟩
    · intro hfits
      obtain ⟨s, hs⟩ := recordFrameEncode_of_le tag seq hfits
      refine ⟨s, ?_, recordFrameDecode_fields hs⟩
      rw [recordFrameInto_eq, hs]
    · intro hlong
      rw [recordFrameInto, if_pos hlong]

/-- The last record of an extent has the sector before the next extent, the one after it none; an
unknown tag has none; a superblock and a frame are read back. -/
theorem block_layout_edges :
    recordSectorAt 0 (4094 * 512) = some (some 4095) ∧ recordSectorAt 0 (4095 * 512) = some none ∧
    recordSectorAt 1 511 = some (some 4096) ∧ recordSectorAt 3 0 = some none ∧
    (∃ s : Sector, superblockInto 7 (fun _ => 1024) (fun _ => 2) = some s.val ∧
      superblockDecode s = some ⟨SB_VERSION, 7, fun _ => 1024, fun _ => 2⟩) ∧
    ∃ s : Sector, recordFrameInto 2 9 [5, 6] (List.replicate 512 255) = some (true, s.val) ∧
      recordFrameDecode s = some (⟨2, 2, 9, fnv1a32 [5, 6]⟩, FRAME_HEADER_LEN) ∧
      slice s.val FRAME_HEADER_LEN 2 = [5, 6] := by
  obtain ⟨hextent, hunknown, -, -, hsuper, hframe⟩ := block_layout
  refine ⟨?_, ?_, ?_, hunknown 3 (by decide) 0, hsuper 7 _ _, ?_⟩
  · rw [hextent (0, 1, 4095) (by decide)]
    decide
  · rw [hextent (0, 1, 4095) (by decide)]
    decide
  · rw [hextent (1, 4096, 2048) (by decide)]
    decide
  · obtain ⟨s, hs, hdecode, -, hpayload⟩ :=
      (hframe 2 9 [5, 6] ⟨List.replicate 512 255, List.length_replicate⟩).1 (by decide)
    exact ⟨s, hs, hdecode, hpayload⟩

end Yuva.Store
