/-
# `Yuva.Prov.Slab` — a record stored into its slab

`encode` of `tb-encode/src/provhead.rs` with the stores it is made of: the blob is built in
a scratch buffer of the caller and then cut into the sectors of the slab, a buffer that
still holds what an earlier record left there.  `none` is a panic, and no run ends there:
`encodeInto_eq` says that the stores leave the sectors of `encode` at the front of the slab
and nothing behind them changed.

**Proved here.**  What was encoded is read back, whatever stands behind it
(`encodeInto_decode`).
-/
import Yuva.Lib.Stores
import Yuva.Prov.Head

namespace Yuva.Prov

open Yuva.Bytes Yuva.Checked Yuva.Stores
open Yuva.Store (fnv1a32 fnv1a64 Sector)

/-- `put_u16`, `put_u32` and `put_u64`, with 2, 4 and 8 for `k`. -/
def putLe (k v : Nat) (b : List UInt8) (off : Nat) : Option (List UInt8) := copyLoop (le k v) k b off

/-- The blob, in the scratch buffer. -/
def storeBlob (r : HeadRecord) (blob : List UInt8) : Option (List UInt8) := do
  let siglen := r.sig.length
  let l := blobLen siglen
  let blob ← fillLoop l blob 0
  let blob ← copyLoop PROV_MAGIC 2 blob OFF_MAGIC
  let blob ← setAt blob OFF_VERSION PROV_VERSION
  let blob ← putLe 8 r.gen.toNat blob OFF_GEN
  let blob ← putLe 4 r.q.toNat blob OFF_Q
  let blob ← putLe 2 siglen blob OFF_SIGLEN
  let blob ← copyLoop r.head.val HEAD_LEN blob OFF_HEAD
  let blob ← copyLoop r.iId.val I_LEN blob OFF_I
  let blob ← copyLoop r.pubroot.val ROOT_LEN blob OFF_ROOT
  let blob ← copyLoop r.sig siglen blob OFF_SIG
  let spanned ← cut blob 0 (l - BLOB_CRC)
  putLe 8 (fnv1a64 spanned).toNat blob (l - BLOB_CRC)

/-- `while i < SEC_PAYLOAD && pstart + i < l { out[base + i] = blob[pstart + i]; i += 1 }`,
with the steps that are left of the first bound. -/
def copyPayload (blob : List UInt8) (l pstart base : Nat) : Nat → Nat → List UInt8 → Option (List UInt8)
  | _, 0, out => some out
  | i, left + 1, out =>
      if pstart + i < l then do
        let b ← byteAt blob (pstart + i)
        let out ← setAt out (base + i) b
        copyPayload blob l pstart base (i + 1) left out
      else some out

/-- Sector `s` of the slab. -/
def storeSector (genTag : BitVec 32) (blob : List UInt8) (l s : Nat) (out : List UInt8) : Option (List UInt8) := do
  let sbase := s * SECTOR
  let out ← fillLoop SECTOR out sbase
  let out ← putLe 4 genTag.toNat out sbase
  let pstart := s * SEC_PAYLOAD
  let out ← copyPayload blob l pstart (sbase + SEC_META) 0 SEC_PAYLOAD out
  let sec ← cut out sbase SECTOR
  putLe 4 (sectorCrc sec).toNat out (sbase + 4)

/-- The sectors from `s` on, as many. -/
def storeSectors (genTag : BitVec 32) (blob : List UInt8) (l : Nat) : Nat → Nat → List UInt8 → Option (List UInt8)
  | _, 0, out => some out
  | s, n + 1, out => do
      let out ← storeSector genTag blob l s out
      storeSectors genTag blob l (s + 1) n out

/-- `encode`: the bytes written, and the two buffers it leaves. -/
def encodeInto (r : HeadRecord) (blob out : List UInt8) : Option (Nat × List UInt8 × List UInt8) :=
  let siglen := r.sig.length
  match sectorsFor siglen with
  | none => some (0, blob, out)
  | some nSectors =>
      let l := blobLen siglen
      if blob.length < l ∨ out.length < nSectors * SECTOR then some (0, blob, out)
      else do
        let blob ← storeBlob r blob
        let out ← storeSectors (genTag r.gen) blob l 0 nSectors out
        return (nSectors * SECTOR, blob, out)

/-! ## The blob -/

theorem storeBlob_eq (r : HeadRecord) {buf : List UInt8} (h : blobLen r.sig.length ≤ buf.length) :
    storeBlob r buf = some (splice buf 0 (blob r)) := by
  have hl : blobLen r.sig.length = 106 + r.sig.length := by
    simp only [blobLen, BLOB_FIXED, BLOB_CRC]
    omega
  have hzeros : (List.replicate (blobLen r.sig.length) (0 : UInt8)).length = blobLen r.sig.length :=
    List.length_replicate
  have hbody : (blobBody r).length = blobLen r.sig.length - BLOB_CRC := length_blobBody r
  have hcrc : BLOB_CRC = 8 := rfl
  have hmagic : PROV_MAGIC.length = 2 := rfl
  have hhead := r.head.property
  have hid := r.iId.property
  have hroot := r.pubroot.property
  rw [storeBlob, fillLoop_eq (by omega), some_bind]
  -- every later store goes to the zeroed buffer
  generalize hz : splice buf 0 (List.replicate (blobLen r.sig.length) 0) = z
  have hlen : z.length = buf.length := by
    rw [← hz, length_splice (by omega)]
  have hthree : z[(PROV_MAGIC ++ [PROV_VERSION]).length]? = some 0 := by
    have hlt : 3 < 106 + r.sig.length := by omega
    rw [← hz, hl, splice, List.take_zero, List.nil_append,
      List.getElem?_append_left (by rw [List.length_replicate]; exact hlt), List.getElem?_replicate]
    exact if_pos hlt
  have hfields : PROV_MAGIC ++ [PROV_VERSION] ++ [0] ++ le 8 r.gen.toNat ++ le 4 r.q.toNat ++
      le 2 r.sig.length ++ r.head.val ++ r.iId.val ++ r.pubroot.val ++ r.sig = blobBody r := by
    simp [blobBody, blobFields]
  rw [copyLoop_eq hmagic (by rw [OFF_MAGIC]; omega), some_bind, OFF_MAGIC,
    setAt_front OFF_VERSION rfl (by rw [OFF_VERSION]; omega), some_bind, splice_keep hthree,
    putLe, copyLoop_front OFF_GEN rfl (length_le 8 _) (by rw [OFF_GEN]; omega), some_bind,
    putLe, copyLoop_front OFF_Q rfl (length_le 4 _) (by rw [OFF_Q]; omega), some_bind,
    putLe, copyLoop_front OFF_SIGLEN rfl (length_le 2 _) (by rw [OFF_SIGLEN]; omega), some_bind,
    copyLoop_front OFF_HEAD rfl hhead (by rw [OFF_HEAD, HEAD_LEN]; omega), some_bind,
    copyLoop_front OFF_I (by simp [hhead, PROV_MAGIC, OFF_I, HEAD_LEN]) hid (by rw [OFF_I, I_LEN]; omega), some_bind,
    copyLoop_front OFF_ROOT (by simp [hhead, hid, PROV_MAGIC, OFF_ROOT, HEAD_LEN, I_LEN]) hroot
      (by rw [OFF_ROOT, ROOT_LEN]; omega), some_bind,
    copyLoop_front OFF_SIG (by simp [hhead, hid, hroot, PROV_MAGIC, OFF_SIG, HEAD_LEN, I_LEN, ROOT_LEN]) rfl
      (by rw [OFF_SIG]; omega), some_bind, hfields,
    cut_eq (by rw [length_splice (by omega)]; omega), some_bind, slice_splice (by omega) hbody,
    putLe, copyLoop_front _ hbody (length_le 8 _) (by omega), ← hz]
  exact congrArg some (splice_over (by omega) ((length_blob r).trans hzeros.symm))

/-! ## The sectors -/

theorem copyPayload_eq (blob : List UInt8) (l pstart base i left : Nat) (out : List UInt8) :
    copyPayload blob l pstart base i left out =
      copyFrom blob pstart base i (min left (l - (pstart + i))) out := by
  induction left generalizing i out with
  | zero => rw [Nat.zero_min, copyPayload, copyFrom]
  | succ left ih =>
      rw [copyPayload]
      split
      case isTrue hin =>
        have hsucc : min (left + 1) (l - (pstart + i)) = min left (l - (pstart + (i + 1))) + 1 := by omega
        simp only [hsucc, copyFrom, ih]
      case isFalse hend =>
        have hzero : min (left + 1) (l - (pstart + i)) = 0 := by omega
        rw [hzero, copyFrom]

/-- A zeroed sector that was given its tag and the bytes it carries. -/
theorem splice_payload (tag : BitVec 32) (bytes : List UInt8) (s : Nat) :
    splice (splice (List.replicate SECTOR 0) 0 (le 4 tag.toNat)) SEC_META
        (slice bytes (s * SEC_PAYLOAD) (min SEC_PAYLOAD (bytes.length - s * SEC_PAYLOAD))) =
      le 4 tag.toNat ++ (List.replicate 4 0 ++ (payloadAt bytes s).val) := by
  have hpay : SEC_PAYLOAD = 504 := rfl
  generalize hk : min SEC_PAYLOAD (bytes.length - s * SEC_PAYLOAD) = k
  have hchunk : (slice bytes (s * SEC_PAYLOAD) k).length = k := by
    simp only [slice, List.length_take, List.length_drop]
    omega
  have htagged : splice (List.replicate SECTOR 0) 0 (le 4 tag.toNat) =
      (le 4 tag.toNat ++ List.replicate 4 0) ++ List.replicate 504 0 := by
    rw [splice, List.take_zero, List.nil_append, length_le, List.drop_replicate, List.append_assoc,
      List.replicate_append_replicate]
    rfl
  have hfront : (le 4 tag.toNat ++ List.replicate 4 0).length = SEC_META := by
    rw [List.length_append, length_le]
    rfl
  rw [htagged, splice, List.take_left' hfront, hchunk, ← List.drop_drop, List.drop_left' hfront,
    List.drop_replicate, payloadAt, fixed_val_zeros, hk, hpay]
  simp only [List.append_assoc]

/-- The checksum of such a sector, stored in the gap that was left for it. -/
theorem splice_crc (tag : BitVec 32) (payload : Block SEC_PAYLOAD) {data : List UInt8}
    (hdata : data = le 4 tag.toNat ++ (List.replicate 4 0 ++ payload.val)) :
    splice data 4 (le 4 (sectorCrc data).toNat) = (stampSector tag payload).val := by
  have htag := length_le 4 tag.toNat
  have hgap : (le 4 tag.toNat ++ List.replicate 4 0).length = SEC_META := by
    rw [List.length_append, htag]
    rfl
  have hcrc : sectorCrc data = fnv1a32Chain (fnv1a32 (le 4 tag.toNat)) payload.val := by
    have hhead : slice data 0 4 = le 4 tag.toNat := by
      rw [hdata]
      exact slice_here _ _ htag
    have htail : slice data SEC_META SEC_PAYLOAD = payload.val := by
      rw [hdata, ← List.append_assoc]
      exact slice_tail hgap payload.property
    rw [sectorCrc, hhead, htail]
  rw [hcrc, hdata, splice, List.take_left' htag, length_le, ← List.drop_drop, List.drop_left' htag,
    List.drop_left' List.length_replicate]
  simp [stampSector, stampFields]

theorem storeSector_eq (tag : BitVec 32) (bytes rest : List UInt8) {s : Nat} {out : List UInt8}
    (hs : s * SEC_PAYLOAD ≤ bytes.length) (h : s * SECTOR + SECTOR ≤ out.length) :
    storeSector tag (bytes ++ rest) bytes.length s out =
      some (splice out (s * SECTOR) (stampSector tag (payloadAt bytes s)).val) := by
  have hsec : SECTOR = 512 := rfl
  have hmeta : SEC_META = 8 := rfl
  have hpay : SEC_PAYLOAD = 504 := rfl
  have hzeros : (List.replicate SECTOR (0 : UInt8)).length = SECTOR := List.length_replicate
  have htag := length_le 4 tag.toNat
  have hlen : (bytes ++ rest).length = bytes.length + rest.length := List.length_append
  have hdata := splice_payload tag bytes s
  generalize hk : min SEC_PAYLOAD (bytes.length - s * SEC_PAYLOAD) = k at hdata
  generalize hfirst : splice (List.replicate SECTOR 0) 0 (le 4 tag.toNat) = first at hdata
  generalize hall : splice first SEC_META (slice bytes (s * SEC_PAYLOAD) k) = data at hdata
  have hchunk : slice (bytes ++ rest) (s * SEC_PAYLOAD) k = slice bytes (s * SEC_PAYLOAD) k :=
    slice_append _ (by omega)
  have hchunkLen : (slice bytes (s * SEC_PAYLOAD) k).length = k := length_slice (by omega)
  have hfirstLen : first.length = SECTOR := by
    rw [← hfirst, length_splice (by omega), hzeros]
  have hdataLen : data.length = SECTOR := by
    rw [← hall, length_splice (by omega), hfirstLen]
  have htagged : splice (splice out (s * SECTOR) (List.replicate SECTOR 0)) (s * SECTOR) (le 4 tag.toNat) =
      splice out (s * SECTOR) first := by
    have hinside := splice_inside (k := 0) (b := le 4 tag.toNat)
      (by omega : s * SECTOR + (List.replicate SECTOR (0 : UInt8)).length ≤ out.length) (by omega)
    rwa [Nat.add_zero, hfirst] at hinside
  rw [storeSector, fillLoop_eq (by omega), some_bind, putLe,
    copyLoop_eq htag (by rw [length_splice (by omega)]; omega), some_bind, htagged]
  dsimp only
  rw [copyPayload_eq, Nat.add_zero, hk, copyFrom_eq (by omega) (by rw [length_splice (by omega)]; omega), some_bind,
    Nat.add_zero, Nat.add_zero, hchunk, splice_inside (by omega) (by omega), hall,
    cut_eq (by rw [length_splice (by omega)]; omega), some_bind, slice_splice (by omega) hdataLen,
    putLe, copyLoop_eq (length_le 4 _) (by rw [length_splice (by omega)]; omega),
    splice_inside (by omega) (by rw [length_le]; omega), splice_crc tag _ hdata]

/-- The sectors of a slab, one behind the other. -/
theorem storeSectors_eq (tag : BitVec 32) (bytes rest : List UInt8) {s n : Nat} {out : List UInt8}
    (hs : ∀ i < s + n, i * SEC_PAYLOAD ≤ bytes.length) (h : (s + n) * SECTOR ≤ out.length) :
    storeSectors tag (bytes ++ rest) bytes.length s n out =
      some (splice out (s * SECTOR)
        ((List.range' s n).map fun s => (stampSector tag (payloadAt bytes s)).val).flatten) := by
  induction n generalizing s out with
  | zero => simp [storeSectors]
  | succ n ih =>
      have hlen : (stampSector tag (payloadAt bytes s)).val.length = SECTOR :=
        (stampSector tag (payloadAt bytes s)).property
      have hshift : s + (n + 1) = s + 1 + n := by omega
      have hsum : (s + 1 + n) * SECTOR = s * SECTOR + SECTOR + n * SECTOR := by
        rw [Nat.add_mul, Nat.succ_mul]
      rw [hshift] at hs h
      have hroom : s * SECTOR + SECTOR ≤ out.length := by omega
      have hin : s * SECTOR + (stampSector tag (payloadAt bytes s)).val.length ≤ out.length := by
        rw [hlen]
        exact hroom
      have hjoin := splice_splice
        (b := ((List.range' (s + 1) n).map fun s => (stampSector tag (payloadAt bytes s)).val).flatten) hin
      rw [hlen] at hjoin
      rw [storeSectors, storeSector_eq tag bytes rest (hs s (by omega)) hroom, some_bind,
        ih hs (by rw [length_splice hin]; exact h), Nat.succ_mul, hjoin, List.range'_succ, List.map_cons,
        List.flatten_cons]

/-! ## The record -/

theorem flatten_encodeSectors (r : HeadRecord) (n : Nat) :
    (((List.range' 0 n).map fun s => (stampSector (genTag r.gen) (payloadAt (blob r) s)).val).flatten) =
      ((encodeSectors r n).map Subtype.val).flatten := by
  rw [encodeSectors, List.map_map, List.range_eq_range']
  rfl

theorem length_of_mem_sectors {sectors : List Sector} {bytes : List UInt8}
    (h : bytes ∈ sectors.map Subtype.val) : bytes.length = SECTOR := by
  obtain ⟨s, -, rfl⟩ := List.mem_map.mp h
  exact s.property

theorem length_encodeSectors (r : HeadRecord) (n : Nat) :
    ((encodeSectors r n).map Subtype.val).flatten.length = n * SECTOR := by
  rw [length_flatten_of_eq fun _ => length_of_mem_sectors, List.length_map, encodeSectors,
    List.length_map, List.length_range, Nat.mul_comm]

/-- The stores leave what `encode` says in front of what the buffers held behind it. -/
theorem encodeInto_eq (r : HeadRecord) (blobBuf out : List UInt8) :
    encodeInto r blobBuf out =
      some (match encode r blobBuf.length out.length with
        | none => (0, blobBuf, out)
        | some bytes => (bytes.length, splice blobBuf 0 (blob r), splice out 0 bytes)) := by
  rw [encodeInto, encode]
  dsimp only
  cases hn : sectorsFor r.sig.length with
  | none => rfl
  | some n =>
      dsimp only
      split
      · rfl
      case isFalse hroom =>
        obtain ⟨hblob, hout⟩ := not_or.mp hroom
        rw [Nat.not_lt] at hblob hout
        have hsectors : ∀ i < 0 + n, i * SEC_PAYLOAD ≤ (blob r).length := by
          have hlast : (n - 1) * SEC_PAYLOAD ≤ blobLen r.sig.length := by
            have hpay : SEC_PAYLOAD = 504 := rfl
            have hcount := sectorsFor_count hn
            rw [hpay] at hcount ⊢
            omega
          intro i hi
          rw [length_blob]
          exact Nat.le_trans (Nat.mul_le_mul_right _ (by omega)) hlast
        have hstore := storeSectors_eq (genTag r.gen) (blob r) (blobBuf.drop (blob r).length) hsectors
          (by rwa [Nat.zero_add] : (0 + n) * SECTOR ≤ out.length)
        rw [flatten_encodeSectors, Nat.zero_mul] at hstore
        have hblobBuf : splice blobBuf 0 (blob r) = blob r ++ blobBuf.drop (blob r).length := by
          rw [splice, List.take_zero, List.nil_append, Nat.zero_add]
        rw [storeBlob_eq r hblob, some_bind, hblobBuf, ← length_blob, hstore, some_bind]
        exact congrArg (fun k => some (k, _, _)) (length_encodeSectors r n).symm

/-- The signature stands in the blob. -/
theorem slice_sig (r : HeadRecord) : slice (blob r) OFF_SIG r.sig.length = r.sig := by
  have hsig : slice (blobBody r) OFF_SIG r.sig.length = r.sig := slice_tail (length_blobFields r) rfl
  have hin : OFF_SIG + r.sig.length ≤ (blobBody r).length := by
    rw [blobBody, List.length_append, length_blobFields]
    exact Nat.le_refl _
  rw [blob, slice_append _ hin, hsig]

/-- The sectors in front of any bytes decode to the record. -/
theorem decode_front {r : HeadRecord} {n blobBuf : Nat} (hn : sectorsFor r.sig.length = some n)
    (hbb : blobLen r.sig.length ≤ blobBuf) (stale : List UInt8) :
    decode (((encodeSectors r n).map Subtype.val).flatten ++ stale) blobBuf = some (decodedOf r n) := by
  refine decode_sectors hn ?_ hbb fun s hs => ?_
  · rw [List.length_append, length_encodeSectors]
    omega
  · have hget : ((encodeSectors r n).map Subtype.val)[s]? = some (recordSector r s).val := by
      rw [encodeSectors, List.map_map, List.getElem?_map, List.getElem?_range hs]
      rfl
    exact slice_flatten stale (fun _ => length_of_mem_sectors) hget

theorem encode_of_room {r : HeadRecord} {n blobBuf outBuf : Nat} (hn : sectorsFor r.sig.length = some n)
    (hblob : blobLen r.sig.length ≤ blobBuf) (hout : n * SECTOR ≤ outBuf) :
    encode r blobBuf outBuf = some ((encodeSectors r n).map Subtype.val).flatten := by
  rw [encode, hn]
  exact if_neg (not_or.mpr ⟨Nat.not_lt.mpr hblob, Nat.not_lt.mpr hout⟩)

/-- The encoder that writes anything writes the sectors of its record. -/
theorem encode_some {r : HeadRecord} {blobBuf outBuf : Nat} {bytes : List UInt8}
    (h : encode r blobBuf outBuf = some bytes) :
    ∃ n, sectorsFor r.sig.length = some n ∧ n * SECTOR ≤ outBuf ∧
      bytes = ((encodeSectors r n).map Subtype.val).flatten := by
  rw [encode] at h
  split at h
  · cases h
  case h_2 n hn =>
    split at h
    · cases h
    case isFalse hroom => exact ⟨n, hn, Nat.not_lt.mp (not_or.mp hroom).2, (Option.some.inj h).symm⟩

theorem sectorsFor_of_le {siglen : Nat} (h : siglen ≤ SIG_CAP) :
    ∃ n, sectorsFor siglen = some n ∧ n ≤ MAX_SECTORS := by
  refine ⟨_, if_neg (Nat.not_lt.mpr h), Nat.div_le_div_right ?_⟩
  rw [blobLen, BLOB_CAP]
  omega

/-- A run of the encoder writes whole sectors and nothing behind them. -/
theorem encodeInto_sectors (r : HeadRecord) (scratch slab : List UInt8) :
    ∃ k scratch' slab', encodeInto r scratch slab = some (k * SECTOR, scratch', slab') ∧
      slab'.length = slab.length ∧ k * SECTOR ≤ slab.length ∧
      slab'.drop (k * SECTOR) = slab.drop (k * SECTOR) := by
  rw [encodeInto_eq]
  cases he : encode r scratch.length slab.length with
  | none => exact ⟨0, scratch, slab, by rw [Nat.zero_mul], rfl, by omega, rfl⟩
  | some bytes =>
      obtain ⟨n, -, hroom, hbytes⟩ := encode_some he
      have hlen : bytes.length = n * SECTOR := by rw [hbytes, length_encodeSectors]
      refine ⟨n, splice scratch 0 (blob r), splice slab 0 bytes,
        congrArg (fun k => some (k, _, _)) hlen, ?_, hroom, ?_⟩
      · exact length_splice (by omega)
      · rw [splice, List.take_zero, List.nil_append, Nat.zero_add, List.drop_left' hlen, hlen]

/-- Whatever the buffers hold and whatever their sizes, `encode` writes some whole sectors at
the front of the slab and no byte behind them.  A signature that fits the format takes at most
the sectors of a slab; when the buffers hold them, `decode` reads the fields and the signature
back, the older bytes behind them notwithstanding. -/
theorem encodeInto_decode (r : HeadRecord) (scratch slab : List UInt8) :
    ∃ k scratch' slab', encodeInto r scratch slab = some (k * SECTOR, scratch', slab') ∧
      slab'.length = slab.length ∧ k * SECTOR ≤ slab.length ∧
      slab'.drop (k * SECTOR) = slab.drop (k * SECTOR) ∧
      (r.sig.length ≤ SIG_CAP → ∃ n, sectorsFor r.sig.length = some n ∧ n ≤ MAX_SECTORS ∧
        (blobLen r.sig.length ≤ scratch.length → n * SECTOR ≤ slab.length → k = n ∧
          ∀ blobBuf, blobLen r.sig.length ≤ blobBuf →
            ∃ blob', decode slab' blobBuf =
                some ({ gen := r.gen, q := r.q, siglen := BitVec.ofNat 16 r.sig.length, head := r.head,
                        iId := r.iId, pubroot := r.pubroot, nSectors := n }, blob') ∧
              slice blob' OFF_SIG r.sig.length = r.sig)) := by
  obtain ⟨k, scratch', slab', hrun, hlen, hk, htail⟩ := encodeInto_sectors r scratch slab
  refine ⟨k, scratch', slab', hrun, hlen, hk, htail, fun hcap => ?_⟩
  obtain ⟨n, hn, hmax⟩ := sectorsFor_of_le hcap
  refine ⟨n, hn, hmax, fun hblob hout => ?_⟩
  rw [encodeInto_eq, encode_of_room hn hblob hout] at hrun
  obtain ⟨hcount, -, rfl⟩ : _ ∧ _ ∧ _ := by simpa only [Option.some.injEq, Prod.mk.injEq] using hrun
  rw [length_encodeSectors] at hcount
  refine ⟨(Nat.eq_of_mul_eq_mul_right (by decide) hcount).symm, fun blobBuf hbb => ⟨blob r, ?_, slice_sig r⟩⟩
  rw [splice, List.take_zero, List.nil_append, decode_front hn hbb]
  rfl

/-- A record with a signature of two bytes. -/
def shortHead : HeadRecord :=
  { gen := 5, q := 3, head := zeros HEAD_LEN, iId := zeros I_LEN, pubroot := zeros ROOT_LEN, sig := [0x0a, 0x0b] }

theorem encodeInto_decode_short :
    ∃ scratch' slab', encodeInto shortHead (List.replicate 108 0xee) (List.replicate 1024 0xee) =
        some (512, scratch', slab') ∧ slab'.drop 512 = List.replicate 512 0xee ∧
      ∃ blob', decode slab' 108 =
          some ({ gen := 5, q := 3, siglen := 2, head := zeros HEAD_LEN, iId := zeros I_LEN,
                  pubroot := zeros ROOT_LEN, nSectors := 1 }, blob') ∧
        slice blob' OFF_SIG 2 = [0x0a, 0x0b] := by
  obtain ⟨k, scratch', slab', hrun, -, -, htail, hread⟩ :=
    encodeInto_decode shortHead (List.replicate 108 0xee) (List.replicate 1024 0xee)
  obtain ⟨n, hn, -, hfits⟩ := hread (by decide)
  obtain rfl : 1 = n := Option.some.inj hn
  have hblob : blobLen shortHead.sig.length ≤ (List.replicate 108 (0xee : UInt8)).length := by
    rw [List.length_replicate]
    exact Nat.le_refl 108
  have hroom : 1 * SECTOR ≤ (List.replicate 1024 (0xee : UInt8)).length := by
    rw [List.length_replicate]
    decide
  obtain ⟨rfl, hdecode⟩ := hfits hblob hroom
  refine ⟨scratch', slab', hrun, ?_, hdecode 108 (Nat.le_refl 108)⟩
  rw [Nat.one_mul] at htail
  exact htail.trans (by rw [List.drop_replicate]; rfl)

end Yuva.Prov
