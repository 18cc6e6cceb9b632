/-
# `Yuva.Persist.Export` — the corpus region of a disk image

`tools/corpus-export/src/main.rs`, `extract`: the host tool reads the region that
`corpus_persist` writes, out of an image file.  It decodes the slots and the records
with the kernel's codecs but gates and folds them itself.

The two agree (`extract_agrees`): on an image that holds the kernel's sectors the
tool returns a region with a verified head exactly when the kernel counts the corpus
as survived, and the region is then what the kernel goes on from.

`none` is a panic.  The two decoders are written here a second time with reads that
can fail (`decodeChecked`), to show that no read does.
-/
import Yuva.Lib.Checked
import Yuva.Persist.Corpus

namespace Yuva.Prov

open Yuva.Bytes Yuva.Checked

/-! ## `provhead::decode` with its reads -/

/-- The reassembly loop: the payload of every sector, or nothing at the first that
fails its gate. -/
def gather (sectors : List UInt8) (tag : BitVec 32) : List Nat → Option (Option (List (List UInt8)))
  | [] => some (some [])
  | s :: ss =>
      (cut sectors (SECTOR * s) SECTOR).bind fun sec =>
        if !sectorGate sec tag then some none
        else
          (cut sec SEC_META SEC_PAYLOAD).bind fun payload =>
            (gather sectors tag ss).map fun rest => rest.map (payload :: ·)

/-- What is read once the geometry is known. -/
def spanChecked (sectors : List UInt8) (blobBuf : Nat) (gen : BitVec 64) (q : BitVec 32) (siglen : Nat) :
    Option (Option (DecodedHead × List UInt8)) :=
  match sectorsFor siglen with
  | none => some none
  | some n =>
      let l := blobLen siglen
      if sectors.length < n * SECTOR ∨ blobBuf < l then some none
      else
        (gather sectors (genTag gen) (List.range n)).bind fun
          | none => some none
          | some payloads =>
              let blob := payloads.flatten.take l
              -- the reads of `extract`
              (cut blob 0 (l - BLOB_CRC)).bind fun _ =>
              (cut blob (l - BLOB_CRC) 8).bind fun _ =>
              (cut blob OFF_HEAD (HEAD_LEN + I_LEN + ROOT_LEN)).map fun _ =>
                extract gen q siglen n blob

/-- `Yuva.Prov.decode`, every read of the input checked. -/
def decodeChecked (sectors : List UInt8) (blobBuf : Nat) :
    Option (Option (DecodedHead × List UInt8)) :=
  if sectors.length < SECTOR then some none
  else
    (cut sectors 0 SECTOR).bind fun s0 =>
    (cut s0 SEC_META SEC_PAYLOAD).bind fun p0 =>
    (cut p0 OFF_MAGIC 2).bind fun magic =>
    (byteAt p0 OFF_VERSION).bind fun version =>
      if magic ≠ PROV_MAGIC ∨ version ≠ PROV_VERSION then some none
      else
        (cut p0 OFF_GEN 8).bind fun gen =>
        (cut p0 OFF_Q 4).bind fun q =>
        (cut p0 OFF_SIGLEN 2).bind fun siglen =>
          spanChecked sectors blobBuf (BitVec.ofNat 64 (unle gen)) (BitVec.ofNat 32 (unle q)) (unle siglen)

theorem gather_eq {sectors : List UInt8} (tag : BitVec 32) : ∀ ss : List Nat,
    (∀ s ∈ ss, SECTOR * s + SECTOR ≤ sectors.length) →
    gather sectors tag ss =
      some (if ss.any fun s => !sectorGate (sectorAt sectors s) tag then none
        else some (ss.map fun s => slice (sectorAt sectors s) SEC_META SEC_PAYLOAD))
  | [], _ => rfl
  | s :: ss, h => by
      have hs := h s List.mem_cons_self
      have hpay : cut (sectorAt sectors s) SEC_META SEC_PAYLOAD =
          some (slice (sectorAt sectors s) SEC_META SEC_PAYLOAD) :=
        cut_eq (by rw [sectorAt, length_slice hs]; decide)
      rw [gather, cut_eq hs, Option.bind_some, ← sectorAt, hpay, Option.bind_some,
        gather_eq tag ss fun x hx => h x (List.mem_cons_of_mem _ hx)]
      cases hg : sectorGate (sectorAt sectors s) tag with
      | false => simp [hg]
      | true =>
          by_cases hrest : (ss.any fun s => !sectorGate (sectorAt sectors s) tag) = true
          · simp [hg, hrest]
          · simp [hg, hrest]

theorem length_reassemble {sectors : List UInt8} {n l : Nat} (hn : n * SECTOR ≤ sectors.length)
    (hl : l ≤ n * SEC_PAYLOAD) : (reassemble sectors n l).length = l := by
  have hpay : ∀ g ∈ (List.range n).map fun s => slice (sectorAt sectors s) SEC_META SEC_PAYLOAD,
      g.length = SEC_PAYLOAD := by
    intro g hg
    obtain ⟨s, hs, rfl⟩ := List.mem_map.mp hg
    have hin : SECTOR * s + SECTOR ≤ sectors.length := by
      have hle : SECTOR * (s + 1) ≤ SECTOR * n := Nat.mul_le_mul_left _ (List.mem_range.mp hs)
      rw [Nat.mul_succ] at hle
      rw [Nat.mul_comm n] at hn
      exact Nat.le_trans hle hn
    exact length_slice (by rw [sectorAt, length_slice hin]; decide)
  rw [reassemble, List.length_take, length_flatten_of_eq hpay, List.length_map, List.length_range,
    Nat.mul_comm]
  exact Nat.min_eq_left hl

theorem spanChecked_eq (sectors : List UInt8) (blobBuf : Nat) (gen : BitVec 64) (q : BitVec 32)
    (siglen : Nat) : spanChecked sectors blobBuf gen q siglen = some (
      match sectorsFor siglen with
      | none => none
      | some n =>
          if sectors.length < n * SECTOR ∨ blobBuf < blobLen siglen then none
          else if (List.range n).any fun s => !sectorGate (sectorAt sectors s) (genTag gen) then none
          else extract gen q siglen n (reassemble sectors n (blobLen siglen))) := by
  unfold spanChecked
  cases hn : sectorsFor siglen with
  | none => rfl
  | some n =>
      obtain ⟨-, -, hfit⟩ := sectorsFor_eq hn
      dsimp only
      by_cases hroom : sectors.length < n * SECTOR ∨ blobBuf < blobLen siglen
      · rw [if_pos hroom, if_pos hroom]
      · have hsec : n * SECTOR ≤ sectors.length := Nat.le_of_not_lt fun h => hroom (.inl h)
        have hall : ∀ s ∈ List.range n, SECTOR * s + SECTOR ≤ sectors.length := by
          intro s hs
          have hle : (s + 1) * SECTOR ≤ n * SECTOR := Nat.mul_le_mul_right _ (List.mem_range.mp hs)
          rw [Nat.succ_mul, Nat.mul_comm s] at hle
          exact Nat.le_trans hle hsec
        rw [if_neg hroom, if_neg hroom, gather_eq _ _ hall, Option.bind_some]
        by_cases hgate : ((List.range n).any fun s => !sectorGate (sectorAt sectors s) (genTag gen)) = true
        · rw [if_pos hgate, if_pos hgate]
        · rw [if_neg hgate, if_neg hgate]
          have hlenb := length_reassemble hsec hfit
          have hfix : BLOB_FIXED + BLOB_CRC ≤ blobLen siglen := by
            rw [blobLen]
            omega
          simp only [BLOB_FIXED, BLOB_CRC] at hfix
          dsimp only
          rw [← reassemble, cut_eq (by rw [hlenb]; simp only [BLOB_CRC]; omega), Option.bind_some,
            cut_eq (by rw [hlenb]; simp only [BLOB_CRC]; omega), Option.bind_some,
            cut_eq (by rw [hlenb]; simp only [OFF_HEAD, HEAD_LEN, I_LEN, ROOT_LEN]; omega),
            Option.map_some]

/-- `provhead::decode` does not panic. -/
theorem decodeChecked_eq (sectors : List UInt8) (blobBuf : Nat) :
    decodeChecked sectors blobBuf = some (decode sectors blobBuf) := by
  unfold decodeChecked decode
  by_cases hlen : sectors.length < SECTOR
  · rw [if_pos hlen, if_pos hlen]
  · have h0 : SECTOR * 0 + SECTOR ≤ sectors.length := by omega
    have hs0 : cut sectors 0 SECTOR = some (sectorAt sectors 0) := cut_eq h0
    have hp0 : (slice (sectorAt sectors 0) SEC_META SEC_PAYLOAD).length = SEC_PAYLOAD :=
      length_slice (by rw [sectorAt, length_slice h0]; decide)
    rw [if_neg hlen, if_neg hlen, hs0, Option.bind_some,
      cut_eq (by rw [sectorAt, length_slice h0]; decide), Option.bind_some]
    generalize slice (sectorAt sectors 0) SEC_META SEC_PAYLOAD = p0 at hp0
    have hin : ∀ off n, off + n ≤ SEC_PAYLOAD → cut p0 off n = some (slice p0 off n) :=
      fun off n h => cut_eq (by rw [hp0]; exact h)
    rw [hin _ _ (by decide), Option.bind_some, byteAt_eq (by rw [hp0]; decide), Option.bind_some,
      hin _ _ (by decide), Option.bind_some, hin _ _ (by decide), Option.bind_some,
      hin _ _ (by decide), Option.bind_some, spanChecked_eq]
    by_cases hmagic : slice p0 OFF_MAGIC 2 ≠ PROV_MAGIC ∨ p0.getD OFF_VERSION 0 ≠ PROV_VERSION
    · rw [if_pos hmagic, if_pos hmagic]
    · rw [if_neg hmagic, if_neg hmagic]
      rfl

end Yuva.Prov

namespace Yuva.Mem.Corpus

open Yuva.Bytes Yuva.Checked

/-! ## `corpus::decode` with its reads -/

/-- `Yuva.Mem.Corpus.decode`, every read of the input checked. -/
def decodeChecked (buf : List UInt8) : Option (Option CorpusRecord) :=
  if buf.length < CORPUS_CANON_LEN then some none
  else
    (byteAt buf OFF_SCHEMA_VERSION).bind fun schemaVersion =>
    if schemaVersion ≠ CORPUS_SCHEMA_V1 then some none
    else
      (byteAt buf OFF_EXAMPLE_KIND).bind fun exampleKind =>
      if !ExampleKind.isValid exampleKind then some none
      else
        (byteAt buf OFF_SOURCE_STREAM).bind fun sourceStream =>
        if !SourceStream.isValid sourceStream then some none
        else
          (byteAt buf OFF_CURATION_VERDICT).bind fun curationVerdict =>
          if !CurationVerdict.isValid curationVerdict then some none
          else
            (cut buf OFF_CONTENT_TOK 8).bind fun contentTok =>
            (cut buf OFF_AUX_TOK 8).bind fun auxTok =>
            (cut buf OFF_T_CREATED 8).bind fun tCreated =>
            (cut buf OFF_SOURCE_HEAD 32).bind fun sourceHead =>
            (byteAt buf OFF_OUTCOME_TAG).bind fun tag =>
            (cut buf OFF_OUTCOME_PAYLOAD 8).bind fun payload =>
            (cut buf OFF_CURATION_SCORE 2).map fun score =>
              (OutcomeLabel.fromParts tag (BitVec.ofNat 64 (unle payload))).map fun outcome =>
                { schemaVersion := schemaVersion
                  exampleKind := exampleKind
                  sourceStream := sourceStream
                  curationVerdict := curationVerdict
                  contentTok := BitVec.ofNat 64 (unle contentTok)
                  auxTok := BitVec.ofNat 64 (unle auxTok)
                  tCreated := BitVec.ofNat 64 (unle tCreated)
                  sourceHead := fixed sourceHead 0 32
                  outcome := outcome
                  curationScoreQ := BitVec.ofNat 16 (unle score) }

/-- `corpus::decode` does not panic. -/
theorem decodeChecked_eq (buf : List UInt8) : decodeChecked buf = some (decode buf) := by
  unfold decodeChecked decode
  by_cases hlen : buf.length < CORPUS_CANON_LEN
  · rw [if_pos hlen, if_pos hlen]
  · have hl : 71 ≤ buf.length := Nat.le_of_not_lt hlen
    have hbyte : ∀ i < 71, byteAt buf i = some (buf.getD i 0) := fun i hi => byteAt_eq (by omega)
    have hcut : ∀ off n, off + n ≤ 71 → cut buf off n = some (slice buf off n) :=
      fun off n h => cut_eq (by omega)
    have hhead : fixed (slice buf OFF_SOURCE_HEAD 32) 0 32 = fixed buf OFF_SOURCE_HEAD 32 := by
      have hin : OFF_SOURCE_HEAD + 32 ≤ buf.length := Nat.le_trans (by decide) hl
      refine Subtype.ext ?_
      rw [fixed_val (by rw [length_slice hin]), slice_slice (by decide : 0 + 32 ≤ 32), fixed_val hin,
        Nat.add_zero]
    rw [if_neg hlen, if_neg hlen, hbyte _ (by decide), Option.bind_some]
    by_cases hv : buf.getD OFF_SCHEMA_VERSION 0 ≠ CORPUS_SCHEMA_V1
    · rw [if_pos hv, if_pos hv]
    · rw [if_neg hv, if_neg hv, hbyte _ (by decide), Option.bind_some]
      cases hk : ExampleKind.isValid (buf.getD OFF_EXAMPLE_KIND 0) with
      | false => rfl
      | true =>
          rw [hbyte OFF_SOURCE_STREAM (by decide), Option.bind_some]
          cases hs : SourceStream.isValid (buf.getD OFF_SOURCE_STREAM 0) with
          | false => rfl
          | true =>
              rw [hbyte OFF_CURATION_VERDICT (by decide), Option.bind_some]
              cases hc : CurationVerdict.isValid (buf.getD OFF_CURATION_VERDICT 0) with
              | false => rfl
              | true =>
                  rw [hcut OFF_CONTENT_TOK 8 (by decide), hcut OFF_AUX_TOK 8 (by decide),
                    hcut OFF_T_CREATED 8 (by decide), hcut OFF_SOURCE_HEAD 32 (by decide),
                    hbyte OFF_OUTCOME_TAG (by decide), hcut OFF_OUTCOME_PAYLOAD 8 (by decide),
                    hcut OFF_CURATION_SCORE 2 (by decide)]
                  simp only [Option.bind_some, Option.map_some, hhead]
                  rfl

end Yuva.Mem.Corpus

namespace Yuva.Persist

open Yuva.Bytes Yuva.Prov Yuva.Checked Yuva.Volatile
open Yuva.Hash (Bytes32)
open Yuva.Store (Sector)
open Yuva.Mem.Corpus (CorpusRecord CORPUS_CANON_LEN CORPUS_PERSIST_DOMAIN CORPUS_PERSIST_MAX_RECORDS
  corpusHash corpusRecompute)

/-! ## The tool -/

/-- A record and its digest (`rec` and `id` of the source). -/
structure ExportRecord where
  record : CorpusRecord
  id : Bytes32
deriving DecidableEq

structure Region where
  gen : BitVec 64
  head : Bytes32
  headVerified : Bool
  records : List ExportRecord
deriving DecidableEq

/-- The bytes of an image file; a slice is shorter than `2 ^ 63`. -/
abbrev Image := { bytes : List UInt8 // bytes.length < 2 ^ 63 }

/-- The unpacking loop. -/
def exportRows (blob : List UInt8) : List Nat → Option (Except String (List ExportRecord))
  | [] => some (.ok [])
  | i :: is =>
      (word (i * CORPUS_CANON_LEN)).bind fun step =>
      (word (OFF_SIG + step)).bind fun off =>
      (cut blob off CORPUS_CANON_LEN).bind fun rb =>
      (Mem.Corpus.decodeChecked rb).bind fun
        | none =>
            some (.error ("record " ++ toString i ++
              " failed fail-closed decode (torn/forged skeleton)"))
        | some r => (exportRows blob is).map fun rest => rest.map (⟨r, corpusHash rb⟩ :: ·)

/-- What `extract` does with the slab it picked; the scratch behind the record is zero. -/
def exportSlab (d : DecodedHead × List UInt8) : Option (Except String Region) :=
  let blob := d.2 ++ List.replicate (BLOB_CAP - d.2.length) 0
  if d.1.iId.val ≠ CORPUS_PERSIST_DOMAIN.val then
    some (.error "decoded slab is not a corpus region (i_id domain-tag mismatch)")
  else
    let count := d.1.q.toNat
    let siglen := d.1.siglen.toNat
    if count = 0 ∨ CORPUS_PERSIST_MAX_RECORDS < count ∨ count * CORPUS_CANON_LEN ≠ siglen then
      some (.error ("corpus slab framing invalid: count=" ++ toString count ++ " siglen=" ++
        toString siglen ++ " (expected count*" ++ toString CORPUS_CANON_LEN ++ ")"))
    else
      (exportRows blob (List.range count)).bind fun
        | .error e => some (.error e)
        | .ok [] => none
        | .ok (r :: rs) =>
            some (.ok
              { gen := d.1.gen
                head := d.1.head
                headVerified := (corpusRecompute r.id (rs.map ExportRecord.id)).val == d.1.head.val
                records := r :: rs })

/-- What `extract` does with the two slots. -/
def exportSlots (slabA slabB : List UInt8) : Option (Except String Region) :=
  (Prov.decodeChecked slabA BLOB_CAP).bind fun da =>
  (Prov.decodeChecked slabB BLOB_CAP).bind fun db =>
    match pickNewer (da.map fun x => x.1.gen) (db.map fun x => x.1.gen) with
    | some false => da.bind exportSlab
    | some true => db.bind exportSlab
    | none =>
        some (.error "no consistent corpus slab in the region (fresh / torn / undecodable)")

def extract (image : Image) (baseSector : BitVec 64) : Option (Except String Region) :=
  match word (baseSector.toNat * SECTOR) with
  | none => some (.error "base sector overflows")
  | some base =>
      match word (base + 2 * SLAB_BYTES) with
      | none => some (.error "region end overflows")
      | some need =>
          if image.val.length < need then
            some (.error ("image too small: " ++ toString image.val.length ++ " bytes, need >= " ++
              toString need ++ " for the corpus region (2 ping-pong slots at sector " ++
              toString baseSector.toNat ++ ")"))
          else
            (cut image.val base SLAB_BYTES).bind fun slabA =>
            (cut image.val (base + SLAB_BYTES) SLAB_BYTES).bind fun slabB =>
              exportSlots slabA slabB

/-! ## One slab, read by both -/

/-- The tool's record of the kernel's row. -/
def Exported (e : ExportRecord) (row : Row) : Prop :=
  Mem.Corpus.decode row.val = some e.record ∧ e.id = corpusHash row.val

section slab

variable {blob : List UInt8}

/-- The scratch the tool reads from, behind a blob that fits it. -/
theorem cut_scratch (h : blob.length ≤ BLOB_CAP) {i : Nat} (hi : i < CORPUS_PERSIST_MAX_RECORDS) :
    cut (blob ++ List.replicate (BLOB_CAP - blob.length) 0) (OFF_SIG + i * CORPUS_CANON_LEN)
      CORPUS_CANON_LEN = some (fixed blob (OFF_SIG + i * CORPUS_CANON_LEN) CORPUS_CANON_LEN).val := by
  have hin : OFF_SIG + i * CORPUS_CANON_LEN + CORPUS_CANON_LEN ≤
      (blob ++ List.replicate (BLOB_CAP - blob.length) 0).length := by
    have hi' : i < 35 := hi
    rw [List.length_append, List.length_replicate, Nat.add_sub_cancel' h]
    show 98 + i * 71 + 71 ≤ 2614
    omega
  rw [cut_eq hin, ← fixed_pad blob _ _ (BLOB_CAP - blob.length), fixed_val hin]

theorem exportRows_cons (h : blob.length ≤ BLOB_CAP) {i : Nat} (hi : i < CORPUS_PERSIST_MAX_RECORDS)
    (is : List Nat) :
    exportRows (blob ++ List.replicate (BLOB_CAP - blob.length) 0) (i :: is) =
      match Mem.Corpus.decode (fixed blob (OFF_SIG + i * CORPUS_CANON_LEN) CORPUS_CANON_LEN).val with
      | none =>
          some (.error ("record " ++ toString i ++
            " failed fail-closed decode (torn/forged skeleton)"))
      | some r =>
          (exportRows (blob ++ List.replicate (BLOB_CAP - blob.length) 0) is).map fun rest =>
            rest.map (⟨r, corpusHash
              (fixed blob (OFF_SIG + i * CORPUS_CANON_LEN) CORPUS_CANON_LEN).val⟩ :: ·) := by
  have hi' : i < 35 := hi
  have hstep : i * CORPUS_CANON_LEN < 2 ^ 64 := by
    show i * 71 < 2 ^ 64
    omega
  have hoff : OFF_SIG + i * CORPUS_CANON_LEN < 2 ^ 64 := by
    show 98 + i * 71 < 2 ^ 64
    omega
  rw [exportRows, word_eq hstep, Option.bind_some, word_eq hoff, Option.bind_some, cut_scratch h hi,
    Option.bind_some, Mem.Corpus.decodeChecked_eq, Option.bind_some]

theorem exportRows_ok (h : blob.length ≤ BLOB_CAP) {is : List Nat} {rows : List Row}
    (hi : ∀ i ∈ is, i < CORPUS_PERSIST_MAX_RECORDS)
    (hrows : List.Forall₂ (fun i row => unpackRow blob i = some row) is rows) :
    ∃ records, exportRows (blob ++ List.replicate (BLOB_CAP - blob.length) 0) is = some (.ok records) ∧
      List.Forall₂ Exported records rows := by
  induction hrows with
  | nil => exact ⟨[], rfl, .nil⟩
  | @cons i row is rows hrow _ ih =>
      obtain ⟨records, hex, hall⟩ := ih fun j hj => hi j (List.mem_cons_of_mem _ hj)
      rw [unpackRow] at hrow
      cases hd : Mem.Corpus.decode
          (fixed blob (OFF_SIG + i * CORPUS_CANON_LEN) CORPUS_CANON_LEN).val with
      | none => simp [hd] at hrow
      | some r =>
          simp only [hd, Option.isNone_some, Bool.false_eq_true, if_false, Option.some.injEq] at hrow
          refine ⟨⟨r, corpusHash row.val⟩ :: records, ?_, .cons ⟨?_, rfl⟩ hall⟩
          · rw [exportRows_cons h (hi i List.mem_cons_self), hd, hex, ← hrow]
            rfl
          · rw [← hrow]
            exact hd

theorem exportRows_error (h : blob.length ≤ BLOB_CAP) : ∀ {is : List Nat},
    (∀ i ∈ is, i < CORPUS_PERSIST_MAX_RECORDS) → is.mapM (unpackRow blob) = none →
    ∃ e, exportRows (blob ++ List.replicate (BLOB_CAP - blob.length) 0) is = some (.error e)
  | [], _, hrows => by cases hrows
  | i :: is, hi, hrows => by
      rw [exportRows_cons h (hi i List.mem_cons_self)]
      cases hd : Mem.Corpus.decode
          (fixed blob (OFF_SIG + i * CORPUS_CANON_LEN) CORPUS_CANON_LEN).val with
      | none => exact ⟨_, rfl⟩
      | some r =>
          have hrest : is.mapM (unpackRow blob) = none := by
            rw [List.mapM_cons, unpackRow, hd] at hrows
            cases hm : is.mapM (unpackRow blob) with
            | none => rfl
            | some rows => simp [hm] at hrows
          obtain ⟨e, he⟩ := exportRows_error h (fun j hj => hi j (List.mem_cons_of_mem _ hj)) hrest
          rw [he]
          exact ⟨e, rfl⟩

end slab

theorem ids_of_exported {records : List ExportRecord} {rows : List Row}
    (h : List.Forall₂ Exported records rows) :
    records.map ExportRecord.id = rows.map fun row => corpusHash row.val := by
  induction h with
  | nil => rfl
  | cons hr _ ih => rw [List.map_cons, List.map_cons, hr.2, ih]

/-- The framing that both check before they unpack. -/
def Framed (d : DecodedHead × List UInt8) : Prop :=
  d.1.iId.val = CORPUS_PERSIST_DOMAIN.val ∧ 0 < d.1.q.toNat ∧
    d.1.q.toNat ≤ CORPUS_PERSIST_MAX_RECORDS ∧ d.1.q.toNat * CORPUS_CANON_LEN = d.1.siglen.toNat

section slab

variable {d : DecodedHead × List UInt8}

theorem unpack_of_framed (h : Framed d) : unpack d =
    match (List.range d.1.q.toNat).mapM (unpackRow d.2) with
    | none => none
    | some rows => if rows ≠ [] ∧ (corpusHead rows).val = d.1.head.val then some rows else none :=
  if_pos h

theorem exportSlab_of_framed (h : Framed d) {records : List ExportRecord} {r : ExportRecord}
    {rs : List ExportRecord} (hrecords : records = r :: rs)
    (hrows : exportRows (d.2 ++ List.replicate (BLOB_CAP - d.2.length) 0) (List.range d.1.q.toNat) =
      some (.ok records)) :
    exportSlab d = some (.ok
      { gen := d.1.gen
        head := d.1.head
        headVerified := (corpusRecompute r.id (rs.map ExportRecord.id)).val == d.1.head.val
        records := records }) := by
  obtain ⟨hid, hpos, hmax, hlen⟩ := h
  rw [exportSlab, if_neg (not_not.mpr hid), if_neg (by omega), hrows, hrecords]
  rfl

/-- A framed slab: the tool gets what the kernel unpacks, up to the head. -/
theorem exportSlab_rows (h : Framed d) (hlen : d.2.length ≤ BLOB_CAP) {rows : List Row}
    (hrows : (List.range d.1.q.toNat).mapM (unpackRow d.2) = some rows) :
    ∃ region, exportSlab d = some (.ok region) ∧ region.gen = d.1.gen ∧ region.head = d.1.head ∧
      List.Forall₂ Exported region.records rows ∧
      (region.headVerified = true ↔ rows ≠ [] ∧ (corpusHead rows).val = d.1.head.val) := by
  have hin : ∀ i ∈ List.range d.1.q.toNat, i < CORPUS_PERSIST_MAX_RECORDS := fun i hi =>
    Nat.lt_of_lt_of_le (List.mem_range.mp hi) h.2.2.1
  obtain ⟨records, hex, hall⟩ := exportRows_ok hlen hin (mapM_eq_some.mp hrows)
  have hcount : d.1.q.toNat = rows.length := by
    rw [← (mapM_eq_some.mp hrows).length_eq, List.length_range]
  cases hall with
  | nil =>
      have hpos : 0 < d.1.q.toNat := h.2.1
      rw [hcount] at hpos
      exact absurd hpos (Nat.lt_irrefl _)
  | @cons r row rs rows hr hrest =>
      refine ⟨_, exportSlab_of_framed h rfl hex, rfl, rfl, .cons hr hrest, ?_⟩
      simp only [corpusHead, List.map_cons, hr.2, ids_of_exported hrest, beq_iff_eq, ne_eq,
        reduceCtorEq, not_false_eq_true, true_and]

/-- What the tool returns, by what the kernel's read-back finds. -/
def Agrees (gen : BitVec 64) : Option (Bytes32 × List Row) → Except String Region → Prop
  | some (head, rows), out => ∃ region, out = .ok region ∧ region.headVerified = true ∧
      region.gen = gen ∧ region.head = head ∧ List.Forall₂ Exported region.records rows
  | none, out => ∀ region, out = .ok region → region.headVerified = false

theorem agrees_error (gen : BitVec 64) (e : String) : Agrees gen none (.error e) :=
  fun _ h => by cases h

theorem exportSlab_agrees (hlen : d.2.length ≤ BLOB_CAP) :
    ∃ out, exportSlab d = some out ∧
      Agrees d.1.gen ((unpack d).map fun rows => (d.1.head, rows)) out := by
  by_cases hframed : Framed d
  · rw [unpack_of_framed hframed]
    cases hrows : (List.range d.1.q.toNat).mapM (unpackRow d.2) with
    | none =>
        have hin : ∀ i ∈ List.range d.1.q.toNat, i < CORPUS_PERSIST_MAX_RECORDS := fun i hi =>
          Nat.lt_of_lt_of_le (List.mem_range.mp hi) hframed.2.2.1
        obtain ⟨e, he⟩ := exportRows_error hlen hin hrows
        obtain ⟨hid, hpos, hmax, hcount⟩ := hframed
        refine ⟨.error e, ?_, agrees_error _ e⟩
        rw [exportSlab, if_neg (not_not.mpr hid), if_neg (by omega), he]
        rfl
    | some rows =>
        obtain ⟨region, hex, hgen, hhead, hall, hver⟩ := exportSlab_rows hframed hlen hrows
        refine ⟨.ok region, hex, ?_⟩
        dsimp only
        by_cases hfold : rows ≠ [] ∧ (corpusHead rows).val = d.1.head.val
        · rw [if_pos hfold]
          exact ⟨region, rfl, hver.mpr hfold, hgen, hhead, hall⟩
        · rw [if_neg hfold]
          intro region' h
          cases h
          exact Bool.eq_false_iff.mpr fun hv => hfold (hver.mp hv)
  · have hnone : unpack d = none := if_neg hframed
    rw [hnone]
    by_cases hid : d.1.iId.val = CORPUS_PERSIST_DOMAIN.val
    · have hframe : d.1.q.toNat = 0 ∨ CORPUS_PERSIST_MAX_RECORDS < d.1.q.toNat ∨
          d.1.q.toNat * CORPUS_CANON_LEN ≠ d.1.siglen.toNat := by
        by_contra hno
        simp only [not_or, not_lt, not_not] at hno
        exact hframed ⟨hid, Nat.pos_of_ne_zero hno.1, hno.2.1, hno.2.2⟩
      have hex : ∃ e, exportSlab d = some (.error e) := by
        rw [exportSlab, if_neg (not_not.mpr hid), if_pos hframe]
        exact ⟨_, rfl⟩
      obtain ⟨e, he⟩ := hex
      exact ⟨.error e, he, agrees_error _ e⟩
    · exact ⟨_, if_pos hid, agrees_error _ _⟩

end slab

/-! ## One region, read by both -/

theorem length_of_decode {sectors : List UInt8} {d : DecodedHead × List UInt8}
    (h : decode sectors BLOB_CAP = some d) : d.2.length ≤ BLOB_CAP := by
  have hacc := accepted_of_decode h
  rw [hacc.blob, reassemble]
  exact Nat.le_trans (List.length_take_le _ _) hacc.scratch

theorem exportSlots_agrees (slabA slabB : List UInt8) : ∃ out, exportSlots slabA slabB = some out ∧
    Agrees (readBack (some slabA) (some slabB)).priorGen
      (readBack (some slabA) (some slabB)).survivor out := by
  rw [exportSlots, Prov.decodeChecked_eq, Option.bind_some, Prov.decodeChecked_eq, Option.bind_some]
  simp only [readBack, Option.bind_some, recover]
  cases ha : decode slabA BLOB_CAP with
  | none =>
      cases hb : decode slabB BLOB_CAP with
      | none => exact ⟨_, rfl, agrees_error _ _⟩
      | some db => exact exportSlab_agrees (length_of_decode hb)
  | some da =>
      cases hb : decode slabB BLOB_CAP with
      | none => exact exportSlab_agrees (length_of_decode ha)
      | some db =>
          by_cases hlt : da.1.gen < db.1.gen
          · simp only [Option.map_some, pickNewer, hlt, decide_true, Option.bind_some]
            exact exportSlab_agrees (length_of_decode hb)
          · simp only [Option.map_some, pickNewer, hlt, decide_false, Option.bind_some]
            exact exportSlab_agrees (length_of_decode ha)

/-- The region lies in the image. -/
def Covers (image : Image) (baseSector : BitVec 64) : Prop :=
  SECTOR * baseSector.toNat + 2 * SLAB_BYTES ≤ image.val.length

theorem extract_of_covers {image : Image} {baseSector : BitVec 64} (h : Covers image baseSector) :
    extract image baseSector = exportSlots (slice image.val (SECTOR * baseSector.toNat) SLAB_BYTES)
      (slice image.val (SECTOR * (baseSector.toNat + MAX_SECTORS)) SLAB_BYTES) := by
  have hlen := image.property
  have hend : SECTOR * baseSector.toNat + 2 * SLAB_BYTES ≤ image.val.length := h
  have hslot : SECTOR * (baseSector.toNat + MAX_SECTORS) = SECTOR * baseSector.toNat + SLAB_BYTES :=
    Nat.mul_add _ _ _
  rw [extract, Nat.mul_comm baseSector.toNat, word_eq (by omega)]
  simp only
  rw [word_eq (by omega)]
  simp only
  rw [if_neg (Nat.not_lt.mpr hend), cut_eq (by omega), Option.bind_some, cut_eq (by omega),
    Option.bind_some, hslot]

/-- The tool never panics. -/
theorem extract_total (image : Image) (baseSector : BitVec 64) :
    ∃ out, extract image baseSector = some out := by
  by_cases h : Covers image baseSector
  · obtain ⟨out, hout, -⟩ := exportSlots_agrees
      (slice image.val (SECTOR * baseSector.toNat) SLAB_BYTES)
      (slice image.val (SECTOR * (baseSector.toNat + MAX_SECTORS)) SLAB_BYTES)
    exact ⟨out, (extract_of_covers h).trans hout⟩
  · rw [extract]
    cases hbase : word (baseSector.toNat * SECTOR) with
    | none => exact ⟨_, rfl⟩
    | some base =>
        cases hneed : word (base + 2 * SLAB_BYTES) with
        | none =>
            simp only [hneed]
            exact ⟨_, rfl⟩
        | some need =>
            have hb : baseSector.toNat * SECTOR = base := by
              unfold word at hbase
              split at hbase
              · exact Option.some.inj hbase
              · cases hbase
            have hn : base + 2 * SLAB_BYTES = need := by
              unfold word at hneed
              split at hneed
              · exact Option.some.inj hneed
              · cases hneed
            have hshort : image.val.length < need := by
              rw [← hn, ← hb, Nat.mul_comm]
              exact Nat.lt_of_not_le h
            simp only [hneed, if_pos hshort]
            exact ⟨_, rfl⟩

/-- The device holds, where the kernel looks, the sectors the tool looks at. -/
def SameSectors (image : Image) (baseSector : BitVec 64) (disk : Disk Sector) : Prop :=
  ∀ i < 2 * MAX_SECTORS, (disk (CORPUS_PERSIST_BASE + i)).val =
    slice image.val (SECTOR * (baseSector.toNat + i)) SECTOR

/-- A slot of the device is the slice of the image. -/
theorem slabAt_eq {image : Image} {disk : Disk Sector} {x b : Nat}
    (hin : SECTOR * b + SLAB_BYTES ≤ image.val.length)
    (h : ∀ i < MAX_SECTORS, (disk (x + i)).val = slice image.val (SECTOR * (b + i)) SECTOR) :
    slabAt disk x = slice image.val (SECTOR * b) SLAB_BYTES := by
  have hlen : (slice image.val (SECTOR * b) SLAB_BYTES).length = MAX_SECTORS * SECTOR := length_slice hin
  rw [slabAt, slotBytes, List.map_map, ← flatten_slices hlen]
  refine congrArg List.flatten (List.map_congr_left fun i hi => ?_)
  have hi' : i < 6 := List.mem_range.mp hi
  have hfit : i * SECTOR + SECTOR ≤ SLAB_BYTES := by
    show i * 512 + 512 ≤ 3072
    omega
  rw [Function.comp_apply, h i (List.mem_range.mp hi), slice_slice hfit, Nat.mul_add, Nat.mul_comm i]

theorem regionOf_eq {image : Image} {baseSector : BitVec 64} {disk : Disk Sector}
    (hin : Covers image baseSector) (h : SameSectors image baseSector disk) :
    regionOf disk = readBack (some (slice image.val (SECTOR * baseSector.toNat) SLAB_BYTES))
      (some (slice image.val (SECTOR * (baseSector.toNat + MAX_SECTORS)) SLAB_BYTES)) := by
  have hend : SECTOR * baseSector.toNat + 2 * SLAB_BYTES ≤ image.val.length := hin
  have hslot : SECTOR * (baseSector.toNat + MAX_SECTORS) = SECTOR * baseSector.toNat + SLAB_BYTES :=
    Nat.mul_add _ _ _
  have hA : slabAt disk CORPUS_PERSIST_BASE = slice image.val (SECTOR * baseSector.toNat) SLAB_BYTES :=
    slabAt_eq (by omega) fun i hi => h i (by omega)
  have hB : slabAt disk (CORPUS_PERSIST_BASE + MAX_SECTORS) =
      slice image.val (SECTOR * (baseSector.toNat + MAX_SECTORS)) SLAB_BYTES := by
    refine slabAt_eq (by omega) fun i hi => ?_
    rw [Nat.add_assoc, Nat.add_assoc]
    exact h _ (by omega)
  rw [regionOf, hA, hB]

/-- Whether a boot counts the corpus as survived is what its read-back found. -/
theorem survived_iff {cur : List Row} (hcur : cur ≠ []) (curHead : Bytes32) {cap : BitVec 64}
    (hcap : CORPUS_PERSIST_BASE + 2 * MAX_SECTORS ≤ cap.toNat) (d : Dev Sector) :
    (corpusPersist false (some (cur, curHead)) (some cap) d).1.survived =
      (readRegion d).1.survivor.isSome := by
  simp only [corpusPersist, Bool.false_eq_true, if_false, if_neg hcur, if_neg (Nat.not_lt.mpr hcap)]
  cases (readRegion d).1.survivor <;>
    cases encode (nextSlab (readRegion d).1 cur) BLOB_CAP SLAB_BYTES with
    | none => rfl
    | some bytes =>
        dsimp only
        split <;> rfl

/-- An image long enough for the region, and a device that serves the kernel's reads
of the same sectors: the tool returns a region with a verified head exactly when
the kernel counts the corpus as survived.  Generation and head are then the same,
and the records are those of the kernel's rows, in order: each is what the row's
bytes decode to, beside their digest, and is written again as those bytes unless
it dropped the payload of an unset outcome.  On no image does the tool panic. -/
theorem extract_agrees : (∀ image baseSector, extract image baseSector ≠ none) ∧
    ∀ (image : Image) (baseSector : BitVec 64) (d : Dev Sector) (cur : List Row) (curHead : Bytes32)
      (cap : BitVec 64), Covers image baseSector → SameSectors image baseSector d.disk →
      Serves d (2 * MAX_SECTORS) → cur ≠ [] → CORPUS_PERSIST_BASE + 2 * MAX_SECTORS ≤ cap.toNat →
      ((∃ region, extract image baseSector = some (.ok region) ∧ region.headVerified = true) ↔
        (corpusPersist false (some (cur, curHead)) (some cap) d).1.survived = true) ∧
      ∀ region, extract image baseSector = some (.ok region) → region.headVerified = true →
        (readRegion d).1.priorGen = region.gen ∧
        ∃ rows, (readRegion d).1.survivor = some (region.head, rows) ∧
          List.Forall₂ (fun e (row : Row) => Mem.Corpus.decode row.val = some e.record ∧
            e.id = corpusHash row.val ∧ (Mem.Corpus.canonBytes e.record = row.val ∨
              e.record.outcome = .unset ∧
                Mem.Corpus.readU64 row.val Mem.Corpus.OFF_OUTCOME_PAYLOAD ≠ 0)) region.records rows := by
  constructor
  · intro image baseSector h
    obtain ⟨out, hout⟩ := extract_total image baseSector
    rw [h] at hout
    cases hout
  · intro image baseSector d cur curHead cap hin hsame hserves hcur hcap
    obtain ⟨out, hout, hagree⟩ := exportSlots_agrees
      (slice image.val (SECTOR * baseSector.toNat) SLAB_BYTES)
      (slice image.val (SECTOR * (baseSector.toNat + MAX_SECTORS)) SLAB_BYTES)
    rw [← extract_of_covers hin] at hout
    have hread : (readRegion d).1 = regionOf d.disk := by rw [readRegion_ok hserves]
    rw [← regionOf_eq hin hsame, ← hread] at hagree
    rw [survived_iff hcur curHead hcap, hout]
    cases hs : (readRegion d).1.survivor with
    | none =>
        rw [hs] at hagree
        refine ⟨⟨?_, fun h => by cases h⟩, ?_⟩
        · rintro ⟨region, hok, hver⟩
          rw [hagree region (Option.some.inj hok)] at hver
          cases hver
        · intro region hok hver
          rw [hagree region (Option.some.inj hok)] at hver
          cases hver
    | some s =>
        obtain ⟨head, rows⟩ := s
        rw [hs] at hagree
        obtain ⟨region, rfl, hver, hgen, rfl, hall⟩ := hagree
        refine ⟨⟨fun _ => rfl, fun _ => ⟨region, rfl, hver⟩⟩, ?_⟩
        intro region' hok _
        cases hok
        refine ⟨hgen.symm, rows, rfl, hall.imp fun e row he => ⟨he.1, he.2, ?_⟩⟩
        exact Mem.Corpus.canonBytes_of_decode row.property he.1

/-- The region as an image of its own. -/
def regionImage (disk : Disk Sector) : Image :=
  ⟨slotBytes ((List.range (2 * MAX_SECTORS)).map fun i => disk (CORPUS_PERSIST_BASE + i)), by
    rw [length_slotBytes, List.length_map, List.length_range]
    decide⟩

theorem sameSectors_regionImage (disk : Disk Sector) : SameSectors (regionImage disk) 0 disk := by
  intro i hi
  have hget : ((List.range (2 * MAX_SECTORS)).map fun i => disk (CORPUS_PERSIST_BASE + i))[i]? =
      some (disk (CORPUS_PERSIST_BASE + i)) := by
    rw [List.getElem?_map, List.getElem?_range hi]
    rfl
  have hat := sectorAt_slotBytes hget
  have hzero : (0 : BitVec 64).toNat + i = i := Nat.zero_add i
  rw [hzero]
  exact hat.symm

theorem covers_regionImage (disk : Disk Sector) : Covers (regionImage disk) 0 := by
  show _ ≤ (slotBytes _).length
  rw [length_slotBytes, List.length_map, List.length_range]
  decide

def newerRows : List Row := [7, 8, 9, 10, 11, 12].map sampleRow

/-- Slot A holds a slab of one record, slot B the next generation, of six records in two sectors. -/
def sampleDisk : Disk Sector := fun x =>
  if x < CORPUS_PERSIST_BASE + MAX_SECTORS then recordSector (slab 1 [sampleRow 7]) (x - CORPUS_PERSIST_BASE)
  else recordSector (slab 2 newerRows) (x - (CORPUS_PERSIST_BASE + MAX_SECTORS))

theorem survivor_sampleDisk : (regionOf sampleDisk).survivor = some (corpusHead newerRows, newerRows) := by
  have hne : newerRows ≠ [] := List.cons_ne_nil _ _
  have hdec : Decodable newerRows := decodable_sampleRow fun row hrow => by
    obtain ⟨t, -, rfl⟩ := List.mem_map.mp hrow
    exact ⟨t, rfl⟩
  have hA : Holds sampleDisk CORPUS_PERSIST_BASE (slab 1 [sampleRow 7]) := by
    intro i hi
    rw [sectorCount_slab] at hi
    have hslot : i < MAX_SECTORS := Nat.lt_of_lt_of_le hi (slabSectors_le (by decide))
    rw [sampleDisk, if_pos (Nat.add_lt_add_left hslot _), Nat.add_sub_cancel_left]
  have hB : Holds sampleDisk (CORPUS_PERSIST_BASE + MAX_SECTORS) (slab 2 newerRows) := by
    intro i _
    rw [sampleDisk, if_neg (Nat.not_lt.mpr (Nat.le_add_right _ _)), Nat.add_sub_cancel_left]
  rw [survivor_right (decode_of_holds (by decide) hA) (decode_of_holds (by decide) hB) (by decide),
    unpack_slab 2 hne (by decide) hdec]
  rfl

/-- The tool exports the newer slab, record by record as the kernel reads it back. -/
theorem sample_exported : extract (regionImage sampleDisk) 0 ≠ none ∧
    ∃ region, extract (regionImage sampleDisk) 0 = some (.ok region) ∧ region.headVerified = true ∧
      (readRegion (Dev.healthy sampleDisk)).1.priorGen = region.gen ∧ region.head = corpusHead newerRows ∧
      List.Forall₂ (fun e (row : Row) => Mem.Corpus.decode row.val = some e.record ∧
        e.id = corpusHash row.val ∧ (Mem.Corpus.canonBytes e.record = row.val ∨ e.record.outcome = .unset ∧
          Mem.Corpus.readU64 row.val Mem.Corpus.OFF_OUTCOME_PAYLOAD ≠ 0)) region.records newerRows := by
  have hserves : Serves (Dev.healthy sampleDisk) (2 * MAX_SECTORS) := fun _ _ => rfl
  have hcap : CORPUS_PERSIST_BASE + 2 * MAX_SECTORS ≤ (20480 : BitVec 64).toNat := by decide
  have hread : (readRegion (Dev.healthy sampleDisk)).1 = regionOf sampleDisk := by
    have hdisk (disk : Disk Sector) : (Dev.healthy disk).disk = disk := rfl
    rw [readRegion_ok hserves, hdisk]
  have hcur : [sampleRow 7] ≠ [] := List.cons_ne_nil _ _
  obtain ⟨hexports, hagrees⟩ := extract_agrees.2 (regionImage sampleDisk) 0 (Dev.healthy sampleDisk) [sampleRow 7]
    (corpusHead [sampleRow 7]) 20480 (covers_regionImage _) (sameSectors_regionImage _) hserves hcur hcap
  have hsurvived : (corpusPersist false (some ([sampleRow 7], corpusHead [sampleRow 7])) (some 20480)
      (Dev.healthy sampleDisk)).1.survived = true := by
    rw [survived_iff hcur _ hcap, hread, survivor_sampleDisk]
    rfl
  obtain ⟨region, hok, hver⟩ := hexports.mpr hsurvived
  obtain ⟨hgen, rows, hrows, hall⟩ := hagrees region hok hver
  rw [hread, survivor_sampleDisk, Option.some.injEq, Prod.mk.injEq] at hrows
  obtain ⟨hhead, rfl⟩ := hrows
  exact ⟨extract_agrees.1 _ _, region, hok, hver, hgen, hhead.symm, hall⟩

end Yuva.Persist
