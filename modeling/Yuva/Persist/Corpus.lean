/-
# `Yuva.Persist.Corpus` — the durable corpus of one boot

`tb-hal/src/mem/organ/selftests.rs`, `corpus_persist`: a boot reads both slots of
the corpus region, takes the newer consistent slab, checks that it is a corpus and
that its records fold to its head, appends its own records, keeps the most recent
`CORPUS_PERSIST_MAX_RECORDS` and writes the result at the next generation into the
other slot.

    region   slot A: 6 sectors | slot B: 6 sectors, from `CORPUS_PERSIST_BASE` on
    slab     a provenance record whose identifier is `CORPUS_PERSIST_DOMAIN`, whose
             index is the number of records and whose signature is the records

The device is that of `Yuva.Lib.Volatile`: any request may fail.
-/
import Mathlib.Data.List.Forall2
import Yuva.Lib.Volatile
import Yuva.Mem.Corpus
import Yuva.Prov.Torn

namespace Yuva.Persist

open Yuva.Bytes Yuva.Prov Yuva.Volatile
open Yuva.Hash (Bytes32)
open Yuva.Store (Sector)
open Yuva.Mem.Corpus (CORPUS_CANON_LEN CORPUS_PERSIST_DOMAIN CORPUS_PERSIST_MAX_RECORDS corpusHash
  corpusHeadWitness corpusRecompute length_canonBytes)

def CORPUS_PERSIST_BASE : Nat := 12288

/-- The canonical bytes of a record. -/
abbrev Row := Block CORPUS_CANON_LEN

structure CorpusPersistProof where
  present : Bool
  persisted : Bool
  survived : Bool
  headMatches : Bool
  headDisk : BitVec 64
  recordsDisk : BitVec 64
  recordsTotal : BitVec 64
deriving DecidableEq

/-- A map that can fail, element by element. -/
theorem mapM_eq_some {α β : Type*} {f : α → Option β} : ∀ {xs : List α} {ys : List β},
    xs.mapM f = some ys ↔ List.Forall₂ (fun x y => f x = some y) xs ys
  | [], ys => by
      rw [List.mapM_nil, List.forall₂_nil_left_iff]
      exact ⟨fun h => (Option.some.inj h).symm, fun h => by rw [h]; rfl⟩
  | x :: xs, ys => by
      rw [List.mapM_cons, List.forall₂_cons_left_iff]
      constructor
      · intro h
        obtain ⟨y, hy, hrest⟩ := Option.bind_eq_some_iff.mp h
        obtain ⟨ys', hys, hcons⟩ := Option.bind_eq_some_iff.mp hrest
        exact ⟨y, ys', hy, mapM_eq_some.mp hys, (Option.some.inj hcons).symm⟩
      · rintro ⟨y, ys', hy, hys, rfl⟩
        rw [hy, mapM_eq_some.mpr hys]
        rfl

/-! ## Whole slabs on the device -/

/-- Sectors `x ..`, or nothing when a read fails. -/
def readSectors (d : Dev Sector) (x : Nat) : Nat → Option (List Sector) × Dev Sector
  | 0 => (some [], d)
  | n + 1 =>
      match d.read x with
      | (none, d) => (none, d)
      | (some s, d) =>
          let (ss, d) := readSectors d (x + 1) n
          (ss.map (s :: ·), d)

def m33ReadSlab (d : Dev Sector) (base : Nat) : Option (List UInt8) × Dev Sector :=
  let (ss, d) := readSectors d base MAX_SECTORS
  (ss.map slotBytes, d)

/-- Up to the first write that fails. -/
def writeSectors (d : Dev Sector) (x : Nat) : List Sector → Bool × Dev Sector
  | [] => (true, d)
  | s :: ss =>
      match d.write x s with
      | (false, d) => (false, d)
      | (true, d) => writeSectors d (x + 1) ss

def m33WriteSlab (d : Dev Sector) (base : Nat) (bytes : List UInt8) : Bool × Dev Sector :=
  writeSectors d base ((List.range (bytes.length / SECTOR)).map fun s => fixed bytes (s * SECTOR) SECTOR)

/-! ## Reading the region back -/

/-- The head over a list of records.  No caller has an empty list. -/
def corpusHead (rows : List Row) : Bytes32 :=
  match rows.map fun row => corpusHash row.val with
  | [] => Yuva.Mem.Prov.genesis
  | id :: ids => corpusRecompute id ids

/-- Record `i` of a slab; behind the record the scratch holds zeros. -/
def unpackRow (blob : List UInt8) (i : Nat) : Option Row :=
  let rb : Row := fixed blob (OFF_SIG + i * CORPUS_CANON_LEN) CORPUS_CANON_LEN
  if (Yuva.Mem.Corpus.decode rb.val).isNone then none else some rb

/-- The records of a slab of the corpus: the domain, the framing, every record and
the head must be right. -/
def unpack (d : DecodedHead × List UInt8) : Option (List Row) :=
  let count := d.1.q.toNat
  if d.1.iId.val = CORPUS_PERSIST_DOMAIN.val ∧ 0 < count ∧ count ≤ CORPUS_PERSIST_MAX_RECORDS ∧
      count * CORPUS_CANON_LEN = d.1.siglen.toNat then
    match (List.range count).mapM (unpackRow d.2) with
    | none => none
    | some rows => if rows ≠ [] ∧ (corpusHead rows).val = d.1.head.val then some rows else none
  else none

/-- What the read-back finds: the slot of the newer slab, its generation, and the
head and the records if they survived. -/
structure ReadBack where
  winner : Option Bool
  priorGen : BitVec 64
  survivor : Option (Bytes32 × List Row)
deriving DecidableEq

/-- The records to go on from. -/
def ReadBack.priorRecords (rb : ReadBack) : List Row :=
  match rb.survivor with
  | none => []
  | some s => s.2

def readBack (slabA slabB : Option (List UInt8)) : ReadBack :=
  let da := slabA.bind fun s => decode s BLOB_CAP
  let db := slabB.bind fun s => decode s BLOB_CAP
  let winner := pickNewer (da.map fun x => x.1.gen) (db.map fun x => x.1.gen)
  match recover da db with
  | none => { winner := winner, priorGen := 0, survivor := none }
  | some d =>
      { winner := winner
        priorGen := d.1.gen
        survivor := (unpack d).map fun rows => (d.1.head, rows) }

def readRegion (d : Dev Sector) : ReadBack × Dev Sector :=
  let (a, d) := m33ReadSlab d CORPUS_PERSIST_BASE
  let (b, d) := m33ReadSlab d (CORPUS_PERSIST_BASE + MAX_SECTORS)
  (readBack a b, d)

/-! ## Writing the accumulated corpus -/

/-- The most recent records that a slab holds. -/
def accumulate (prior cur : List Row) : List Row :=
  let acc := prior ++ cur
  if CORPUS_PERSIST_MAX_RECORDS < acc.length then acc.drop (acc.length - CORPUS_PERSIST_MAX_RECORDS)
  else acc

/-- The slab of a list of records. -/
def slab (gen : BitVec 64) (rows : List Row) : HeadRecord where
  gen := gen
  q := BitVec.ofNat 32 rows.length
  head := corpusHead rows
  iId := CORPUS_PERSIST_DOMAIN
  pubroot := zeros ROOT_LEN
  sig := (rows.map Subtype.val).flatten

/-- The slot that does not hold the newer slab. -/
def target : Option Bool → Nat
  | some false => CORPUS_PERSIST_BASE + MAX_SECTORS
  | some true => CORPUS_PERSIST_BASE
  | none => CORPUS_PERSIST_BASE

/-- What a boot writes after a read-back. -/
def nextSlab (rb : ReadBack) (cur : List Row) : HeadRecord :=
  slab (rb.priorGen + 1) (accumulate rb.priorRecords cur)

/-- `curated` is the outcome of the seeded consolidation, `cap` that of the probe. -/
def corpusPersist (inGuest : Bool) (curated : Option (List Row × Bytes32)) (cap : Option (BitVec 64))
    (d : Dev Sector) : CorpusPersistProof × Dev Sector :=
  let r : CorpusPersistProof :=
    { present := false, persisted := false, survived := false, headMatches := false
      headDisk := 0, recordsDisk := 0, recordsTotal := 0 }
  if inGuest then (r, d)
  else
    match curated with
    | none => (r, d)
    | some (cur, curHead) =>
        if cur = [] then (r, d)
        else
          let r := { r with headDisk := corpusHeadWitness curHead }
          match cap with
          | none => (r, d)
          | some cap =>
              if cap.toNat < CORPUS_PERSIST_BASE + 2 * MAX_SECTORS then (r, d)
              else
                let r := { r with present := true }
                let (rb, d) := readRegion d
                let r := match rb.survivor with
                  | none => r
                  | some (head, rows) =>
                      { r with
                        survived := true
                        headMatches := true
                        recordsDisk := BitVec.ofNat 64 rows.length
                        headDisk := corpusHeadWitness head }
                let acc := accumulate rb.priorRecords cur
                let r := { r with recordsTotal := BitVec.ofNat 64 acc.length }
                match encode (nextSlab rb cur) BLOB_CAP SLAB_BYTES with
                | none => (r, d)
                | some bytes =>
                    match m33WriteSlab d (target rb.winner) bytes with
                    | (false, d) => (r, d)
                    | (true, d) =>
                        let (ok, d) := d.flush
                        ({ r with persisted := ok }, d)

/-! ## Reads that succeed -/

/-- The bytes of a slot. -/
def slabAt (disk : Disk Sector) (base : Nat) : List UInt8 :=
  slotBytes ((List.range MAX_SECTORS).map fun i => disk (base + i))

/-- What a device that serves every read finds on a disk. -/
def regionOf (disk : Disk Sector) : ReadBack :=
  readBack (some (slabAt disk CORPUS_PERSIST_BASE))
    (some (slabAt disk (CORPUS_PERSIST_BASE + MAX_SECTORS)))

/-- The next `n` requests succeed. -/
def Serves (d : Dev Sector) (n : Nat) : Prop := ∀ k < n, d.ok (d.served + k) = true

theorem readSectors_ok {n : Nat} : ∀ {d : Dev Sector} {x : Nat}, Serves d n →
    readSectors d x n =
      (some ((List.range n).map fun i => d.disk (x + i)), { d with served := d.served + n }) := by
  induction n with
  | zero => intro d x _; rfl
  | succ n ih =>
      intro d x h
      have h0 : d.ok d.served = true := h 0 (Nat.succ_pos n)
      have hrest : Serves { d with served := d.served + 1 } n := fun k hk => by
        have hk' := h (k + 1) (Nat.succ_lt_succ hk)
        rwa [Nat.add_comm k, ← Nat.add_assoc] at hk'
      have hread : d.read x = (some (d.disk x), { d with served := d.served + 1 }) := by
        rw [Dev.read, if_pos h0]
      rw [readSectors, hread]
      simp only [ih hrest, List.range_succ_eq_map, List.map_cons, List.map_map, Option.map_some,
        Nat.add_zero, Nat.add_assoc, Nat.add_comm 1 n]
      congr 3
      refine List.map_congr_left fun i _ => ?_
      simp only [Function.comp_apply, Nat.succ_eq_add_one, Nat.add_comm 1 i]

theorem m33ReadSlab_ok {d : Dev Sector} {base : Nat} (h : Serves d MAX_SECTORS) :
    m33ReadSlab d base = (some (slabAt d.disk base), { d with served := d.served + MAX_SECTORS }) := by
  rw [m33ReadSlab, readSectors_ok h]
  rfl

theorem readRegion_ok {d : Dev Sector} (h : Serves d (2 * MAX_SECTORS)) :
    readRegion d = (regionOf d.disk, { d with served := d.served + 2 * MAX_SECTORS }) := by
  have hfirst : Serves d MAX_SECTORS := fun k hk => h k (by omega)
  have hsecond : Serves { d with served := d.served + MAX_SECTORS } MAX_SECTORS := fun k hk => by
    have hk' := h (MAX_SECTORS + k) (by omega)
    rwa [← Nat.add_assoc] at hk'
  rw [readRegion, m33ReadSlab_ok hfirst]
  simp only [m33ReadSlab_ok hsecond, regionOf, Nat.two_mul, Nat.add_assoc]

/-! ## A slab read back -/

/-- Every row is a record that the decoder takes. -/
def Decodable (rows : List Row) : Prop := ∀ row ∈ rows, (Yuva.Mem.Corpus.decode row.val).isSome = true

/-- The sectors of a slab of `n` records. -/
def slabSectors (n : Nat) : Nat := (blobLen (n * CORPUS_CANON_LEN) + SEC_PAYLOAD - 1) / SEC_PAYLOAD

section slab

variable (gen : BitVec 64) {rows : List Row}

theorem length_sig (rows : List Row) : (slab gen rows).sig.length = rows.length * CORPUS_CANON_LEN := by
  rw [slab, length_flatten_of_eq (k := CORPUS_CANON_LEN), List.length_map, Nat.mul_comm]
  intro f hf
  obtain ⟨row, -, rfl⟩ := List.mem_map.mp hf
  exact row.property

theorem sectorsFor_slab (hmax : rows.length ≤ CORPUS_PERSIST_MAX_RECORDS) :
    sectorsFor (slab gen rows).sig.length = some (slabSectors rows.length) := by
  have hcap : rows.length * CORPUS_CANON_LEN ≤ SIG_CAP :=
    Nat.le_trans (Nat.mul_le_mul_right _ hmax) (by decide)
  rw [length_sig, sectorsFor, if_neg (Nat.not_lt.mpr hcap), slabSectors]

theorem slabSectors_le {n : Nat} (hmax : n ≤ CORPUS_PERSIST_MAX_RECORDS) : slabSectors n ≤ MAX_SECTORS := by
  have h : n ≤ 35 := hmax
  show (98 + n * 71 + 8 + 504 - 1) / 504 ≤ 6
  omega

/-- Row `i` lies where `unpack` looks for it. -/
theorem fixed_blob_row {i : Nat} {row : Row} (h : rows[i]? = some row) :
    fixed (blob (slab gen rows)) (OFF_SIG + i * CORPUS_CANON_LEN) CORPUS_CANON_LEN = row := by
  have hi : i < rows.length := (List.getElem?_eq_some_iff.mp h).1
  have hrow : (rows.map Subtype.val)[i]? = some row.val := by
    rw [List.getElem?_map, h]
    rfl
  have hwidth : ∀ f ∈ rows.map Subtype.val, f.length = CORPUS_CANON_LEN := by
    intro f hf
    obtain ⟨r, -, rfl⟩ := List.mem_map.mp hf
    exact r.property
  have hin : OFF_SIG + i * CORPUS_CANON_LEN + CORPUS_CANON_LEN ≤ (blob (slab gen rows)).length := by
    have hle : (i + 1) * CORPUS_CANON_LEN ≤ rows.length * CORPUS_CANON_LEN := Nat.mul_le_mul_right _ hi
    rw [Nat.succ_mul] at hle
    rw [length_blob, length_sig, blobLen]
    show 98 + _ + _ ≤ 98 + _ + 8
    omega
  refine Subtype.ext ((fixed_val hin).trans ?_)
  have hfields := length_blobFields (slab gen rows)
  rw [blob, blobBody, List.append_assoc, slice_skip _ _ (by rw [hfields]; exact Nat.le_add_right _ _),
    hfields]
  have hoff : OFF_SIG + i * CORPUS_CANON_LEN - BLOB_FIXED = CORPUS_CANON_LEN * i := by
    rw [Nat.mul_comm CORPUS_CANON_LEN]
    exact Nat.add_sub_cancel_left OFF_SIG _
  rw [hoff]
  exact slice_flatten _ hwidth hrow

theorem unpackRow_slab (hdec : Decodable rows) {i : Nat} {row : Row} (h : rows[i]? = some row) :
    unpackRow (blob (slab gen rows)) i = some row := by
  have hsome := hdec row (List.mem_of_getElem? h)
  simp only [unpackRow, fixed_blob_row gen h]
  rw [if_neg]
  rw [Option.isNone_iff_eq_none]
  intro hnone
  rw [hnone] at hsome
  cases hsome

theorem unpack_slab (hne : rows ≠ []) (hmax : rows.length ≤ CORPUS_PERSIST_MAX_RECORDS)
    (hdec : Decodable rows) : unpack (decodedOf (slab gen rows) (slabSectors rows.length)) = some rows := by
  have hmax' : rows.length ≤ 35 := hmax
  have hpos : 0 < rows.length := List.length_pos_iff.mpr hne
  have hq : (decodedOf (slab gen rows) (slabSectors rows.length)).1.q.toNat = rows.length := by
    show (BitVec.ofNat 32 rows.length).toNat = _
    rw [BitVec.toNat_ofNat]
    omega
  have hlen : (decodedOf (slab gen rows) (slabSectors rows.length)).1.siglen.toNat =
      rows.length * CORPUS_CANON_LEN := by
    show (BitVec.ofNat 16 (slab gen rows).sig.length).toNat = _
    rw [length_sig, BitVec.toNat_ofNat]
    show rows.length * 71 % 2 ^ 16 = rows.length * 71
    omega
  have hrows : (List.range rows.length).mapM (unpackRow (blob (slab gen rows))) = some rows := by
    refine mapM_eq_some.mpr (List.forall₂_iff_get.mpr ⟨List.length_range, fun i h h' => ?_⟩)
    rw [List.get_eq_getElem, List.getElem_range]
    exact unpackRow_slab gen hdec (List.getElem?_eq_getElem h')
  rw [unpack, if_pos ⟨rfl, by rw [hq]; exact hpos, by rw [hq]; exact hmax, by rw [hq, hlen]⟩, hq]
  simp only [decodedOf, hrows]
  exact if_pos ⟨hne, rfl⟩

end slab

/-! ## Slots -/

/-- A sector whose own checksum holds. -/
def Sealed (s : Sector) : Bool := sectorCrc s.val == rdU32 s.val 4

/-- The sectors of a record. -/
def sectorCount (r : HeadRecord) : Nat := (blobLen r.sig.length + SEC_PAYLOAD - 1) / SEC_PAYLOAD

/-- The slot from `base` on holds every sector of a record. -/
def Holds (disk : Disk Sector) (base : Nat) (r : HeadRecord) : Prop :=
  ∀ i < sectorCount r, disk (base + i) = recordSector r i

instance (disk : Disk Sector) (base : Nat) (r : HeadRecord) : Decidable (Holds disk base r) :=
  inferInstanceAs (Decidable (∀ i < sectorCount r, disk (base + i) = recordSector r i))

theorem sectorCount_slab (gen : BitVec 64) (rows : List Row) :
    sectorCount (slab gen rows) = slabSectors rows.length := by
  rw [sectorCount, length_sig, slabSectors]

section slot

variable {disk : Disk Sector} {base : Nat}

theorem sealed_of_gate {s : Sector} {tag : BitVec 32} (h : sectorGate s.val tag = true) :
    Sealed s = true := (Bool.and_eq_true_iff.mp h).1

theorem sealed_recordSector (r : HeadRecord) (i : Nat) : Sealed (recordSector r i) = true :=
  sealed_of_gate ((sectorGate_stampSector (genTag r.gen) _ _).mpr rfl)

theorem length_slabAt (disk : Disk Sector) (base : Nat) : (slabAt disk base).length = SLAB_BYTES := by
  rw [slabAt, length_slotBytes, List.length_map, List.length_range, Nat.mul_comm]
  rfl

theorem sectorAt_slabAt {i : Nat} (hi : i < MAX_SECTORS) :
    sectorAt (slabAt disk base) i = (disk (base + i)).val := by
  refine sectorAt_slotBytes ?_
  rw [List.getElem?_map, List.getElem?_range hi]
  rfl

/-- A slot that holds a slab decodes to it. -/
theorem decode_of_holds {gen : BitVec 64} {rows : List Row}
    (hmax : rows.length ≤ CORPUS_PERSIST_MAX_RECORDS) (h : Holds disk base (slab gen rows)) :
    decode (slabAt disk base) BLOB_CAP =
      some (decodedOf (slab gen rows) (slabSectors rows.length)) := by
  have hle := slabSectors_le hmax
  refine decode_sectors (sectorsFor_slab gen hmax) ?_ ?_ fun i hi => ?_
  · rw [length_slabAt]
    exact Nat.mul_le_mul_right _ hle
  · rw [length_sig]
    have hcap : rows.length * CORPUS_CANON_LEN ≤ SIG_CAP :=
      Nat.le_trans (Nat.mul_le_mul_right _ hmax) (by decide)
    exact Nat.add_le_add_right (Nat.add_le_add_left hcap _) _
  · rw [sectorAt_slabAt (Nat.lt_of_lt_of_le hi hle), h i (by rw [sectorCount_slab]; exact hi)]

/-- A slot that decodes has sealed sectors, under one stamp. -/
theorem gates_of_slabAt {out : DecodedHead × List UInt8} (h : decode (slabAt disk base) BLOB_CAP = some out) :
    0 < out.1.nSectors ∧ out.1.nSectors ≤ MAX_SECTORS ∧
      ∀ i < out.1.nSectors, sectorGate (disk (base + i)).val (genTag out.1.gen) = true := by
  have hacc := accepted_of_decode h
  have hroom : out.1.nSectors ≤ MAX_SECTORS := by
    have hle := hacc.room
    rw [length_slabAt] at hle
    exact Nat.le_of_mul_le_mul_right hle (by decide)
  refine ⟨(sectorsFor_eq hacc.geometry).2.1, hroom, fun i hi => ?_⟩
  rw [← sectorAt_slabAt (Nat.lt_of_lt_of_le hi hroom)]
  exact hacc.gates i hi

/-- A slot whose first sector fails its checksum does not decode. -/
theorem decode_of_unsealed (h : Sealed (disk base) = false) :
    decode (slabAt disk base) BLOB_CAP = none := by
  cases hd : decode (slabAt disk base) BLOB_CAP with
  | none => rfl
  | some out =>
      obtain ⟨hpos, -, hgates⟩ := gates_of_slabAt hd
      have hsealed := sealed_of_gate (hgates 0 hpos)
      rw [Nat.add_zero, h] at hsealed
      cases hsealed

end slot

/-- Both slots hold a slab, slot B the newer. -/
theorem survivor_right {disk : Disk Sector} {a b : DecodedHead × List UInt8}
    (hA : decode (slabAt disk CORPUS_PERSIST_BASE) BLOB_CAP = some a)
    (hB : decode (slabAt disk (CORPUS_PERSIST_BASE + MAX_SECTORS)) BLOB_CAP = some b) (hlt : a.1.gen < b.1.gen) :
    (regionOf disk).survivor = (unpack b).map fun rows => (b.1.head, rows) := by
  simp only [regionOf, readBack, Option.bind_some, hA, hB, Option.map_some, pickNewer, recover, hlt, decide_true]
  rfl

/-! ## Records and sectors to run on -/

/-- A record of the episodic consolidation. -/
def sampleRecord (contentTok : BitVec 64) : Yuva.Mem.Corpus.CorpusRecord where
  schemaVersion := Yuva.Mem.Corpus.CORPUS_SCHEMA_V1
  exampleKind := Yuva.Mem.Corpus.ExampleKind.EPISODIC_CONSOLIDATION
  sourceStream := Yuva.Mem.Corpus.SourceStream.M13_MEM
  curationVerdict := Yuva.Mem.Corpus.CurationVerdict.ACCEPTED
  contentTok := contentTok
  auxTok := 0
  tCreated := 1
  sourceHead := zeros 32
  outcome := .unset
  curationScoreQ := 0

def sampleRow (contentTok : BitVec 64) : Row :=
  ⟨Yuva.Mem.Corpus.canonBytes (sampleRecord contentTok), length_canonBytes (sampleRecord contentTok)⟩

theorem decodable_sampleRow {rows : List Row} (h : ∀ row ∈ rows, ∃ t, row = sampleRow t) :
    Decodable rows := by
  intro row hrow
  obtain ⟨t, rfl⟩ := h row hrow
  rw [sampleRow, Yuva.Mem.Corpus.decode_canonBytes ⟨rfl, rfl, rfl, rfl⟩]
  rfl

/-- A cleared sector. -/
def blankSector : Sector := zeros 512

theorem unsealed_blankSector : Sealed blankSector = false := by decide +kernel

end Yuva.Persist
