/-
# `Yuva.Mem.Ledger` — the three hash-chained logs

    `tb-encode/src/prov.rs`     provenance entries and the fold over their digests
    `tb-encode/src/exp.rs`      experience records and the drop-oldest ring
    `tb-encode/src/corpus.rs`   curated corpus records

A record is encoded into a caller's buffer, its digest is the record's id, and
the log's head is the fold of `chainMix` over the ids from the all-zero head.
The three logs share that fold; only the encodings differ.
-/
import Yuva.Hash.Khash
import Yuva.Mem.Score

namespace Yuva.Mem

open Yuva.Bytes Yuva.Hash

/-! ## Provenance -/

namespace Prov

def PROV_HASH_LEN : Nat := 32
def CANON_PREFIX_LEN : Nat := 1 + 1 + 8 + 8 + 8 + 8
/-- Leads the fold's input, so a fold is never a bare digest. -/
def MIX_DOMAIN : UInt8 := 0xC3

namespace Kind

def WRITE : UInt8 := 1
def FORGET : UInt8 := 2
def SKILL_ADMIT : UInt8 := 3

end Kind

structure ProvEntry where
  kind : UInt8
  payloadTok : BitVec 64
  tier : UInt8
  writerCapId : BitVec 64
  tCreated : BitVec 64
  parentIds : List Bytes32
  deriving DecidableEq

/-- A slice holds fewer than `2 ^ 63` bytes, so the source's saturating operators
never saturate here. -/
def canonLen (e : ProvEntry) : Nat := CANON_PREFIX_LEN + e.parentIds.length * PROV_HASH_LEN

/-- The bytes of an entry; the parent list is prefixed with its length. -/
def canonBytes (e : ProvEntry) : List UInt8 :=
  [e.kind, e.tier] ++ (le 8 e.payloadTok.toNat ++ (le 8 e.writerCapId.toNat ++
    (le 8 e.tCreated.toNat ++ (le 8 e.parentIds.length ++ (e.parentIds.map Subtype.val).flatten))))

def canon {n : Nat} (e : ProvEntry) (out : Block n) : Nat × Block n := overwrite (canonBytes e) out

theorem length_canonBytes (e : ProvEntry) : (canonBytes e).length = canonLen e := by
  have hids : (e.parentIds.map Subtype.val).flatten.length = 32 * e.parentIds.length := by
    rw [length_flatten_of_eq (k := 32), List.length_map]
    intro f hf
    obtain ⟨id, -, rfl⟩ := List.mem_map.mp hf
    exact id.property
  simp only [canonBytes, canonLen, CANON_PREFIX_LEN, PROV_HASH_LEN, List.length_append,
    List.length_cons, List.length_nil, length_le, hids]
  omega

def provHash (bytes : List UInt8) : Bytes32 := uhash bytes

def genesis : Bytes32 := zeros 32

/-- One step of the fold: the new head depends on the old one and on the id. -/
def chainMix (head entryId : Bytes32) : Bytes32 := provHash (MIX_DOMAIN :: (head.val ++ entryId.val))

def recompute (leaf : Bytes32) (siblings : List Bytes32) : Bytes32 :=
  siblings.foldl chainMix (chainMix genesis leaf)

def verifyInclusion (leaf : Bytes32) (siblings : List Bytes32) (head : Bytes32) : Bool :=
  recompute leaf siblings == head

/-- The new head and the entry's id, or nothing when the scratch is too short. -/
def append {n : Nat} (head : Bytes32) (e : ProvEntry) (scratch : Block n) : Option (Bytes32 × Bytes32) :=
  let (k, scratch) := canon e scratch
  if k = 0 then none
  else
    let entryId := provHash (scratch.val.take k)
    some (chainMix head entryId, entryId)

/-- The four little-endian lanes of a head, xor-ed together. -/
def headWitness (head : Bytes32) : BitVec 64 :=
  (List.range 4).foldl (fun acc l => acc ^^^ BitVec.ofNat 64 (unle (slice head.val (8 * l) 8))) 0

end Prov

/-! ## Experience -/

namespace Exp

namespace Kind

def FORGET_DECISION : UInt8 := 1
def RECALL_TOUCH : UInt8 := 2

end Kind

namespace PolicyKind

def DETERMINISTIC : UInt8 := 0
def SOFT_GREEDY : UInt8 := 1

end PolicyKind

def PROPENSITY_DETERMINISTIC_Q : BitVec 16 := 1000

inductive OutcomeLabel where
  | unset
  | reRecalled (v : BitVec 64)
  | evicted (v : BitVec 64)
  deriving DecidableEq

namespace OutcomeLabel

def tag : OutcomeLabel → UInt8
  | unset => 0
  | reRecalled _ => 1
  | evicted _ => 2

/-- The payload slot is there whatever the label. -/
def payload : OutcomeLabel → BitVec 64
  | unset => 0
  | reRecalled v => v
  | evicted v => v

end OutcomeLabel

structure ExperienceRecord where
  decisionId : BitVec 64
  kind : UInt8
  feats : Feats
  envelopeVerdict : UInt8
  actionTaken : UInt8
  kanScoreShadow : BitVec 64
  loggingPropensityQ : BitVec 16
  loggingPolicyKind : UInt8
  outcome : OutcomeLabel
  marginQ : BitVec 16
  deriving DecidableEq

def EXP_CANON_LEN : Nat := 8 + 1 + 4 * 4 + 1 + 1 + 8 + 2 + 1 + 1 + 8 + 2

def canonBytes (r : ExperienceRecord) : List UInt8 :=
  le 8 r.decisionId.toNat ++ (r.kind :: (le 4 r.feats[0].toNat ++ (le 4 r.feats[1].toNat ++
    (le 4 r.feats[2].toNat ++ (le 4 r.feats[3].toNat ++ (r.envelopeVerdict :: r.actionTaken ::
      (le 8 r.kanScoreShadow.toNat ++ (le 2 r.loggingPropensityQ.toNat ++ (r.loggingPolicyKind ::
        r.outcome.tag :: (le 8 r.outcome.payload.toNat ++ le 2 r.marginQ.toNat))))))))))

def canon {n : Nat} (r : ExperienceRecord) (out : Block n) : Nat × Block n := overwrite (canonBytes r) out

/-- Every record has the same width. -/
theorem length_canonBytes (r : ExperienceRecord) : (canonBytes r).length = EXP_CANON_LEN := by
  simp only [canonBytes, EXP_CANON_LEN, List.length_append, List.length_cons, length_le]

/-- A ring of `CAP` rows of `LEN` bytes that drops its oldest row when full. -/
structure ExpRing (CAP LEN : Nat) where
  rows : Vector (Block LEN) CAP
  head : Nat
  len : Nat

namespace ExpRing

variable {CAP LEN : Nat}

def new : ExpRing CAP LEN := ⟨Vector.replicate CAP (zeros LEN), 0, 0⟩

/-- Whether a row was dropped, and the ring after the push. -/
def push (q : ExpRing CAP LEN) (row : Block LEN) : Bool × ExpRing CAP LEN :=
  if CAP = 0 then (false, q)
  else if q.len < CAP then
    (false, { q with
      rows := q.rows.setIfInBounds ((q.head + q.len) % CAP) row
      len := q.len + 1 })
  else
    (true, { q with
      rows := q.rows.setIfInBounds q.head row
      head := (q.head + 1) % CAP })

/-- The `i`-th live row, oldest first. -/
def get (q : ExpRing CAP LEN) (i : Nat) : Option (Block LEN) :=
  if i ≥ q.len ∨ CAP = 0 then none else q.rows[(q.head + i) % CAP]?

end ExpRing

end Exp

/-! ## Corpus -/

namespace Corpus

def CORPUS_SCHEMA_V1 : UInt8 := 1

namespace ExampleKind

def EPISODIC_CONSOLIDATION : UInt8 := 1
def OPERATOR_TURN : UInt8 := 2
def LABELED_OUTCOME : UInt8 := 3

end ExampleKind

namespace SourceStream

def M13_MEM : UInt8 := 1
def M17_REFLECT : UInt8 := 2
def M25_OPERATOR : UInt8 := 3

end SourceStream

namespace CurationVerdict

def REJECTED : UInt8 := 0
def ACCEPTED : UInt8 := 1

end CurationVerdict

inductive OutcomeLabel where
  | unset
  | positive (v : BitVec 64)
  | negative (v : BitVec 64)
  deriving DecidableEq

namespace OutcomeLabel

def tag : OutcomeLabel → UInt8
  | unset => 0
  | positive _ => 1
  | negative _ => 2

def payload : OutcomeLabel → BitVec 64
  | unset => 0
  | positive v => v
  | negative v => v

end OutcomeLabel

structure CorpusRecord where
  schemaVersion : UInt8
  exampleKind : UInt8
  sourceStream : UInt8
  curationVerdict : UInt8
  contentTok : BitVec 64
  auxTok : BitVec 64
  tCreated : BitVec 64
  sourceHead : Bytes32
  outcome : OutcomeLabel
  curationScoreQ : BitVec 16
  deriving DecidableEq

def CORPUS_CANON_LEN : Nat := 1 + 1 + 1 + 1 + 8 + 8 + 8 + Prov.PROV_HASH_LEN + 1 + 8 + 2

def canonBytes (r : CorpusRecord) : List UInt8 :=
  [r.schemaVersion, r.exampleKind, r.sourceStream, r.curationVerdict] ++ (le 8 r.contentTok.toNat ++
    (le 8 r.auxTok.toNat ++ (le 8 r.tCreated.toNat ++ (r.sourceHead.val ++ (r.outcome.tag ::
      (le 8 r.outcome.payload.toNat ++ le 2 r.curationScoreQ.toNat))))))

def canon {n : Nat} (r : CorpusRecord) (out : Block n) : Nat × Block n := overwrite (canonBytes r) out

theorem length_canonBytes (r : CorpusRecord) : (canonBytes r).length = CORPUS_CANON_LEN := by
  simp only [canonBytes, CORPUS_CANON_LEN, Prov.PROV_HASH_LEN, List.length_append, List.length_cons,
    List.length_nil, length_le, r.sourceHead.property]

/-- The new head, the record's id and the scratch that holds its bytes. -/
def corpusAppend {n : Nat} (head : Bytes32) (r : CorpusRecord) (scratch : Block n) :
    Option (Bytes32 × Bytes32) × Block n :=
  let (k, scratch) := canon r scratch
  if k = 0 then (none, scratch)
  else
    let recordId := Prov.provHash (scratch.val.take k)
    (some (Prov.chainMix head recordId, recordId), scratch)

end Corpus

end Yuva.Mem
