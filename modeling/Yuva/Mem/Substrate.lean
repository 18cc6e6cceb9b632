/-
# `Yuva.Mem.Substrate` — the tiered memory of one agent

`tb-hal/src/mem/organ.rs`, the data model: the context registers (T0), the
working graph (T1), the episodic journal (T2), the semantic store with its
inverted index (T3), the skills (T4), the ring of recent retrievals, the quota,
and the three hash-chained logs.  Then the updates every operation is made of:
appending a record, and appending to each log.

Words are `BitVec 64`.  Saturating counters are `Nat` with the width named.
-/
import Yuva.Mem.Ledger
import Yuva.Store.Blkfmt

namespace Yuva.Mem

open Yuva.Bytes Yuva.Hash Yuva.Machine

/-! ## The tiers -/

def N_REG : Nat := 8
/-- How many retrievals a recall remembers and skips. -/
def F_FINST : Nat := 4
def NODE_QUOTA : Nat := 256
/-- Writes beyond it are refused. -/
def TOKEN_QUOTA : Nat := 2 ^ 20
def PROV_SCRATCH : Nat := 256
def XP_CAP : Nat := 64

structure Register where
  nameTok : BitVec 64
  kind : UInt8
  value : BitVec 64
  deriving DecidableEq

inductive Support where
  | iSupport | oSupport
  deriving DecidableEq

structure WmNode where
  id : BitVec 32
  attrTok : BitVec 64
  val : BitVec 64
  edges : List (BitVec 32)
  support : Support
  deriving DecidableEq

structure WorkingGraph where
  nodes : List WmNode
  root : BitVec 32
  deriving DecidableEq

/-- The source keeps no mark: it only cuts the graph at its quota. -/
def WorkingGraph.gc (g : WorkingGraph) : WorkingGraph :=
  if g.nodes.length > NODE_QUOTA then { g with nodes := g.nodes.take NODE_QUOTA } else g

structure Episode where
  id : BitVec 64
  contentTok : BitVec 64
  value : BitVec 64
  tCreated : BitVec 64
  tInvalid : BitVec 64
  producingTask : BitVec 32
  deriving DecidableEq

def Episode.invalidate (clock : BitVec 64) (e : Episode) : Episode := { e with tInvalid := clock }

structure EpisodicJournal where
  log : List Episode
  nextId : BitVec 64
  deriving DecidableEq

/-- `TIER_HOT` takes part in recall, `TIER_COLD` is demoted. -/
inductive Tier where
  | hot | cold
  deriving DecidableEq

def Tier.byte : Tier → UInt8
  | .hot => 3
  | .cold => 5

inductive Provenance where
  | episodic | insight | distilled
  deriving DecidableEq

def LINK_CITES : UInt8 := 0
def LINK_SUPERSEDES : UInt8 := 2

structure MemRecord where
  id : BitVec 64
  token : BitVec 64
  importance : Nat
  count : Nat
  lastTs : List (BitVec 64)
  lastIdx : BitVec 64
  tCreated : BitVec 64
  tInvalid : BitVec 64
  cSucc : Nat
  cUse : Nat
  links : List (UInt8 × BitVec 64)
  tier : Tier
  provenance : Provenance
  deriving DecidableEq

/-- Stands for the panic of an index out of range; `Yuva.Mem.Lockstep` shows that
no operation reads it. -/
instance : Inhabited MemRecord := ⟨⟨0, 0, 0, 0, [], 0, 0, 0, 0, 0, [], .cold, .episodic⟩⟩

namespace MemRecord

/-- Live and in the hot set. -/
def active (r : MemRecord) : Bool := r.tInvalid == 0 && r.tier == .hot

/-- Neither tombstoned, demoted nor itself an insight. -/
def reflectable (r : MemRecord) : Bool := r.active && r.provenance != .insight

def invalidate (clock : BitVec 64) (r : MemRecord) : MemRecord := { r with tInvalid := clock }

def linked (edges : List (UInt8 × BitVec 64)) (r : MemRecord) : MemRecord :=
  { r with links := r.links ++ edges }

def demote (r : MemRecord) : MemRecord := { r with tier := .cold }

def asDistilled (r : MemRecord) : MemRecord := { r with provenance := .distilled }

/-- A retrieval: one more access, stamped in the ring of the last ten. -/
def accessed (clock : BitVec 64) (r : MemRecord) : MemRecord :=
  { r with
    count := satU 32 (r.count + 1)
    lastTs := r.lastTs.set (r.lastIdx.toNat % 10) clock
    lastIdx := r.lastIdx + 1 }

/-- A cited record resists forgetting a little longer. -/
def strengthen (r : MemRecord) : MemRecord :=
  { r with importance := min (satU 8 (r.importance + 1)) 10 }

end MemRecord

structure SemanticStore where
  records : List MemRecord
  lexical : Std.TreeMap (BitVec 64) (List Nat)
  numDocs : Nat
  totalLen : Nat

structure Finsts where
  ring : Vector (Option (BitVec 64 × BitVec 64)) F_FINST
  head : Nat
  deriving DecidableEq

namespace Finsts

def clear : Finsts := ⟨Vector.replicate F_FINST none, 0⟩

def contains (f : Finsts) (id : BitVec 64) : Bool :=
  f.ring.any fun slot => slot.any fun p => p.1 == id

def push (f : Finsts) (id ts : BitVec 64) : Finsts :=
  ⟨f.ring.setIfInBounds (f.head % F_FINST) (some (id, ts)), wrapU 64 (f.head + 1)⟩

end Finsts

structure Quota where
  tokensWritten : Nat
  records : Nat
  deriving DecidableEq

/-! ## The RAM store behind the tiers -/

structure RamStore where
  ep : List UInt8
  sem : List UInt8
  wm : List UInt8
  epoch : BitVec 64
  deriving DecidableEq

namespace RamStore

/-- The offset the bytes went to. -/
def append (st : RamStore) (region : Store.Region) (bytes : List UInt8) : Nat × RamStore :=
  match region with
  | .episodic => (st.ep.length, { st with ep := st.ep ++ bytes, epoch := st.epoch + 1 })
  | .semantic => (st.sem.length, { st with sem := st.sem ++ bytes, epoch := st.epoch + 1 })
  | .working => (st.wm.length, { st with wm := st.wm ++ bytes, epoch := st.epoch + 1 })

/-- RAM has nothing to flush. -/
def flush (st : RamStore) : RamStore := st

end RamStore

/-! ## Skills -/

inductive SkillTier where
  | proposed | admitted
  deriving DecidableEq

def SkillTier.byte : SkillTier → UInt8
  | .proposed => 0
  | .admitted => 1

/-- Marks a skill whose interface asks for an external effect. -/
def SKILL_PROV_EMIT_EXTERNAL : UInt8 := 1
def UTIL_ALPHA_DIV : Int := 5

structure SkillRecord where
  id : BitVec 64
  bodyTok : BitVec 64
  descTok : BitVec 64
  ifaceTok : BitVec 64
  embedding : BitVec 64
  cSucc : Nat
  cUse : Nat
  util : Nat
  lineage : List (BitVec 64)
  tier : SkillTier
  provenance : UInt8
  deriving DecidableEq

/-- The interface asks for an external effect. -/
def SkillRecord.highImpact (k : SkillRecord) : Bool := (k.provenance &&& SKILL_PROV_EMIT_EXTERNAL) != 0

instance : Inhabited SkillRecord := ⟨⟨0, 0, 0, 0, 0, 0, 0, 0, [], .proposed, 0⟩⟩

structure ProceduralStore where
  skills : List SkillRecord
  nextId : BitVec 64
  bestScore : BitVec 32
  deriving DecidableEq

/-! ## The substrate -/

structure MemSubstrate where
  t0 : Vector (Option Register) N_REG
  t1 : WorkingGraph
  t2 : EpisodicJournal
  t3 : SemanticStore
  finsts : Finsts
  clock : BitVec 64
  quota : Quota
  backing : RamStore
  impAccum : Nat
  lastConsolidatedEpoch : BitVec 64
  consolCursor : Nat
  t4 : ProceduralStore
  chainHead : Bytes32
  ledgerIds : List Bytes32
  xpHead : Bytes32
  xpRing : Exp.ExpRing XP_CAP Exp.EXP_CANON_LEN
  xpIds : List Bytes32
  corpusHead : Bytes32
  corpusIds : List Bytes32
  corpusRecords : List (Block Corpus.CORPUS_CANON_LEN)
  corpusAccepted : Nat
  corpusRejected : Nat

namespace MemSubstrate

def new : MemSubstrate where
  t0 := Vector.replicate N_REG none
  t1 := ⟨[], 0⟩
  t2 := ⟨[], 0⟩
  t3 := ⟨[], ∅, 0, 0⟩
  finsts := Finsts.clear
  clock := 1
  quota := ⟨0, 0⟩
  backing := ⟨[], [], [], 0⟩
  impAccum := 0
  lastConsolidatedEpoch := 0
  consolCursor := 0
  t4 := ⟨[], 0, 0⟩
  chainHead := Prov.genesis
  ledgerIds := []
  xpHead := Prov.genesis
  xpRing := Exp.ExpRing.new
  xpIds := []
  corpusHead := Prov.genesis
  corpusIds := []
  corpusRecords := []
  corpusAccepted := 0
  corpusRejected := 0

/-- The logical clock advances; it wraps. -/
def tick (s : MemSubstrate) : MemSubstrate := { s with clock := s.clock + 1 }

def withRecords (s : MemSubstrate) (records : List MemRecord) : MemSubstrate :=
  { s with t3 := { s.t3 with records := records } }

def withLog (s : MemSubstrate) (log : List Episode) : MemSubstrate :=
  { s with t2 := { s.t2 with log := log } }

/-! ### Appending a record -/

/-- The one place a record is appended: the episode, the semantic record, its
posting, the document count and the quota. -/
def appendRecord (s : MemSubstrate) (token value : BitVec 64) (importance : Nat)
    (provenance : Provenance) (links : List (UInt8 × BitVec 64)) : MemSubstrate :=
  let id := s.t2.nextId
  let ridx := wrapU 32 s.t3.records.length
  let episode : Episode :=
    { id := id, contentTok := token, value := value, tCreated := s.clock, tInvalid := 0
      producingTask := 0 }
  let record : MemRecord :=
    { id := id, token := token, importance := max 1 (min importance 10), count := 0
      lastTs := List.replicate 10 0, lastIdx := 0, tCreated := s.clock, tInvalid := 0, cSucc := 0
      cUse := 0, links := links, tier := .hot, provenance := provenance }
  { s with
    t2 := ⟨s.t2.log ++ [episode], s.t2.nextId + 1⟩
    t3 :=
      { records := s.t3.records ++ [record]
        lexical := s.t3.lexical.alter token fun postings => some (postings.getD [] ++ [ridx])
        numDocs := satU 32 (s.t3.numDocs + 1)
        totalLen := satU 64 (s.t3.totalLen + 1) }
    quota := ⟨satU 64 (s.quota.tokensWritten + 1), satU 32 (s.quota.records + 1)⟩
    backing := (s.backing.append .episodic (le 8 id.toNat)).2
    clock := s.clock + 1 }

/-- The new record's id, or nothing past the quota. -/
def pushRecord (s : MemSubstrate) (token value : BitVec 64) (importance : Nat)
    (provenance : Provenance) (links : List (UInt8 × BitVec 64)) :
    Option (BitVec 64) × MemSubstrate :=
  if satU 64 (s.quota.tokensWritten + 1) > TOKEN_QUOTA then (none, s)
  else (some s.t2.nextId, s.appendRecord token value importance provenance links)

/-! ### Appending to the logs -/

def ledgerAppend (s : MemSubstrate) (kind : UInt8) (payloadTok : BitVec 64) (tier : UInt8)
    (writerCapId : BitVec 64) (parents : List Bytes32) : Option Bytes32 × MemSubstrate :=
  let entry : Prov.ProvEntry :=
    { kind := kind, payloadTok := payloadTok, tier := tier, writerCapId := writerCapId
      tCreated := s.clock, parentIds := parents }
  match Prov.append s.chainHead entry (zeros PROV_SCRATCH) with
  | none => (none, s)
  | some (newHead, id) => (some id, { s with chainHead := newHead, ledgerIds := s.ledgerIds ++ [id] })

/-- The entry before, or none at the start of the chain. -/
def parentOfHead (s : MemSubstrate) : List Bytes32 := s.ledgerIds.getLast?.toList

def xpRecord (s : MemSubstrate) (r : Exp.ExperienceRecord) : Option Bytes32 × MemSubstrate :=
  let (n, row) := Exp.canon r (zeros Exp.EXP_CANON_LEN)
  if n = 0 then (none, s)
  else
    let id := Prov.provHash row.val
    (some id, { s with
      xpHead := Prov.chainMix s.xpHead id
      xpRing := (s.xpRing.push row).2
      xpIds := s.xpIds ++ [id] })

def CORPUS_CURATION_MIN_SALIENCE : Nat := 2

def corpusCurate (contentTok : BitVec 64) (salience : Nat) : UInt8 :=
  if contentTok ≠ 0 ∧ salience ≥ CORPUS_CURATION_MIN_SALIENCE then Corpus.CurationVerdict.ACCEPTED
  else Corpus.CurationVerdict.REJECTED

/-- What the three emitters share: a curated record at the current clock and
provenance head, and the count of its verdict. -/
def corpusEmit (s : MemSubstrate) (exampleKind sourceStream verdict : UInt8)
    (contentTok auxTok : BitVec 64) (outcome : Corpus.OutcomeLabel) : MemSubstrate :=
  let r : Corpus.CorpusRecord :=
    { schemaVersion := Corpus.CORPUS_SCHEMA_V1, exampleKind := exampleKind
      sourceStream := sourceStream, curationVerdict := verdict, contentTok := contentTok
      auxTok := auxTok, tCreated := s.clock, sourceHead := s.chainHead, outcome := outcome
      curationScoreQ := 0 }
  match Corpus.corpusAppend s.corpusHead r (zeros Corpus.CORPUS_CANON_LEN) with
  | (none, _) => s
  | (some (newHead, id), scratch) =>
      let s := { s with
        corpusHead := newHead
        corpusIds := s.corpusIds ++ [id]
        corpusRecords := s.corpusRecords ++ [scratch] }
      if verdict = Corpus.CurationVerdict.ACCEPTED then
        { s with corpusAccepted := satU 64 (s.corpusAccepted + 1) }
      else { s with corpusRejected := satU 64 (s.corpusRejected + 1) }

def corpusEmitConsolidation (s : MemSubstrate) (contentTok auxTok : BitVec 64)
    (sourceStream : UInt8) (salience : Nat) : MemSubstrate :=
  s.corpusEmit Corpus.ExampleKind.EPISODIC_CONSOLIDATION sourceStream
    (corpusCurate contentTok salience) contentTok auxTok .unset

def corpusEmitOperatorTurn (s : MemSubstrate) (contentTok auxTok : BitVec 64) (verdict : UInt8) :
    MemSubstrate :=
  s.corpusEmit Corpus.ExampleKind.OPERATOR_TURN Corpus.SourceStream.M25_OPERATOR verdict contentTok
    auxTok .unset

def corpusEmitLabeledOutcome (s : MemSubstrate) (decisionId : BitVec 64)
    (outcome : Corpus.OutcomeLabel) : MemSubstrate :=
  s.corpusEmit Corpus.ExampleKind.LABELED_OUTCOME Corpus.SourceStream.M13_MEM
    Corpus.CurationVerdict.ACCEPTED decisionId 0 outcome

end MemSubstrate

end Yuva.Mem
