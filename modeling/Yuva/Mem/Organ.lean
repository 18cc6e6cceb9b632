/-
# `Yuva.Mem.Organ` — the operations of the memory

`tb-hal/src/mem/organ.rs`: the write vocabulary, the two reads, activation-ranked
recall, the maintenance operations behind one op selector (tombstone, link,
distil, reflect, forget), the procedural writes, and the frozen-domain seeding.
Every operation is a function of the substrate and its arguments; `Op` names
those that can change a substrate, and a run is a list of them.
-/
import Yuva.Mem.Substrate

namespace Yuva.Mem

open Yuva.Bytes Yuva.Hash Yuva.Machine

def XP_ACTION_KEEP : UInt8 := 0
def XP_ACTION_DEMOTE : UInt8 := 1
def XP_ACTION_TOUCH : UInt8 := 2
def XP_ENV_PINNED : UInt8 := 0
def XP_ENV_DEMOTABLE : UInt8 := 1
def XP_ENV_TOUCH : UInt8 := 2
def EPS_NUM : Nat := 1
def EPS_DEN : Nat := 16
def AGENT_SEED : BitVec 64 := 0x9E3779B97F4A7C15
def EXPLORE_CLEARED_M : Nat := 2
def EXPLORE_SINGLETON_M : Nat := 1
def THETA_DEMOTE : Int := -1000
def IMP_PIN : Int := 8
def UTIL_PIN : Int := 600
def MIN_AGE : Nat := 16
def SWEEP_BATCH : Nat := 64
def DISTILL_BATCH : Nat := 32
def REFLECT_WINDOW : Nat := 16
def REFLECT_IMP : Nat := 5
def REFLECT_SEED : BitVec 64 := 0x9E3779B97F4A7C15
/-- The learned policy never decides in this build. -/
def KAN_ACTIVE : Bool := false

namespace MemSubstrate

/-! ## Write, delete, read -/

/-- Importance accumulates towards the next consolidation. -/
def accrue (s : MemSubstrate) (imp : Nat) : MemSubstrate :=
  { s with impAccum := satU 32 (s.impAccum + imp) }

def add (s : MemSubstrate) (key value packed : BitVec 64) : Option (BitVec 64) × MemSubstrate :=
  let imp := max 1 (min (packed &&& 0xFF).toNat 10)
  (s.accrue imp).pushRecord key value imp .episodic []

/-- Tombstones the newest live record that carries `key`, in both tiers. -/
def delete (s : MemSubstrate) (key : BitVec 64) : Option (BitVec 64) × MemSubstrate :=
  let hit (r : MemRecord) : Bool := r.token == key && r.tInvalid == 0
  let found := (s.t3.records.reverse.find? hit).map MemRecord.id
  let s := s.withRecords
    (s.t3.records.reverse.replaceF fun r =>
      if hit r then some (r.invalidate s.clock) else none).reverse
  let s := match found with
    | none => s
    | some id => s.withLog
        (s.t2.log.map fun (e : Episode) => if e.id == id then e.invalidate s.clock else e)
  (found, s.tick)

/-- Add or update (a new version), delete, or nothing; what changed the store is
entered in the provenance ledger. -/
def write (s : MemSubstrate) (op key value packed : BitVec 64) : Option (BitVec 64) × MemSubstrate :=
  let (r, s) :=
    if op = 0 ∨ op = 1 then s.add key value packed
    else if op = 2 then s.delete key
    else (some 0, s)
  match r with
  | none => (none, s)
  | some rid =>
      if op ≤ 2 then
        (some rid, (s.ledgerAppend Prov.Kind.WRITE key (UInt8.ofNat (packed &&& 0xFF).toNat) rid
          s.parentOfHead).2)
      else (some rid, s)

def read (s : MemSubstrate) (id : BitVec 64) : Option (BitVec 64) :=
  (s.t2.log.find? fun e => e.id == id).map Episode.value

/-- The observation of an access to record `id` of this age and count. -/
def touchOf (id : BitVec 64) (age : BitVec 64) (count : Nat) : Exp.ExperienceRecord :=
  let feats : Feats := #v[quantizeFeature age.toInt, quantizeFeature count, 0, 0]
  { decisionId := id, kind := Exp.Kind.RECALL_TOUCH, feats := feats
    envelopeVerdict := XP_ENV_TOUCH, actionTaken := XP_ACTION_TOUCH
    kanScoreShadow := BitVec.ofInt 64 (kanScore KAN_TABLE feats KAN_FLAG_TERMS KAN_BIAS)
    loggingPropensityQ := Exp.PROPENSITY_DETERMINISTIC_Q
    loggingPolicyKind := Exp.PolicyKind.DETERMINISTIC, outcome := .unset, marginQ := 0 }

/-- `read`, with the access logged. -/
def readTouch (s : MemSubstrate) (id : BitVec 64) : Option (BitVec 64) × MemSubstrate :=
  match s.read id with
  | none => (none, s)
  | some val =>
      let (age, count) := match s.t3.records.find? fun r => r.id == id with
        | some r => (subSat s.clock r.tCreated, r.count)
        | none => (0, 0)
      (some val, (s.xpRecord (touchOf id age count)).2)

/-! ## Recall -/

/-- The postings still eligible: live, hot and not just retrieved. -/
def candidates (s : MemSubstrate) (postings : List Nat) : List Nat :=
  postings.filter fun ri =>
    let r := s.t3.records[ri]!
    r.active && !s.finsts.contains r.id

/-- The first candidate whose three normalised components sum highest. -/
def best (s : MemSubstrate) (postings cand : List Nat) : Nat :=
  let idf := bm25Idf postings.length (max s.t3.numDocs 1)
  let bla := cand.map fun ci =>
    let r := s.t3.records[ci]!
    blaRaw r.count (subSat s.clock r.tCreated + 1).toNat
  let rel := cand.map fun _ => idf
  let imp := cand.map fun ci => (s.t3.records[ci]!.importance : Int)
  let (bestI, _) := (List.range cand.length).foldl
    (fun (b : Nat × Int) k =>
      let score := minmax bla k + minmax rel k + minmax imp k
      if score > b.2 then (k, score) else b)
    (0, -2 ^ 63)
  cand[bestI]!

/-- The id goes to the retrieval register and to the ring of recent retrievals. -/
def remember (s : MemSubstrate) (query wid : BitVec 64) : MemSubstrate :=
  { s with
    t0 := s.t0.setIfInBounds 1 (some ⟨query, 1, wid⟩)
    finsts := s.finsts.push wid s.clock }

/-- The read path's own effects: the access is counted, remembered and logged. -/
def serve (s : MemSubstrate) (query : BitVec 64) (widx : Nat) : Option (BitVec 64) × MemSubstrate :=
  let wid := s.t3.records[widx]!.id
  let s := s.withRecords (s.t3.records.modify widx (MemRecord.accessed s.clock))
  let s := s.remember query wid
  let r := s.t3.records[widx]!
  let s := (s.xpRecord (touchOf wid (subSat s.clock r.tCreated) r.count)).2
  (some wid, s.tick)

def retrieve (s : MemSubstrate) (query : BitVec 64) : Option (BitVec 64) × MemSubstrate :=
  match s.t3.lexical[query]? with
  | none => (none, s)
  | some postings =>
      let cand := s.candidates postings
      if cand.isEmpty then (none, s) else s.serve query (s.best postings cand)

/-- `tb_recall`: a zero cursor starts a fresh sequence, another goes on past what was
served. -/
def tbRecall (s : MemSubstrate) (query cursor _k _weights : BitVec 64) :
    Option (BitVec 64) × MemSubstrate :=
  (if cursor = 0 then { s with finsts := Finsts.clear } else s).retrieve query

/-! ## Distillation -/

/-- The survivor's order: importance, then the newer, then the smaller id. -/
def better (r s : MemRecord) : Bool :=
  r.importance > s.importance
    || (r.importance == s.importance && r.tCreated > s.tCreated)
    || (r.importance == s.importance && r.tCreated == s.tCreated && r.id < s.id)

/-- The survivor and the losers of one posting list, when it holds duplicates. -/
def cluster (s : MemSubstrate) (postings : List Nat) : Option (Nat × List Nat) :=
  let live := postings.filter fun ri => s.t3.records[ri]!.active
  if live.length < 2 then none
  else
    let surv := live.foldl
      (fun surv idx => if better s.t3.records[idx]! s.t3.records[surv]! then idx else surv) live[0]!
    some (surv, live.filter fun idx => idx != surv)

/-- The duplicate clusters in token order, at most a batch of them. -/
def distillPlan (s : MemSubstrate) : List (Nat × List Nat) :=
  ((s.t3.lexical.toList.map Prod.snd).filterMap s.cluster).take DISTILL_BATCH

/-- One loser tombstoned (never its episode), two links on the survivor. -/
def mergeLoser (surv : Nat) (s : MemSubstrate) (loser : Nat) : MemSubstrate :=
  let loserId := s.t3.records[loser]!.id
  let records := s.t3.records.modify loser (MemRecord.invalidate s.clock)
  s.withRecords (records.modify surv
    (MemRecord.linked [(LINK_SUPERSEDES, loserId), (LINK_CITES, loserId)]))

def mergeCluster (s : MemSubstrate) (c : Nat × List Nat) : MemSubstrate :=
  let s := c.2.foldl (mergeLoser c.1) s
  let s := s.withRecords (s.t3.records.modify c.1 MemRecord.asDistilled)
  let r := s.t3.records[c.1]!
  s.corpusEmitConsolidation r.token 0 Corpus.SourceStream.M13_MEM r.importance

def distill (s : MemSubstrate) : Nat × MemSubstrate :=
  let plan := s.distillPlan
  let merged := (plan.map fun c => c.2.length).sum
  let s := plan.foldl mergeCluster s
  (merged, if merged > 0 then s.tick else s)

/-! ## Reflection -/

def digestStep (digest : BitVec 64) (r : MemRecord) : BitVec 64 :=
  digest.rotateLeft 7 ^^^ r.token ^^^ BitVec.ofNat 64 r.importance

/-- The read-only traversal, newest first; `n` records are folded already. -/
def digestLoop : List MemRecord → Nat → BitVec 64 → BitVec 64
  | [], _, digest => digest
  | r :: rs, n, digest =>
      if r.reflectable then
        if n + 1 ≥ REFLECT_WINDOW then digestStep digest r else digestLoop rs (n + 1) (digestStep digest r)
      else digestLoop rs n digest

def reflectDigest (s : MemSubstrate) : BitVec 64 := digestLoop s.t3.records.reverse 0 REFLECT_SEED

/-- The writing traversal, which also collects the ids it cites. -/
def citeLoop : List MemRecord → List (BitVec 64) → BitVec 64 → List (BitVec 64) × BitVec 64
  | [], cites, digest => (cites, digest)
  | r :: rs, cites, digest =>
      if r.reflectable then
        let cites := cites ++ [r.id]
        if cites.length ≥ REFLECT_WINDOW then (cites, digestStep digest r)
        else citeLoop rs cites (digestStep digest r)
      else citeLoop rs cites digest

def strengthenCited (records : List MemRecord) (cid : BitVec 64) : List MemRecord :=
  records.replaceF fun r => if r.id == cid then some r.strengthen else none

def reflectInner (s : MemSubstrate) (modelToken : BitVec 64) : Option (BitVec 64) × MemSubstrate :=
  let (cites, digest) := citeLoop s.t3.records.reverse [] REFLECT_SEED
  if cites.isEmpty then (none, s)
  else
    let insightToken := if modelToken ≠ 0 then modelToken else digest
    let links := cites.map fun id => (LINK_CITES, id)
    match s.pushRecord insightToken insightToken REFLECT_IMP .insight links with
    | (none, s) => (none, s)
    | (some newId, s) =>
        let s := s.withRecords (cites.foldl strengthenCited s.t3.records)
        (some newId, s.corpusEmitConsolidation insightToken 0 Corpus.SourceStream.M17_REFLECT
          REFLECT_IMP)

/-! ## Forgetting -/

/-- Eight bytes of a word in an otherwise cleared digest. -/
def lane (x : BitVec 64) : Bytes32 := (overwrite (le 8 x.toNat) (zeros 32)).2

/-- The exploration coin, keyed to the decision alone. -/
def exploreIsGreedy (decisionId : BitVec 64) (m : Nat) : Bool :=
  if m ≤ 1 then true
  else
    let witness := Prov.headWitness (Prov.chainMix (lane AGENT_SEED) (lane decisionId))
    witness.toNat % max EPS_DEN 1 % max m 1 == 0

/-- The verdict on one record and, past the grace window, the observation of it. -/
def forgetDecision (clock : BitVec 64) (r : MemRecord) : Bool × Option Exp.ExperienceRecord :=
  if !r.active then (false, none)
  else
    let age := subSat clock r.tCreated
    if age.toNat < MIN_AGE then (false, none)
    else
      let bla := blaRaw r.count age.toNat
      let util := (((r.cSucc : Int) + 1) * SCALE).tdiv ((r.cUse : Int) + 2)
      let safeToDemote := bla < THETA_DEMOTE ∧ (r.importance : Int) < IMP_PIN ∧ util < UTIL_PIN
      let feats : Feats := #v[quantizeFeature age.toInt, quantizeFeature r.count, 0, 0]
      let shadow := kanScore KAN_TABLE feats KAN_FLAG_TERMS KAN_BIAS
      let m := if safeToDemote then EXPLORE_CLEARED_M else EXPLORE_SINGLETON_M
      let isGreedy := exploreIsGreedy r.id m
      let obs : Exp.ExperienceRecord :=
        { decisionId := r.id, kind := Exp.Kind.FORGET_DECISION, feats := feats
          envelopeVerdict := if safeToDemote then XP_ENV_DEMOTABLE else XP_ENV_PINNED
          actionTaken := if safeToDemote then XP_ACTION_DEMOTE else XP_ACTION_KEEP
          kanScoreShadow := BitVec.ofInt 64 shadow
          loggingPropensityQ := BitVec.ofNat 16 (explorePropensityQ EPS_NUM EPS_DEN m isGreedy)
          loggingPolicyKind :=
            if m > 1 then Exp.PolicyKind.SOFT_GREEDY else Exp.PolicyKind.DETERMINISTIC
          outcome := .unset
          marginQ := BitVec.ofInt 16 (satI 16 (bla - THETA_DEMOTE)) }
      let demote := if KAN_ACTIVE ∧ safeToDemote then decide (safeToDemote ∧ shadow < THETA_DEMOTE)
        else decide safeToDemote
      (demote, some obs)

/-- An examined record is logged, a skipped one is not. -/
def observe (s : MemSubstrate) : Option Exp.ExperienceRecord → MemSubstrate
  | some r => (s.xpRecord r).2
  | none => s

/-- One record of the sweep: the observation, then the demotion and its tombstone
in the ledger. -/
def sweepOne (s : MemSubstrate) (idx : Nat) : Nat × MemSubstrate :=
  let (demote, obs) := forgetDecision s.clock s.t3.records[idx]!
  let s := s.observe obs
  if demote then
    let r := s.t3.records[idx]!
    let s := s.withRecords (s.t3.records.modify idx MemRecord.demote)
    (1, (s.ledgerAppend Prov.Kind.FORGET r.token Tier.cold.byte r.id s.parentOfHead).2)
  else (0, s)

/-- The sweep from `idx`, wrapping at `len`, for the records the budget allows. -/
def sweepLoop (len : Nat) : Nat → Nat → Nat → MemSubstrate → Nat × MemSubstrate
  | 0, _, n, s => (n, s)
  | budget + 1, idx, n, s =>
      let (d, s) := s.sweepOne idx
      sweepLoop len budget ((idx + 1) % len) (n + d) s

def forgetSweep (s : MemSubstrate) : Nat × MemSubstrate :=
  let len := s.t3.records.length
  if len = 0 then (0, s)
  else
    let start := s.consolCursor % len
    let budget := if SWEEP_BATCH < len then SWEEP_BATCH else len
    let (n, s) := sweepLoop len budget start 0 s
    (n, { s with consolCursor := (start + budget) % len })

/-! ## The maintenance operations -/

/-- The end of a cycle: the accumulator restarts and the epoch is marked. -/
def settle (s : MemSubstrate) : MemSubstrate :=
  { s with impAccum := 0, lastConsolidatedEpoch := s.clock, backing := s.backing.flush }

def consolidationCycle (s : MemSubstrate) : Nat × MemSubstrate :=
  let distilled := s.distill
  let reflected := distilled.2.reflectInner 0
  let swept := reflected.2.forgetSweep
  (distilled.1 + (if reflected.1.isSome then 1 else 0) + swept.1, swept.2.settle)

/-- Op 0: record `a` dies in both tiers. -/
def tombstone (s : MemSubstrate) (a : BitVec 64) : Nat × MemSubstrate :=
  let hit (r : MemRecord) : Bool := r.id == a && r.tInvalid == 0
  let n := s.t3.records.countP hit
  let s := s.withRecords
    (s.t3.records.map fun r => if hit r then r.invalidate s.clock else r)
  let s := s.withLog (s.t2.log.map fun (e : Episode) =>
    if e.id == a && e.tInvalid == 0 then e.invalidate s.clock else e)
  (n, { s with backing := s.backing.flush }.tick)

/-- Op 1: a typed edge from `a` to `b`. -/
def link (s : MemSubstrate) (a b c : BitVec 64) : Nat × MemSubstrate :=
  let n := if s.t3.records.any fun r => r.id == a then 1 else 0
  (n, s.withRecords (s.t3.records.replaceF fun r =>
    if r.id == a then some (r.linked [(UInt8.ofNat c.toNat, b)]) else none))

def consolidate (s : MemSubstrate) (op a b c : BitVec 64) : BitVec 64 × MemSubstrate :=
  match op.toNat with
  | 0 => let (n, s) := s.tombstone a; (BitVec.ofNat 64 n, s)
  | 1 => let (n, s) := s.link a b c; (BitVec.ofNat 64 n, s)
  | 2 => (0, { s with t1 := s.t1.gc })
  | 3 => let (n, s) := s.consolidationCycle; (BitVec.ofNat 64 n, s)
  | 4 => let (insight, s) := s.reflectInner a; (insight.getD 0, s)
  | 5 => let (n, s) := s.forgetSweep; (BitVec.ofNat 64 n, s)
  | 6 => (s.reflectDigest, s)
  | 7 => (BitVec.ofNat 64 s.impAccum, s)
  | 8 =>
      match s.t3.records.find? fun r => r.id == a with
      | some r => (BitVec.ofNat 64 r.links.length, s)
      | none => (0, s)
  | _ => (0, s)

/-! ## Skills -/

def skillIdx (s : MemSubstrate) (id : BitVec 64) : Option Nat :=
  s.t4.skills.findIdx? fun k => k.id == id

def withSkills (s : MemSubstrate) (skills : List SkillRecord) : MemSubstrate :=
  { s with t4 := { s.t4 with skills := skills } }

/-- A proposed skill, charged to the same quota as the records. -/
def skillAddClass (s : MemSubstrate) (body desc packed : BitVec 64) (prov : UInt8) :
    Option (BitVec 64) × MemSubstrate :=
  if satU 64 (s.quota.tokensWritten + 1) > TOKEN_QUOTA then (none, s)
  else
    let id := s.t4.nextId
    let skill : SkillRecord :=
      { id := id, bodyTok := body, descTok := desc, ifaceTok := packed &&& 0xFFFFFFFF
        embedding := packed >>> 32, cSucc := 0, cUse := 0, util := 0, lineage := []
        tier := .proposed, provenance := prov }
    let s := { s with
      t4 := { s.t4 with skills := s.t4.skills ++ [skill], nextId := s.t4.nextId + 1 }
      quota := { s.quota with tokensWritten := satU 64 (s.quota.tokensWritten + 1) } }
    let s := s.tick
    (some id, (s.ledgerAppend Prov.Kind.SKILL_ADMIT body prov id s.parentOfHead).2)

def skillAdd (s : MemSubstrate) (body desc packed : BitVec 64) : Option (BitVec 64) × MemSubstrate :=
  s.skillAddClass body desc packed 0

def skillAddExt (s : MemSubstrate) (body desc packed : BitVec 64) :
    Option (BitVec 64) × MemSubstrate :=
  s.skillAddClass body desc packed SKILL_PROV_EMIT_EXTERNAL

/-- The utility the source computes as `i64`, floors at zero and casts to `u32`. -/
def utilityOf (z : Int) : Nat := wrapU 32 (max z 0).toNat

def bumped (reward : BitVec 64) (k : SkillRecord) : SkillRecord :=
  let cUse := satU 32 (k.cUse + 1)
  let cSucc := if reward ≠ 0 then satU 32 (k.cSucc + 1) else k.cSucc
  { k with
    cUse := cUse
    cSucc := cSucc
    util := utilityOf ((((cSucc : Int) + 1) * SCALE).tdiv ((cUse : Int) + 2)) }

def skillBumpUtil (s : MemSubstrate) (id reward : BitVec 64) : Option (BitVec 64) × MemSubstrate :=
  match s.skillIdx id with
  | none => (none, s)
  | some i =>
      let s := s.withSkills (s.t4.skills.modify i (bumped reward))
      (some (BitVec.ofNat 64 s.t4.skills[i]!.util), s.tick)

def skillReadBody (s : MemSubstrate) (id : BitVec 64) : Option (BitVec 64) :=
  (s.skillIdx id).map fun i => s.t4.skills[i]!.bodyTok

def skillReadTier (s : MemSubstrate) (id : BitVec 64) : Option (BitVec 64) :=
  (s.skillIdx id).map fun i => BitVec.ofNat 64 s.t4.skills[i]!.tier.byte.toNat

def skillLink (s : MemSubstrate) (id parent : BitVec 64) : Option (BitVec 64) × MemSubstrate :=
  match s.skillIdx id with
  | none => (none, s)
  | some i =>
      let s := s.withSkills
        (s.t4.skills.modify i fun k => { k with lineage := k.lineage ++ [parent] })
      (some (BitVec.ofNat 64 s.t4.skills[i]!.lineage.length), s.tick)

def writeProc (s : MemSubstrate) (op a b c : BitVec 64) : Option (BitVec 64) × MemSubstrate :=
  match op.toNat with
  | 0 => s.skillAdd a b c
  | 1 => s.skillBumpUtil a b
  | 2 => (s.skillReadBody a, s)
  | 3 => s.skillLink a b
  | 4 => (s.skillReadTier a, s)
  | 5 => s.skillAddExt a b c
  | _ => (some 0, s)

def skillIsHighImpact (s : MemSubstrate) (id : BitVec 64) : Option Bool :=
  (s.skillIdx id).map fun i => s.t4.skills[i]!.highImpact

/-- The body and the tier of a skill, for the harness. -/
def skillGet (s : MemSubstrate) (id : BitVec 64) : Option (BitVec 64 × SkillTier) :=
  (s.skillIdx id).map fun i => (s.t4.skills[i]!.bodyTok, s.t4.skills[i]!.tier)

/-- The share of the live episodes a body reproduces, in thousandths. -/
def scoreCandidate (s : MemSubstrate) (body : BitVec 64) : BitVec 32 :=
  let live := s.t2.log.filter fun e => e.tInvalid == 0
  let hit := live.countP fun e => skillTransform body e.contentTok == e.value
  if live.length = 0 then 0 else BitVec.ofInt 32 ((hit * SCALE).tdiv live.length)

/-- The harness's verdict: admitted when the score beats every admitted one. -/
def skillAdmit (s : MemSubstrate) (id : BitVec 64) (score : BitVec 32) : Bool × MemSubstrate :=
  match s.skillIdx id with
  | none => (false, s)
  | some i =>
      let s := s.tick
      if score > s.t4.bestScore then
        let s := s.withSkills (s.t4.skills.modify i fun k =>
          { k with
            tier := .admitted
            cUse := satU 32 (k.cUse + 1)
            cSucc := satU 32 (k.cSucc + 1)
            util := utilityOf (k.util + ((score.toNat : Int) - k.util).tdiv UTIL_ALPHA_DIV)
            lineage := k.lineage ++ [score.setWidth 64] })
        (true, { s with t4 := { s.t4 with bestScore := score } })
      else (false, s.withSkills
        (s.t4.skills.modify i fun k => { k with lineage := k.lineage ++ [0] }))

/-- The `k`-th held-out input. -/
def heldoutInput (base : BitVec 64) (k : Nat) : BitVec 64 :=
  (base + BitVec.ofNat 64 k) * 0x100001 + 0x51

/-- `n` held-out episodes, as far as the quota reaches. -/
def seedHeldout (s : MemSubstrate) (target base n : BitVec 64) : MemSubstrate :=
  (List.range n.toNat).foldl (fun s k =>
    let input := heldoutInput base k
    (s.pushRecord input (skillTransform target input) 5 .episodic []).2) s

/-! ## Runs -/

/-- Everything that can change a substrate: the five dispatched methods, the
frozen-domain seeding, and the harness's own calls. -/
inductive Op where
  | write (op key value packed : BitVec 64)
  | readTouch (id : BitVec 64)
  | tbRecall (query cursor k weights : BitVec 64)
  | consolidate (op a b c : BitVec 64)
  | writeProc (op a b c : BitVec 64)
  | seedHeldout (target base n : BitVec 64)
  | skillAdmit (id : BitVec 64) (score : BitVec 32)
  | corpusEmitOperatorTurn (contentTok auxTok : BitVec 64) (verdict : UInt8)
  | corpusEmitLabeledOutcome (decisionId : BitVec 64) (outcome : Corpus.OutcomeLabel)

def step (s : MemSubstrate) : Op → MemSubstrate
  | .write op key value packed => (s.write op key value packed).2
  | .readTouch id => (s.readTouch id).2
  | .tbRecall query cursor k weights => (s.tbRecall query cursor k weights).2
  | .consolidate op a b c => (s.consolidate op a b c).2
  | .writeProc op a b c => (s.writeProc op a b c).2
  | .seedHeldout target base n => s.seedHeldout target base n
  | .skillAdmit id score => (s.skillAdmit id score).2
  | .corpusEmitOperatorTurn contentTok auxTok verdict => s.corpusEmitOperatorTurn contentTok auxTok verdict
  | .corpusEmitLabeledOutcome decisionId outcome => s.corpusEmitLabeledOutcome decisionId outcome

end MemSubstrate

end Yuva.Mem
