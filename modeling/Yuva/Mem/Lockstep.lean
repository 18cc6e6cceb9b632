/-
# `Yuva.Mem.Lockstep` — the memory is an append-only journal

Four structures say what was written: the T2 log, the T3 records, the inverted
index and the counters.  A dozen operations edit some of them.  What they are for
is a `Journal`: a list of entries that only grows, with a charge that covers it
and stays within the quota.  `Mirrors s j` says that all four structures of the
substrate `s` are read off the journal `j`.

    an edit that keeps ids, tokens, values and ticks keeps the spine        (`spine_*`)
    a substrate with the same spine mirrors the same journal                (`Grows.of_spine`)
    a record is appended to all four structures or to none                  (`pushRecord_cases`)
    every operation takes a mirror of `j` to a mirror of an extension of it (`step_grows`)

The run theorem reads the invariant off the journal.
-/
import Yuva.Lib.Run
import Yuva.Lib.Update
import Yuva.Mem.Organ

namespace Yuva.Mem

open Yuva.Machine Yuva.Run MemSubstrate

/-! ## The journal -/

/-- What one write leaves behind for good. -/
structure Entry where
  token : BitVec 64
  value : BitVec 64
  tick : BitVec 64
  deriving DecidableEq

/-- The entries in order of writing, and what has been charged to the quota for
them and for the skills. -/
structure Journal where
  entries : List Entry
  charged : Nat
  covered : entries.length ≤ charged
  within : charged ≤ TOKEN_QUOTA

namespace Journal

def empty : Journal := ⟨[], 0, Nat.le_refl 0, Nat.zero_le _⟩

def push (j : Journal) (e : Entry) (h : j.charged < TOKEN_QUOTA) : Journal where
  entries := j.entries ++ [e]
  charged := j.charged + 1
  covered := by
    rw [List.length_append, List.length_singleton]
    exact Nat.succ_le_succ j.covered
  within := h

/-- A charge with no entry: a skill was added. -/
def charge (j : Journal) (h : j.charged < TOKEN_QUOTA) : Journal :=
  ⟨j.entries, j.charged + 1, Nat.le_succ_of_le j.covered, h⟩

/-- Where a token was written, in order. -/
def positions (j : Journal) (tok : BitVec 64) : List Nat := j.entries.findIdxs fun e => e.token == tok

/-- The posting list of a token; a token never written has none. -/
def index (j : Journal) (tok : BitVec 64) : Option (List Nat) :=
  if j.positions tok = [] then none else some (j.positions tok)

theorem length_lt (j : Journal) : j.entries.length < 2 ^ 32 := by
  have hc := j.covered
  have hw := j.within
  rw [TOKEN_QUOTA] at hw
  omega

theorem positions_push {j : Journal} {e : Entry} {h : j.charged < TOKEN_QUOTA} (tok : BitVec 64) :
    (j.push e h).positions tok =
      j.positions tok ++ (if e.token = tok then [j.entries.length] else []) := by
  rw [positions, positions, push, List.findIdxs_append, List.findIdxs_singleton, Nat.zero_add]
  simp only [beq_iff_eq]

theorem index_push {j : Journal} {e : Entry} {h : j.charged < TOKEN_QUOTA} (tok : BitVec 64) :
    (j.push e h).index tok =
      if e.token = tok then some ((j.index tok).getD [] ++ [j.entries.length]) else j.index tok := by
  rw [index, positions_push]
  by_cases he : e.token = tok
  · have hd : (j.index tok).getD [] = j.positions tok := by
      rw [index]
      split
      · next hnil => rw [Option.getD_none, hnil]
      · rfl
    rw [if_pos he, if_pos he, hd, if_neg (by simp)]
  · rw [if_neg he, if_neg he, List.append_nil, index]

end Journal

/-! ## The spine of a substrate -/

def Episode.entry (e : Episode) : Entry := ⟨e.contentTok, e.value, e.tCreated⟩

/-- What no edit of an episode may touch. -/
def Episode.key (e : Episode) : BitVec 64 × Entry := (e.id, e.entry)

def MemRecord.key (r : MemRecord) : BitVec 64 × BitVec 64 × BitVec 64 := (r.id, r.token, r.tCreated)

/-- The part of the substrate the journal determines. -/
structure Spine where
  log : List (BitVec 64 × Entry)
  nextId : BitVec 64
  records : List (BitVec 64 × BitVec 64 × BitVec 64)
  lexical : Std.TreeMap (BitVec 64) (List Nat)
  numDocs : Nat
  tokensWritten : Nat

def spine (s : MemSubstrate) : Spine :=
  ⟨s.t2.log.map Episode.key, s.t2.nextId, s.t3.records.map MemRecord.key, s.t3.lexical,
    s.t3.numDocs, s.quota.tokensWritten⟩

structure Mirrors (s : MemSubstrate) (j : Journal) : Prop where
  log : (spine s).log = j.entries.mapIdx fun i e => (BitVec.ofNat 64 i, e)
  nextId : (spine s).nextId = BitVec.ofNat 64 j.entries.length
  records : (spine s).records = j.entries.mapIdx fun i e => (BitVec.ofNat 64 i, e.token, e.tick)
  lexical : ∀ tok : BitVec 64, (spine s).lexical[tok]? = j.index tok
  numDocs : (spine s).numDocs = j.entries.length
  tokensWritten : (spine s).tokensWritten = j.charged

theorem mirrors_new : Mirrors new Journal.empty where
  log := rfl
  nextId := rfl
  records := rfl
  lexical _ := rfl
  numDocs := rfl
  tokensWritten := rfl

/-- Whatever journal `s` mirrors, `s'` mirrors an extension of it. -/
def Grows (s s' : MemSubstrate) : Prop :=
  ∀ j, Mirrors s j → ∃ j', j.entries <+: j'.entries ∧ Mirrors s' j'

theorem Grows.refl (s : MemSubstrate) : Grows s s := fun j h => ⟨j, List.prefix_refl _, h⟩

theorem Grows.trans {s s' s'' : MemSubstrate} (h : Grows s s') (h' : Grows s' s'') : Grows s s'' := by
  intro j hj
  obtain ⟨j', hp, hj'⟩ := h j hj
  obtain ⟨j'', hp', hj''⟩ := h' j' hj'
  exact ⟨j'', hp.trans hp', hj''⟩

theorem Mirrors.of_spine {s s' : MemSubstrate} {j : Journal} (h : spine s' = spine s)
    (hj : Mirrors s j) : Mirrors s' j := by
  obtain ⟨h1, h2, h3, h4, h5, h6⟩ := hj
  exact ⟨h ▸ h1, h ▸ h2, h ▸ h3, h ▸ h4, h ▸ h5, h ▸ h6⟩

theorem Grows.of_spine {s s' : MemSubstrate} (h : spine s' = spine s) : Grows s s' :=
  fun j hj => ⟨j, List.prefix_refl _, hj.of_spine h⟩

/-! ## Edits that keep the spine -/

theorem spine_tick (s : MemSubstrate) : spine s.tick = spine s := rfl

theorem spine_remember (s : MemSubstrate) (query wid : BitVec 64) :
    spine (s.remember query wid) = spine s := rfl

theorem spine_accrue (s : MemSubstrate) (imp : Nat) : spine (s.accrue imp) = spine s := rfl

theorem spine_settle (s : MemSubstrate) : spine s.settle = spine s := rfl

theorem spine_withRecords {s : MemSubstrate} {records : List MemRecord}
    (h : records.map MemRecord.key = s.t3.records.map MemRecord.key) :
    spine (s.withRecords records) = spine s := by
  simp only [spine, withRecords, h]

theorem spine_withLog {s : MemSubstrate} {log : List Episode}
    (h : log.map Episode.key = s.t2.log.map Episode.key) : spine (s.withLog log) = spine s := by
  simp only [spine, withLog, h]

theorem spine_ledgerAppend (s : MemSubstrate) (kind : UInt8) (tok : BitVec 64) (tier : UInt8)
    (writer : BitVec 64) (parents : List Hash.Bytes32) :
    spine (s.ledgerAppend kind tok tier writer parents).2 = spine s := by
  rw [ledgerAppend]
  split <;> rfl

theorem spine_xpRecord (s : MemSubstrate) (r : Exp.ExperienceRecord) :
    spine (s.xpRecord r).2 = spine s := by
  rw [xpRecord]
  dsimp only
  split <;> rfl

theorem spine_corpusEmit (s : MemSubstrate) (kind stream verdict : UInt8) (tok aux : BitVec 64)
    (outcome : Corpus.OutcomeLabel) : spine (s.corpusEmit kind stream verdict tok aux outcome) = spine s := by
  rw [corpusEmit]
  dsimp only
  split
  · rfl
  · split <;> rfl

section Keys

variable (clock : BitVec 64) (edges : List (UInt8 × BitVec 64)) (r : MemRecord)

theorem key_episode (e : Episode) : (e.invalidate clock).key = e.key := rfl
theorem key_invalidate : (r.invalidate clock).key = r.key := rfl
theorem key_accessed : (r.accessed clock).key = r.key := rfl
theorem key_linked : (r.linked edges).key = r.key := rfl
theorem key_demote : r.demote.key = r.key := rfl
theorem key_asDistilled : r.asDistilled.key = r.key := rfl
theorem key_strengthen : r.strengthen.key = r.key := rfl

end Keys

theorem spine_delete (s : MemSubstrate) (key : BitVec 64) : spine (s.delete key).2 = spine s := by
  have hrecords : spine (s.withRecords (s.t3.records.reverse.replaceF fun r =>
      if r.token == key && r.tInvalid == 0 then some (r.invalidate s.clock) else none).reverse) =
      spine s := by
    apply spine_withRecords
    rw [List.map_reverse, Update.map_replaceF (key_invalidate s.clock), List.map_reverse,
      List.reverse_reverse]
  rw [delete]
  dsimp only
  split
  · exact hrecords
  · exact Eq.trans (spine_withLog (Update.map_map_ite (key_episode s.clock) _)) hrecords

theorem spine_readTouch (s : MemSubstrate) (id : BitVec 64) : spine (s.readTouch id).2 = spine s := by
  rw [readTouch]
  split
  · rfl
  · exact spine_xpRecord s _

theorem spine_serve (s : MemSubstrate) (query : BitVec 64) (widx : Nat) :
    spine (s.serve query widx).2 = spine s := by
  rw [serve]
  dsimp only
  rw [spine_tick, spine_xpRecord, spine_remember]
  exact spine_withRecords (Update.map_modify (key_accessed s.clock) _ _)

theorem spine_retrieve (s : MemSubstrate) (query : BitVec 64) : spine (s.retrieve query).2 = spine s := by
  rw [retrieve]
  split
  · rfl
  · dsimp only
    split
    · rfl
    · exact spine_serve s query _

theorem spine_tbRecall (s : MemSubstrate) (query cursor k weights : BitVec 64) :
    spine (s.tbRecall query cursor k weights).2 = spine s := by
  refine (spine_retrieve _ query).trans ?_
  split <;> rfl

theorem spine_mergeLoser (surv : Nat) (s : MemSubstrate) (loser : Nat) :
    spine (mergeLoser surv s loser) = spine s := by
  apply spine_withRecords
  rw [Update.map_modify (key_linked _), Update.map_modify (key_invalidate s.clock)]

theorem spine_mergeCluster (s : MemSubstrate) (c : Nat × List Nat) :
    spine (mergeCluster s c) = spine s := by
  refine (spine_corpusEmit _ _ _ _ _ _ _).trans ?_
  refine (spine_withRecords (Update.map_modify key_asDistilled _ _)).trans ?_
  exact Update.foldl_keeps (spine_mergeLoser c.1) c.2 s

theorem spine_distill (s : MemSubstrate) : spine s.distill.2 = spine s := by
  have hplan : spine (s.distillPlan.foldl mergeCluster s) = spine s :=
    Update.foldl_keeps spine_mergeCluster s.distillPlan s
  rw [distill]
  dsimp only
  split <;> exact hplan

theorem spine_observe (s : MemSubstrate) : ∀ obs : Option Exp.ExperienceRecord,
    spine (s.observe obs) = spine s
  | none => rfl
  | some r => spine_xpRecord s r

theorem spine_sweepOne (s : MemSubstrate) (idx : Nat) : spine (s.sweepOne idx).2 = spine s := by
  rw [sweepOne]
  dsimp only
  split
  · refine (spine_ledgerAppend _ _ _ _ _ _).trans ?_
    exact (spine_withRecords (Update.map_modify key_demote _ _)).trans (spine_observe s _)
  · exact spine_observe s _

theorem spine_sweepLoop (len budget idx n : Nat) (s : MemSubstrate) :
    spine (sweepLoop len budget idx n s).2 = spine s := by
  induction budget generalizing idx n s with
  | zero => rfl
  | succ budget ih => exact (ih _ _ _).trans (spine_sweepOne s idx)

theorem spine_forgetSweep (s : MemSubstrate) : spine s.forgetSweep.2 = spine s := by
  rw [forgetSweep]
  dsimp only
  split
  · rfl
  · exact spine_sweepLoop _ _ _ _ s

theorem spine_tombstone (s : MemSubstrate) (a : BitVec 64) : spine (s.tombstone a).2 = spine s := by
  refine (spine_withLog (Update.map_map_ite (key_episode s.clock) _)).trans ?_
  exact spine_withRecords (Update.map_map_ite (key_invalidate s.clock) _)

theorem spine_link (s : MemSubstrate) (a b c : BitVec 64) : spine (s.link a b c).2 = spine s :=
  spine_withRecords (Update.map_replaceF (key_linked _) _)

theorem map_key_strengthenCited (records : List MemRecord) (cid : BitVec 64) :
    (strengthenCited records cid).map MemRecord.key = records.map MemRecord.key :=
  Update.map_replaceF key_strengthen _

/-! ## Appending a record -/

/-- Below the quota the counter is exact, so the check is the one it reads as. -/
theorem Mirrors.charge_iff {s : MemSubstrate} {j : Journal} (h : Mirrors s j) :
    satU 64 (s.quota.tokensWritten + 1) = j.charged + 1 ∧
      (satU 64 (s.quota.tokensWritten + 1) > TOKEN_QUOTA ↔ ¬ j.charged < TOKEN_QUOTA) := by
  have hw := j.within
  have htw : s.quota.tokensWritten = j.charged := h.tokensWritten
  have hsat : satU 64 (s.quota.tokensWritten + 1) = j.charged + 1 := by
    rw [htw]
    apply satU_of_lt
    rw [TOKEN_QUOTA] at hw
    omega
  exact ⟨hsat, by omega⟩

theorem getElem?_alter_postings (lexical : Std.TreeMap (BitVec 64) (List Nat)) (token : BitVec 64)
    (ridx : Nat) (tok : BitVec 64) :
    (lexical.alter token fun postings => some (postings.getD [] ++ [ridx]))[tok]? =
      if token = tok then some (lexical[tok]?.getD [] ++ [ridx]) else lexical[tok]? := by
  rw [Std.TreeMap.getElem?_alter]
  by_cases h : token = tok
  · subst h
    rw [if_pos Std.ReflCmp.compare_self, if_pos rfl]
  · rw [if_neg (fun hc => h (Std.LawfulEqCmp.eq_of_compare hc)), if_neg h]

theorem spine_appendRecord (s : MemSubstrate) (token value : BitVec 64) (importance : Nat)
    (provenance : Provenance) (links : List (UInt8 × BitVec 64)) :
    spine (s.appendRecord token value importance provenance links) =
      { log := (spine s).log ++ [(s.t2.nextId, ⟨token, value, s.clock⟩)]
        nextId := s.t2.nextId + 1
        records := (spine s).records ++ [(s.t2.nextId, token, s.clock)]
        lexical := s.t3.lexical.alter token fun postings =>
          some (postings.getD [] ++ [wrapU 32 s.t3.records.length])
        numDocs := satU 32 (s.t3.numDocs + 1)
        tokensWritten := satU 64 (s.quota.tokensWritten + 1) } := by
  simp only [spine, appendRecord, List.map_append, List.map_cons, List.map_nil]
  rfl

theorem Mirrors.length_log {s : MemSubstrate} {j : Journal} (h : Mirrors s j) :
    s.t2.log.length = j.entries.length := by
  have hlog := congrArg List.length h.log
  rwa [List.length_mapIdx, spine, List.length_map] at hlog

theorem Mirrors.length_records {s : MemSubstrate} {j : Journal} (h : Mirrors s j) :
    s.t3.records.length = j.entries.length := by
  have hrecords := congrArg List.length h.records
  rwa [List.length_mapIdx, spine, List.length_map] at hrecords

/-- A record within the quota reaches all four structures. -/
theorem appendRecord_mirrors {s : MemSubstrate} {j : Journal} (hj : Mirrors s j)
    (hq : j.charged < TOKEN_QUOTA) (token value : BitVec 64) (importance : Nat)
    (provenance : Provenance) (links : List (UInt8 × BitVec 64)) :
    Mirrors (s.appendRecord token value importance provenance links)
      (j.push ⟨token, value, s.clock⟩ hq) := by
  have hlt := j.length_lt
  have hid : s.t2.nextId = BitVec.ofNat 64 j.entries.length := hj.nextId
  have hlex : ∀ tok : BitVec 64, s.t3.lexical[tok]? = j.index tok := hj.lexical
  have hdocs : s.t3.numDocs = j.entries.length := hj.numDocs
  constructor
  · rw [spine_appendRecord, Journal.push, List.mapIdx_concat, hj.log, hid]
  · rw [spine_appendRecord, Journal.push, List.length_append, List.length_singleton,
      BitVec.ofNat_add, hid]
    rfl
  · rw [spine_appendRecord, Journal.push, List.mapIdx_concat, hj.records, hid]
  · intro tok
    rw [spine_appendRecord, getElem?_alter_postings, Journal.index_push, hlex, hj.length_records,
      wrapU_of_lt hlt]
  · have hsucc : j.entries.length + 1 < 2 ^ 32 := by
      have hc := j.covered
      rw [TOKEN_QUOTA] at hq
      omega
    rw [spine_appendRecord, Journal.push, List.length_append, List.length_singleton, hdocs,
      satU_of_lt hsucc]
  · rw [spine_appendRecord, Journal.push, hj.charge_iff.1]

/-- Within the quota the new id is the number of records before it; past the
quota nothing changes. -/
theorem pushRecord_cases {s : MemSubstrate} {j : Journal} (hj : Mirrors s j) (token value : BitVec 64)
    (importance : Nat) (provenance : Provenance) (links : List (UInt8 × BitVec 64)) :
    (∃ hq : j.charged < TOKEN_QUOTA,
      (s.pushRecord token value importance provenance links).1 =
        some (BitVec.ofNat 64 j.entries.length) ∧
      Mirrors (s.pushRecord token value importance provenance links).2
        (j.push ⟨token, value, s.clock⟩ hq)) ∨
    s.pushRecord token value importance provenance links = (none, s) := by
  rw [pushRecord]
  split
  · exact Or.inr rfl
  · next hover =>
      have hq : j.charged < TOKEN_QUOTA := not_not.mp fun h => hover (hj.charge_iff.2.mpr h)
      exact Or.inl ⟨hq, congrArg some hj.nextId, appendRecord_mirrors hj hq _ _ _ _ _⟩

theorem pushRecord_grows (s : MemSubstrate) (token value : BitVec 64) (importance : Nat)
    (provenance : Provenance) (links : List (UInt8 × BitVec 64)) :
    Grows s (s.pushRecord token value importance provenance links).2 := by
  intro j hj
  rcases pushRecord_cases hj token value importance provenance links with ⟨hq, -, h⟩ | h
  · exact ⟨_, List.prefix_append _ _, h⟩
  · rw [h]
    exact Grows.refl s j hj

/-! ## Every operation extends the journal -/

theorem add_grows (s : MemSubstrate) (key value packed : BitVec 64) :
    Grows s (s.add key value packed).2 := by
  have haccrue : ∀ imp, Grows s (s.accrue imp) := fun imp => Grows.of_spine (spine_accrue s imp)
  exact (haccrue _).trans (pushRecord_grows _ key value _ .episodic [])

theorem write_grows (s : MemSubstrate) (op key value packed : BitVec 64) :
    Grows s (s.write op key value packed).2 := by
  have hstore : Grows s (if op = 0 ∨ op = 1 then s.add key value packed
      else if op = 2 then s.delete key else (some 0, s)).2 := by
    split
    · exact add_grows s key value packed
    · split
      · exact Grows.of_spine (spine_delete s key)
      · exact Grows.refl s
  rw [write]
  dsimp only
  split
  · exact hstore
  · split
    · exact hstore.trans (Grows.of_spine (spine_ledgerAppend _ _ _ _ _ _))
    · exact hstore

theorem reflectInner_grows (s : MemSubstrate) (modelToken : BitVec 64) :
    Grows s (s.reflectInner modelToken).2 := by
  rw [reflectInner]
  dsimp only
  split
  · exact Grows.refl s
  · have hpush : ∀ token links, Grows s (s.pushRecord token token REFLECT_IMP .insight links).2 :=
      fun token links => pushRecord_grows s token token REFLECT_IMP .insight links
    split
    · next hp => exact (congrArg Prod.snd hp) ▸ hpush _ _
    · next hp =>
        refine ((congrArg Prod.snd hp) ▸ hpush _ _).trans (Grows.of_spine ?_)
        refine (spine_corpusEmit _ _ _ _ _ _ _).trans (spine_withRecords ?_)
        exact Update.foldl_keeps map_key_strengthenCited _ _

theorem consolidationCycle_grows (s : MemSubstrate) : Grows s s.consolidationCycle.2 := by
  have hdistill : Grows s s.distill.2 := Grows.of_spine (spine_distill s)
  have hreflect := hdistill.trans (reflectInner_grows s.distill.2 0)
  have hsweep := hreflect.trans (Grows.of_spine (spine_forgetSweep (s.distill.2.reflectInner 0).2))
  exact hsweep.trans (Grows.of_spine (spine_settle _))

theorem consolidate_grows (s : MemSubstrate) (op a b c : BitVec 64) :
    Grows s (s.consolidate op a b c).2 := by
  rw [consolidate]
  split
  · exact Grows.of_spine (spine_tombstone s a)
  · exact Grows.of_spine (spine_link s a b c)
  · exact Grows.of_spine rfl
  · exact consolidationCycle_grows s
  · exact reflectInner_grows s a
  · exact Grows.of_spine (spine_forgetSweep s)
  · exact Grows.refl s
  · exact Grows.refl s
  · split <;> exact Grows.refl s
  · exact Grows.refl s

/-- A skill charges the quota and leaves the journal's entries alone. -/
theorem skillAddClass_grows (s : MemSubstrate) (body desc packed : BitVec 64) (prov : UInt8) :
    Grows s (s.skillAddClass body desc packed prov).2 := by
  intro j hj
  rw [skillAddClass]
  split
  · exact Grows.refl s j hj
  · next hover =>
      have hq : j.charged < TOKEN_QUOTA := not_not.mp fun h => hover (hj.charge_iff.2.mpr h)
      refine ⟨j.charge hq, List.prefix_refl _, Mirrors.of_spine (spine_ledgerAppend _ _ _ _ _ _) ?_⟩
      exact ⟨hj.log, hj.nextId, hj.records, hj.lexical, hj.numDocs, hj.charge_iff.1⟩

theorem skillBumpUtil_grows (s : MemSubstrate) (id reward : BitVec 64) :
    Grows s (s.skillBumpUtil id reward).2 := by
  rw [skillBumpUtil]
  split
  · exact Grows.refl s
  · exact Grows.of_spine rfl

theorem skillLink_grows (s : MemSubstrate) (id parent : BitVec 64) :
    Grows s (s.skillLink id parent).2 := by
  rw [skillLink]
  split
  · exact Grows.refl s
  · exact Grows.of_spine rfl

theorem writeProc_grows (s : MemSubstrate) (op a b c : BitVec 64) :
    Grows s (s.writeProc op a b c).2 := by
  rw [writeProc]
  split
  · exact skillAddClass_grows s a b c 0
  · exact skillBumpUtil_grows s a b
  · exact Grows.refl s
  · exact skillLink_grows s a b
  · exact Grows.refl s
  · exact skillAddClass_grows s a b c SKILL_PROV_EMIT_EXTERNAL
  · exact Grows.refl s

theorem skillAdmit_grows (s : MemSubstrate) (id : BitVec 64) (score : BitVec 32) :
    Grows s (s.skillAdmit id score).2 := by
  rw [skillAdmit]
  split
  · exact Grows.refl s
  · dsimp only
    split <;> exact Grows.of_spine rfl

theorem seedHeldout_grows (s : MemSubstrate) (target base n : BitVec 64) :
    Grows s (s.seedHeldout target base n) := by
  rw [seedHeldout]
  induction List.range n.toNat generalizing s with
  | nil => exact Grows.refl s
  | cons k ks ih =>
      rw [List.foldl_cons]
      exact (pushRecord_grows s _ _ 5 .episodic []).trans (ih _)

theorem step_grows (s : MemSubstrate) (op : Op) : Grows s (step s op) := by
  cases op with
  | write op key value packed => exact write_grows s op key value packed
  | readTouch id => exact Grows.of_spine (spine_readTouch s id)
  | tbRecall query cursor k weights => exact Grows.of_spine (spine_tbRecall s query cursor k weights)
  | consolidate op a b c => exact consolidate_grows s op a b c
  | writeProc op a b c => exact writeProc_grows s op a b c
  | seedHeldout target base n => exact seedHeldout_grows s target base n
  | skillAdmit id score => exact skillAdmit_grows s id score
  | corpusEmitOperatorTurn tok aux verdict =>
      exact Grows.of_spine (spine_corpusEmit s _ _ _ tok aux _)
  | corpusEmitLabeledOutcome decisionId outcome =>
      exact Grows.of_spine (spine_corpusEmit s _ _ _ decisionId 0 outcome)

/-- A whole run extends the journal. -/
theorem run_grows (ops : List Op) (s : MemSubstrate) : Grows s (exec step s ops) :=
  exec_rel (P := fun _ => True) Grows.refl Grows.trans (fun _ _ _ => trivial)
    (fun s op _ => step_grows s op) ops trivial

/-! ## What the journal says of the substrate -/

section Mirrors

variable {s : MemSubstrate} {j : Journal}

theorem Mirrors.episode (h : Mirrors s j) {i : Nat} {e : Episode} (he : s.t2.log[i]? = some e) :
    e.id = BitVec.ofNat 64 i ∧ j.entries[i]? = some e.entry := by
  have hi := congrArg (fun l => l[i]?) h.log
  simp only [spine, List.getElem?_map, he, Option.map_some, List.getElem?_mapIdx] at hi
  obtain ⟨x, hx, hxe⟩ := Option.map_eq_some_iff.mp hi.symm
  obtain ⟨hid, hentry⟩ := Prod.mk.inj hxe
  exact ⟨hid.symm, hentry ▸ hx⟩

theorem Mirrors.record (h : Mirrors s j) {i : Nat} {r : MemRecord} (hr : s.t3.records[i]? = some r) :
    r.id = BitVec.ofNat 64 i ∧ ∃ x, j.entries[i]? = some x ∧ x.token = r.token := by
  have hi := congrArg (fun l => l[i]?) h.records
  simp only [spine, List.getElem?_map, hr, Option.map_some, List.getElem?_mapIdx] at hi
  obtain ⟨x, hx, hxr⟩ := Option.map_eq_some_iff.mp hi.symm
  obtain ⟨hid, hrest⟩ := Prod.mk.inj hxr
  exact ⟨hid.symm, x, hx, (Prod.mk.inj hrest).1⟩

/-- An id is a position: no counter has wrapped. -/
theorem Journal.toNat_id (j : Journal) {i : Nat} {x : Entry} (hx : j.entries[i]? = some x) :
    (BitVec.ofNat 64 i).toNat = i := by
  have hi := (List.getElem?_eq_some_iff.mp hx).1
  have hlt := j.length_lt
  rw [BitVec.toNat_ofNat]
  omega

theorem Mirrors.mem_index (h : Mirrors s j) (tok : BitVec 64) (i : Nat) :
    (∃ ps, s.t3.lexical[tok]? = some ps ∧ i ∈ ps) ↔ i ∈ j.positions tok := by
  have hlex : s.t3.lexical[tok]? = j.index tok := h.lexical tok
  rw [hlex, Journal.index]
  split
  · next hnil => simp [hnil]
  · simp

theorem Mirrors.read (h : Mirrors s j) (id : BitVec 64) :
    s.read id = (j.entries[id.toNat]?).map Entry.value := by
  cases hx : j.entries[id.toNat]? with
  | none =>
      have hnone : s.t2.log.find? (fun e => e.id == id) = none := by
        rw [List.find?_eq_none]
        intro e he heq
        obtain ⟨i, hi⟩ := List.getElem?_of_mem he
        obtain ⟨hid, hentry⟩ := h.episode hi
        have hpos : id.toNat = i := by
          rw [← beq_iff_eq.mp heq, hid, j.toNat_id hentry]
        rw [hpos, hentry] at hx
        cases hx
      rw [MemSubstrate.read, hnone]
      rfl
  | some x =>
      have hlt : id.toNat < s.t2.log.length := by
        rw [h.length_log]
        exact (List.getElem?_eq_some_iff.mp hx).1
      obtain ⟨hid, hentry⟩ := h.episode (List.getElem?_eq_getElem hlt)
      have hfound : s.t2.log.find? (fun e => e.id == id) = some s.t2.log[id.toNat] := by
        rw [List.find?_eq_some_iff_getElem]
        refine ⟨by rw [hid, BitVec.ofNat_toNat, BitVec.setWidth_eq, beq_self_eq_true], id.toNat, hlt,
          rfl, ?_⟩
        intro i hi
        obtain ⟨hid', hentry'⟩ := h.episode (List.getElem?_eq_getElem (Nat.lt_trans hi hlt))
        rw [hid', Bool.not_eq_true', beq_eq_false_iff_ne]
        intro heq
        have htoNat := j.toNat_id hentry'
        rw [heq] at htoNat
        omega
      have hvalue : x = s.t2.log[id.toNat].entry := Option.some.inj (hx.symm.trans hentry)
      rw [MemSubstrate.read, hfound, hvalue]
      rfl

end Mirrors

/-- The four structures agree: equal lengths, ids are positions, the same tokens
and ticks in both tiers, the index exact and ascending, the count exact, the
charge within the quota, and every episode readable under its id. -/
structure Lockstep (s : MemSubstrate) : Prop where
  lengths : s.t2.log.length = s.t3.records.length
  episodeId : ∀ {i : Nat} {e : Episode}, s.t2.log[i]? = some e → e.id.toNat = i
  recordId : ∀ {i : Nat} {r : MemRecord}, s.t3.records[i]? = some r → r.id.toNat = i
  sameToken : s.t2.log.map Episode.contentTok = s.t3.records.map MemRecord.token
  ascending : ∀ {tok : BitVec 64} {ps : List Nat}, s.t3.lexical[tok]? = some ps → ps.Pairwise (· < ·)
  carries : ∀ (tok : BitVec 64) (i : Nat),
    (∃ ps, s.t3.lexical[tok]? = some ps ∧ i ∈ ps) ↔ ∃ r, s.t3.records[i]? = some r ∧ r.token = tok
  numDocs : s.t3.numDocs = s.t3.records.length
  quota : s.quota.tokensWritten ≤ TOKEN_QUOTA
  reads : ∀ e ∈ s.t2.log, s.read e.id = some e.value

theorem Mirrors.lockstep {s : MemSubstrate} {j : Journal} (h : Mirrors s j) : Lockstep s where
  lengths := h.length_log.trans h.length_records.symm
  episodeId he := by
    obtain ⟨hid, hentry⟩ := h.episode he
    rw [hid, j.toNat_id hentry]
  recordId hr := by
    obtain ⟨hid, x, hx, -⟩ := h.record hr
    rw [hid, j.toNat_id hx]
  sameToken := by
    have hlog := congrArg (List.map fun p => p.2.token) h.log
    have hrecords := congrArg (List.map fun p => p.2.1) h.records
    simp only [spine, List.map_map, List.mapIdx_eq_zipIdx_map] at hlog hrecords
    exact hlog.trans hrecords.symm
  ascending {tok ps} hps := by
    have hlex : s.t3.lexical[tok]? = j.index tok := h.lexical tok
    rw [hlex, Journal.index] at hps
    split at hps
    · cases hps
    · rw [← Option.some.inj hps]
      exact List.pairwise_findIdxs
  carries tok i := by
    rw [h.mem_index, Journal.positions, List.mem_findIdxs_iff_exists_getElem_pos]
    constructor
    · rintro ⟨hi, htok⟩
      have hlt : i < s.t3.records.length := h.length_records ▸ hi
      obtain ⟨-, x, hx, hxtok⟩ := h.record (List.getElem?_eq_getElem hlt)
      rw [List.getElem?_eq_getElem hi] at hx
      rw [← Option.some.inj hx] at hxtok
      exact ⟨_, List.getElem?_eq_getElem hlt, hxtok.symm.trans (beq_iff_eq.mp htok)⟩
    · rintro ⟨r, hr, hrtok⟩
      obtain ⟨-, x, hx, hxtok⟩ := h.record hr
      obtain ⟨hi, hxi⟩ := List.getElem?_eq_some_iff.mp hx
      exact ⟨hi, beq_iff_eq.mpr (by rw [hxi, hxtok, hrtok])⟩
  numDocs := h.numDocs.trans h.length_records.symm
  quota := h.tokensWritten.trans_le j.within
  reads e he := by
    obtain ⟨i, hi⟩ := List.getElem?_of_mem he
    obtain ⟨hid, hentry⟩ := h.episode hi
    rw [h.read, hid, j.toNat_id hentry, hentry]
    rfl

/-! ## Indices stay in range

The source indexes the records by posting, by the winner of a recall and by the
survivor of a cluster; each is a position of the record list. -/

theorem Lockstep.posting_lt {s : MemSubstrate} (h : Lockstep s) {tok : BitVec 64} {ps : List Nat}
    (hps : s.t3.lexical[tok]? = some ps) {i : Nat} (hi : i ∈ ps) : i < s.t3.records.length := by
  obtain ⟨r, hr, -⟩ := (h.carries tok i).mp ⟨ps, hps, hi⟩
  exact (List.getElem?_eq_some_iff.mp hr).1

theorem best_mem {s : MemSubstrate} {postings cand : List Nat} (hne : cand ≠ []) :
    s.best postings cand ∈ cand := by
  have hpos : 0 < cand.length := List.length_pos_of_ne_nil hne
  have hmem : ∀ k, k < cand.length → cand[k]! ∈ cand := by
    intro k hk
    rw [List.getElem!_eq_getElem?_getD, List.getElem?_eq_getElem hk]
    exact List.getElem_mem hk
  apply hmem
  refine List.foldlRecOn (motive := fun b : Nat × Int => b.1 < cand.length) _ _ hpos ?_
  intro b hb k hk
  dsimp only
  split
  · exact List.mem_range.mp hk
  · exact hb

theorem cluster_mem {s : MemSubstrate} {postings losers : List Nat} {surv : Nat}
    (h : s.cluster postings = some (surv, losers)) : surv ∈ postings ∧ ∀ l ∈ losers, l ∈ postings := by
  rw [cluster] at h
  dsimp only at h
  split at h
  · cases h
  · next hlen =>
      obtain ⟨hsurv, hlosers⟩ := Prod.mk.inj (Option.some.inj h)
      have hlive : ∀ i ∈ postings.filter (fun ri => s.t3.records[ri]!.active), i ∈ postings :=
        fun i hi => (List.mem_filter.mp hi).1
      refine ⟨hlive _ ?_, fun l hl => ?_⟩
      · rw [← hsurv]
        refine List.foldlRecOn (motive := fun i => i ∈ postings.filter _) _ _ ?_ ?_
        · rw [List.getElem!_eq_getElem?_getD, List.getElem?_eq_getElem (by omega)]
          exact List.getElem_mem _
        · intro b hb a ha
          split
          · exact ha
          · exact hb
      · rw [← hlosers] at hl
        exact hlive l (List.mem_filter.mp hl).1

/-- The winner of a recall, and every survivor and loser of a distillation, are
positions of the record list. -/
theorem Lockstep.indices_lt {s : MemSubstrate} (h : Lockstep s) :
    (∀ {query : BitVec 64} {ps : List Nat}, s.t3.lexical[query]? = some ps → s.candidates ps ≠ [] →
      s.best ps (s.candidates ps) < s.t3.records.length) ∧
    ∀ c ∈ s.distillPlan, c.1 < s.t3.records.length ∧ ∀ l ∈ c.2, l < s.t3.records.length := by
  constructor
  · intro query ps hps hne
    exact h.posting_lt hps (List.mem_filter.mp (best_mem hne)).1
  · intro c hc
    obtain ⟨ps, hps, hcluster⟩ := List.mem_filterMap.mp (List.mem_of_mem_take hc)
    obtain ⟨⟨tok, ps'⟩, htok, rfl⟩ := List.mem_map.mp hps
    have hlex := Std.TreeMap.mem_toList_iff_getElem?_eq_some.mp htok
    obtain ⟨hsurv, hlosers⟩ := cluster_mem hcluster
    exact ⟨h.posting_lt hlex hsurv, fun l hl => h.posting_lt hlex (hlosers l hl)⟩

/-! ## Runs -/

def reached (ops : List Op) : MemSubstrate := exec step new ops

theorem reached_append (pre post : List Op) : reached (pre ++ post) = exec step (reached pre) post :=
  exec_append step new pre post

/-- Every reachable substrate mirrors a journal, and every later one an extension of it. -/
theorem reached_mirrors (pre post : List Op) :
    ∃ j j', Mirrors (reached pre) j ∧ j.entries <+: j'.entries ∧ Mirrors (reached (pre ++ post)) j' := by
  obtain ⟨j, -, hj⟩ := run_grows pre new Journal.empty mirrors_new
  obtain ⟨j', hp, hj'⟩ := run_grows post (reached pre) j hj
  exact ⟨j, j', hj, hp, (reached_append pre post).symm ▸ hj'⟩

theorem Mirrors.entries {s : MemSubstrate} {j : Journal} (h : Mirrors s j) :
    s.t2.log.map Episode.entry = j.entries := by
  have hlog := congrArg (List.map Prod.snd) h.log
  simp only [spine, List.map_map, List.mapIdx_eq_zipIdx_map] at hlog
  exact hlog.trans (List.zipIdx_map_fst 0 j.entries)

/-- What a journal holds, its extensions hold. -/
theorem Mirrors.read_stable {s s' : MemSubstrate} {j j' : Journal} (h : Mirrors s j)
    (h' : Mirrors s' j') (hp : j.entries <+: j'.entries) {id v : BitVec 64}
    (hv : s.read id = some v) : s'.read id = some v := by
  rw [h.read] at hv
  rw [h'.read]
  obtain ⟨x, hx, hxv⟩ := Option.map_eq_some_iff.mp hv
  obtain ⟨ext, hext⟩ := hp
  rw [← hext, List.getElem?_append_left (List.getElem?_eq_some_iff.mp hx).1, hx]
  exact congrArg some hxv

/-- A write that returned an id appended exactly its entry, and the id is that
entry's position. -/
theorem write_mirrors {s : MemSubstrate} {j : Journal} (hj : Mirrors s j)
    {op key value packed id : BitVec 64} (hop : op = 0 ∨ op = 1)
    (hid : (s.write op key value packed).1 = some id) :
    ∃ j', Mirrors (s.write op key value packed).2 j' ∧
      j'.entries = j.entries ++ [⟨key, value, s.clock⟩] ∧ id = BitVec.ofNat 64 j.entries.length := by
  have hle : op ≤ 2 := by
    rcases hop with rfl | rfl <;> decide
  have haccrue : ∀ imp, Mirrors (s.accrue imp) j := fun imp => hj.of_spine (spine_accrue s imp)
  rw [write, if_pos hop] at hid ⊢
  have hadd : (∃ hq : j.charged < TOKEN_QUOTA,
      (s.add key value packed).1 = some (BitVec.ofNat 64 j.entries.length) ∧
      Mirrors (s.add key value packed).2 (j.push ⟨key, value, s.clock⟩ hq)) ∨
      (s.add key value packed).1 = none := by
    rcases pushRecord_cases (haccrue _) key value _ .episodic [] with h | h
    · exact Or.inl h
    · exact Or.inr (congrArg Prod.fst h)
  rcases hadd with ⟨hq, hfst, hsnd⟩ | hnone
  · dsimp only at hid ⊢
    rw [hfst] at hid ⊢
    dsimp only at hid ⊢
    rw [if_pos hle] at hid ⊢
    refine ⟨_, Mirrors.of_spine (spine_ledgerAppend _ _ _ _ _ _) hsnd, rfl, ?_⟩
    exact (Option.some.inj hid).symm
  · dsimp only at hid
    rw [hnone] at hid
    cases hid

/-- In every reachable state the four structures are in lockstep; what a record
holds of its write (token, value, tick) is the same in every later state; and
reading an id returns, for ever, the value written under it. -/
theorem lockstep_along_runs (pre post : List Op) :
    Lockstep (reached pre) ∧
    (reached pre).t2.log.map Episode.entry <+: (reached (pre ++ post)).t2.log.map Episode.entry ∧
    (∀ id v, (reached pre).read id = some v → (reached (pre ++ post)).read id = some v) ∧
    (∀ op key value packed id, op = 0 ∨ op = 1 →
      ((reached pre).write op key value packed).1 = some id →
      (reached (pre ++ .write op key value packed :: post)).read id = some value) := by
  obtain ⟨j, j', hj, hp, hj'⟩ := reached_mirrors pre post
  refine ⟨hj.lockstep, ?_, fun id v => hj.read_stable hj' hp, ?_⟩
  · rw [hj.entries, hj'.entries]
    exact hp
  · intro op key value packed id hop hid
    obtain ⟨j₁, hj₁, hentries, hpos⟩ := write_mirrors hj hop hid
    obtain ⟨j₂, hp₂, hj₂⟩ := run_grows post _ j₁ hj₁
    have hread : ((reached pre).write op key value packed).2.read id = some value := by
      rw [hj₁.read, hpos, BitVec.toNat_ofNat, Nat.mod_eq_of_lt (Nat.lt_trans j.length_lt (by decide)),
        hentries, List.getElem?_append_right (Nat.le_refl _), Nat.sub_self]
      rfl
    rw [reached_append]
    exact hj₁.read_stable hj₂ hp₂ hread

-- The second write's survivor supersedes the first record; its episode still reads.
example : (reached [.write 0 7 70 3, .write 0 7 71 9, .consolidate 3 0 0 0]).read 0 = some 70 := by
  decide +kernel

end Yuva.Mem
