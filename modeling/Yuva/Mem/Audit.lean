/-
# `Yuva.Mem.Audit` — which changes of the memory reach the provenance ledger

An operation *mutates* when it tombstones a record, demotes one, adds a derived
one, or otherwise changes the set of live hot records.  It is *accounted for* when
the same operation appends to the provenance ledger.

| operation                     | mutates                     | accounted for          |
| :---------------------------- | :-------------------------- | :--------------------- |
| write, delete                 | yes                         | always                 |
| forget sweep                  | demotes                     | one entry per demotion |
| tombstone (op 0)              | yes                         | never                  |
| distil and reflect (op 3)     | tombstones, adds an insight | only if the sweep of the same cycle demotes |
| reflect (op 4)                | adds an insight             | never                  |
| seeding                       | adds records                | never                  |

`Silent` is the condition of the last column as a predicate on the state before;
`step_audited` says that it is exact.
-/
import Yuva.Mem.Chains
import Yuva.Mem.Lockstep

namespace Yuva.Mem

open Yuva.Bytes Yuva.Hash Yuva.Machine Yuva.Run MemSubstrate

/-! ## Mutations -/

/-- A live record is dead after. -/
def Tombstones (s s' : MemSubstrate) : Prop :=
  ∃ (i : Nat) (r r' : MemRecord), s.t3.records[i]? = some r ∧ s'.t3.records[i]? = some r' ∧
    r.tInvalid = 0 ∧ r'.tInvalid ≠ 0

/-- A hot record is cold after. -/
def Demotes (s s' : MemSubstrate) : Prop :=
  ∃ (i : Nat) (r r' : MemRecord), s.t3.records[i]? = some r ∧ s'.t3.records[i]? = some r' ∧
    r.tier = .hot ∧ r'.tier = .cold

/-- A record was added that is no episode. -/
def Derives (s s' : MemSubstrate) : Prop :=
  ∃ (i : Nat) (r : MemRecord), s.t3.records.length ≤ i ∧ s'.t3.records[i]? = some r ∧
    r.provenance ≠ .episodic

/-- The live hot records, by id. -/
def hotIds (s : MemSubstrate) : List (BitVec 64) := (s.t3.records.filter MemRecord.active).map MemRecord.id

def Mutates (s s' : MemSubstrate) : Prop :=
  Tombstones s s' ∨ Demotes s s' ∨ Derives s s' ∨ hotIds s' ≠ hotIds s

/-- At least one entry was appended, and the head moved to the fold over the new ids. -/
def Accounted (s s' : MemSubstrate) : Prop :=
  ∃ ids, ids ≠ [] ∧ s'.ledgerIds = s.ledgerIds ++ ids ∧ s'.chainHead = ids.foldl Prov.chainMix s.chainHead

/-! ## The condition -/

/-- One more record is within the quota. -/
def HasQuota (s : MemSubstrate) : Prop := satU 64 (s.quota.tokensWritten + 1) ≤ TOKEN_QUOTA

/-- A reflection finds something to cite, and may add a record. -/
def Reflects (s : MemSubstrate) : Prop := HasQuota s ∧ ∃ r ∈ s.t3.records, r.reflectable = true

/-- The window of the next sweep holds a record the policy demotes. -/
def Demotable (s : MemSubstrate) : Prop :=
  ∃ k, k < min SWEEP_BATCH s.t3.records.length ∧
    (forgetDecision s.clock s.t3.records[(s.consolCursor % s.t3.records.length + k) %
      s.t3.records.length]!).1 = true

/-- The cycle merges duplicates under a clock that marks them dead, or adds an
insight, and its sweep demotes nothing. -/
def SilentCycle (s : MemSubstrate) : Prop :=
  (s.clock ≠ 0 ∧ s.distillPlan ≠ [] ∨ Reflects s.distill.2) ∧
    ¬ Demotable (s.distill.2.reflectInner 0).2

/-- The operation mutates the memory without an entry in the ledger. -/
def Silent (s : MemSubstrate) : Op → Prop
  | .consolidate op a _ _ =>
      op = 0 ∧ s.clock ≠ 0 ∧ (∃ r ∈ s.t3.records, r.id = a ∧ r.tInvalid = 0) ∨
      op = 3 ∧ SilentCycle s ∨ op = 4 ∧ Reflects s
  | .seedHeldout _ _ n => n ≠ 0 ∧ HasQuota s
  | _ => False

/-! ## Nothing changed -/

/-- What decides whether a record is live and hot, under its id. -/
def MemRecord.standing (r : MemRecord) : BitVec 64 × BitVec 64 × Tier := (r.id, r.tInvalid, r.tier)

def standings (s : MemSubstrate) : List (BitVec 64 × BitVec 64 × Tier) :=
  s.t3.records.map MemRecord.standing

theorem standings_length (s : MemSubstrate) : (standings s).length = s.t3.records.length :=
  List.length_map _

theorem standing_of_get {s s' : MemSubstrate} (h : standings s' = standings s) {i : Nat}
    {r r' : MemRecord} (hr : s.t3.records[i]? = some r) (hr' : s'.t3.records[i]? = some r') :
    r'.standing = r.standing := by
  have hi := congrArg (fun l => l[i]?) h
  simp only [standings, List.getElem?_map, hr, hr', Option.map_some] at hi
  exact Option.some.inj hi

theorem hotIds_eq (s : MemSubstrate) : hotIds s =
    ((standings s).filter fun p => p.2.1 == 0 && p.2.2 == .hot).map Prod.fst := by
  rw [hotIds, standings, List.filter_map, List.map_map]
  rfl

theorem not_mutates {s s' : MemSubstrate} (h : standings s' = standings s) : ¬ Mutates s s' := by
  rintro (⟨i, r, r', hr, hr', hlive, hdead⟩ | ⟨i, r, r', hr, hr', hhot, hcold⟩ | ⟨i, r, hi, hr, -⟩ | hne)
  · obtain ⟨-, hst⟩ := Prod.mk.inj (standing_of_get h hr hr')
    exact hdead ((Prod.mk.inj hst).1.trans hlive)
  · obtain ⟨-, hst⟩ := Prod.mk.inj (standing_of_get h hr hr')
    have htier := (Prod.mk.inj hst).2
    rw [hcold, hhot] at htier
    cases htier
  · have hlen := congrArg List.length h
    rw [standings_length, standings_length] at hlen
    have hlt := (List.getElem?_eq_some_iff.mp hr).1
    omega
  · rw [hotIds_eq, hotIds_eq, h] at hne
    exact hne rfl

/-! ## The ledger -/

/-- The ledger part of the logs. -/
def ledger (s : MemSubstrate) : Bytes32 × List Bytes32 := (s.chainHead, s.ledgerIds)

theorem not_accounted {s s' : MemSubstrate} (h : ledger s' = ledger s) : ¬ Accounted s s' := by
  rintro ⟨ids, hne, hids, -⟩
  rw [(Prod.mk.inj h).2] at hids
  exact hne (List.self_eq_append_right.mp hids)

theorem Accounted.trans {s s' s'' : MemSubstrate} (h : Accounted s s') (h' : Accounted s' s'') :
    Accounted s s'' := by
  obtain ⟨ids, hne, hids, hhead⟩ := h
  obtain ⟨ids', -, hids', hhead'⟩ := h'
  refine ⟨ids ++ ids', List.append_ne_nil_of_left_ne_nil hne _, ?_, ?_⟩
  · rw [hids', hids, List.append_assoc]
  · rw [hhead', hhead, List.foldl_append]

theorem Accounted.of_ledger {s t s' t' : MemSubstrate} (h : Accounted s t) (hs : ledger s' = ledger s)
    (ht : ledger t' = ledger t) : Accounted s' t' := by
  obtain ⟨ids, hne, hids, hhead⟩ := h
  obtain ⟨hsh, hsi⟩ := Prod.mk.inj hs
  obtain ⟨hth, hti⟩ := Prod.mk.inj ht
  exact ⟨ids, hne, by rw [hti, hids, hsi], by rw [hth, hhead, hsh]⟩

theorem accounted_ledgerAppend (s : MemSubstrate) (kind : UInt8) (tok : BitVec 64) (tier : UInt8)
    (writer : BitVec 64) :
    Accounted s (s.ledgerAppend kind tok tier writer s.parentOfHead).2 := by
  rw [ledgerAppend_eq]
  exact ⟨[_], List.cons_ne_nil _ _, rfl, rfl⟩

theorem ledger_xpRecord (s : MemSubstrate) (r : Exp.ExperienceRecord) :
    ledger (s.xpRecord r).2 = ledger s := by
  rw [xpRecord_eq]
  rfl

theorem ledger_corpusEmit (s : MemSubstrate) (kind stream verdict : UInt8) (tok aux : BitVec 64)
    (outcome : Corpus.OutcomeLabel) :
    ledger (s.corpusEmit kind stream verdict tok aux outcome) = ledger s := by
  have h := logs_corpusEmit s kind stream verdict tok aux outcome rfl
  exact congrArg (fun l : Logs => (l.chainHead, l.ledgerIds)) h

theorem ledger_of_logs {s s' : MemSubstrate} (h : logs s' = logs s) : ledger s' = ledger s :=
  congrArg (fun l : Logs => (l.chainHead, l.ledgerIds)) h

/-! ## One operation -/

/-- A silent operation mutates and leaves the ledger; any other changes no standing
or appends. -/
def Audited (silent : Prop) (s s' : MemSubstrate) : Prop :=
  ¬ silent ∧ (standings s' = standings s ∨ Accounted s s') ∨
    silent ∧ Mutates s s' ∧ ledger s' = ledger s

theorem Audited.iff {silent : Prop} {s s' : MemSubstrate} (h : Audited silent s s') :
    (Mutates s s' → Accounted s s') ↔ ¬ silent := by
  rcases h with ⟨hloud, hsame | hacc⟩ | ⟨hsilent, hmut, hledger⟩
  · exact ⟨fun _ => hloud, fun _ hmut => absurd hmut (not_mutates hsame)⟩
  · exact ⟨fun _ => hloud, fun _ _ => hacc⟩
  · exact ⟨fun himp => absurd (himp hmut) (not_accounted hledger), fun hloud => absurd hsilent hloud⟩

theorem Audited.idle {silent : Prop} {s s' : MemSubstrate} (h : standings s' = standings s)
    (hloud : ¬ silent) : Audited silent s s' :=
  .inl ⟨hloud, .inl h⟩

theorem Audited.same {s s' : MemSubstrate} (h : standings s' = standings s) : Audited False s s' :=
  .idle h not_false

section Standing

variable (clock : BitVec 64) (edges : List (UInt8 × BitVec 64)) (r : MemRecord)

theorem standing_accessed : (r.accessed clock).standing = r.standing := rfl
theorem standing_linked : (r.linked edges).standing = r.standing := rfl
theorem standing_asDistilled : r.asDistilled.standing = r.standing := rfl

end Standing

/-- What a logged operation reads besides the logs. -/
def core (s : MemSubstrate) : SemanticStore × BitVec 64 × Quota × Nat :=
  (s.t3, s.clock, s.quota, s.consolCursor)

theorem core_xpRecord (s : MemSubstrate) (r : Exp.ExperienceRecord) :
    core (s.xpRecord r).2 = core s := by
  rw [xpRecord_eq]
  rfl

theorem core_corpusEmit (s : MemSubstrate) (kind stream verdict : UInt8) (tok aux : BitVec 64)
    (outcome : Corpus.OutcomeLabel) :
    core (s.corpusEmit kind stream verdict tok aux outcome) = core s := by
  rw [corpusEmit]
  dsimp only
  split
  · rfl
  · split <;> rfl

theorem core_ledgerAppend (s : MemSubstrate) (kind : UInt8) (tok : BitVec 64) (tier : UInt8)
    (writer : BitVec 64) (parents : List Bytes32) :
    core (s.ledgerAppend kind tok tier writer parents).2 = core s := by
  rw [ledgerAppend]
  split <;> rfl

theorem standings_of_core {s s' : MemSubstrate} (h : core s' = core s) : standings s' = standings s :=
  congrArg (fun t : SemanticStore => t.records.map MemRecord.standing) (Prod.mk.inj h).1

theorem standings_tick (s : MemSubstrate) : standings s.tick = standings s := rfl

/-! ### Writing and reading -/

theorem delete_none {s : MemSubstrate} {key : BitVec 64} (h : (s.delete key).1 = none) :
    standings (s.delete key).2 = standings s := by
  have hfind : s.t3.records.reverse.find? (fun r => r.token == key && r.tInvalid == 0) = none :=
    Option.map_eq_none_iff.mp h
  have hkeep : s.t3.records.reverse.replaceF (fun r =>
      if r.token == key && r.tInvalid == 0 then some (r.invalidate s.clock) else none) =
      s.t3.records.reverse :=
    List.replaceF_of_forall_none fun r hr => if_neg (List.find?_eq_none.mp hfind r hr)
  rw [delete]
  dsimp only
  rw [hkeep, hfind, List.reverse_reverse]
  rfl

/-- The store part of a write leaves the ledger; without a result, or when there is
nothing to do, it leaves the standings. -/
theorem write_store (s : MemSubstrate) (op key value packed : BitVec 64)
    {p : Option (BitVec 64) × MemSubstrate}
    (hp : (if op = 0 ∨ op = 1 then s.add key value packed
      else if op = 2 then s.delete key else (some 0, s)) = p) :
    ledger p.2 = ledger s ∧ (p.1 = none ∨ ¬ op ≤ 2 → standings p.2 = standings s) := by
  split at hp
  · next hadd =>
      rw [add, pushRecord] at hp
      split at hp
      · rw [← hp]
        exact ⟨rfl, fun _ => rfl⟩
      · rw [← hp]
        refine ⟨rfl, ?_⟩
        rintro (hnone | hnop)
        · cases hnone
        · exact absurd (by rcases hadd with rfl | rfl <;> decide) hnop
  · split at hp
    · next hdel =>
        rw [← hp]
        refine ⟨ledger_of_logs (logs_delete s key), ?_⟩
        rintro (hnone | hnop)
        · exact delete_none hnone
        · exact absurd (Nat.le_of_eq (congrArg BitVec.toNat hdel)) hnop
    · rw [← hp]
      exact ⟨rfl, fun _ => rfl⟩

theorem write_audited (s : MemSubstrate) (op key value packed : BitVec 64) :
    Audited False s (s.write op key value packed).2 := by
  obtain ⟨hledger, hsame⟩ := write_store s op key value packed rfl
  rw [write]
  dsimp only
  split
  · next hnone => exact Audited.same (hsame (.inl hnone))
  · split
    · exact .inl ⟨not_false, .inr ((accounted_ledgerAppend _ _ _ _ _).of_ledger hledger.symm rfl)⟩
    · next hnop => exact Audited.same (hsame (.inr hnop))

theorem readTouch_audited (s : MemSubstrate) (id : BitVec 64) :
    Audited False s (s.readTouch id).2 := by
  rw [readTouch]
  split
  · exact Audited.same rfl
  · exact Audited.same (standings_of_core (core_xpRecord s _))

theorem standings_retrieve (s : MemSubstrate) (query : BitVec 64) :
    standings (s.retrieve query).2 = standings s := by
  rw [retrieve]
  split
  · rfl
  · dsimp only
    split
    · rfl
    · rw [serve]
      dsimp only
      refine (standings_tick _).trans ((standings_of_core (core_xpRecord _ _)).trans ?_)
      exact Update.map_modify (standing_accessed s.clock) _ _

theorem tbRecall_audited (s : MemSubstrate) (query cursor k weights : BitVec 64) :
    Audited False s (s.tbRecall query cursor k weights).2 := by
  refine Audited.same ((standings_retrieve _ query).trans ?_)
  split <;> rfl

/-! ### Tombstones -/

theorem tombstone_audited (s : MemSubstrate) (a : BitVec 64) :
    Audited (s.clock ≠ 0 ∧ ∃ r ∈ s.t3.records, r.id = a ∧ r.tInvalid = 0) s (s.tombstone a).2 := by
  have hrecords : (s.tombstone a).2.t3.records = s.t3.records.map fun r =>
      if r.id == a && r.tInvalid == 0 then r.invalidate s.clock else r := rfl
  by_cases hsilent : s.clock ≠ 0 ∧ ∃ r ∈ s.t3.records, r.id = a ∧ r.tInvalid = 0
  · obtain ⟨hclock, r, hr, hid, hlive⟩ := hsilent
    obtain ⟨i, hi⟩ := List.getElem?_of_mem hr
    refine .inr ⟨⟨hclock, r, hr, hid, hlive⟩, .inl ⟨i, r, r.invalidate s.clock, hi, ?_, hlive, hclock⟩, rfl⟩
    rw [hrecords, List.getElem?_map, hi, Option.map_some, if_pos (by simp [hid, hlive])]
  · refine .inl ⟨hsilent, .inl ?_⟩
    rw [standings, hrecords, List.map_map]
    refine List.map_congr_left fun r hr => ?_
    show (if r.id == a && r.tInvalid == 0 then r.invalidate s.clock else r).standing = r.standing
    split
    · next hhit =>
        simp only [Bool.and_eq_true, beq_iff_eq] at hhit
        have hclock : s.clock = 0 := not_not.mp fun hne => hsilent ⟨hne, r, hr, hhit⟩
        rw [MemRecord.standing, MemRecord.standing, MemRecord.invalidate, hclock, hhit.2]
    · rfl

/-! ### Distillation -/

/-- The record at `i` is dead. -/
def DeadAt (s : MemSubstrate) (i : Nat) : Prop := ∃ r, s.t3.records[i]? = some r ∧ r.tInvalid ≠ 0

section Merge

variable {t : MemSubstrate} {surv loser : Nat}

theorem records_mergeLoser (i : Nat) : (mergeLoser surv t loser).t3.records[i]? =
    (t.t3.records[i]?.map fun r => if loser = i then r.invalidate t.clock else r).map fun r =>
      if surv = i then r.linked [(LINK_SUPERSEDES, t.t3.records[loser]!.id),
        (LINK_CITES, t.t3.records[loser]!.id)] else r := by
  show ((t.t3.records.modify loser _).modify surv _)[i]? = _
  rw [List.getElem?_modify, List.getElem?_modify]
  rfl

/-- A merged loser is dead, and what was dead stays dead, as long as the clock is
not zero. -/
theorem deadAt_mergeLoser (hclock : t.clock ≠ 0) {i : Nat}
    (h : DeadAt t i ∨ i = loser ∧ i < t.t3.records.length) : DeadAt (mergeLoser surv t loser) i := by
  obtain ⟨r, hr, hdead⟩ : ∃ r, t.t3.records[i]? = some r ∧ (r.tInvalid ≠ 0 ∨ i = loser) := by
    rcases h with ⟨r, hr, hdead⟩ | ⟨heq, hlt⟩
    · exact ⟨r, hr, .inl hdead⟩
    · exact ⟨_, List.getElem?_eq_getElem hlt, .inr heq⟩
  refine ⟨_, (records_mergeLoser i).trans (by rw [hr]; rfl), ?_⟩
  have hinv : (if loser = i then r.invalidate t.clock else r).tInvalid ≠ 0 := by
    by_cases heq : loser = i
    · rw [if_pos heq]
      exact hclock
    · rw [if_neg heq]
      rcases hdead with hdead | heq'
      · exact hdead
      · exact absurd heq'.symm heq
  dsimp only
  split
  · exact hinv
  · exact hinv

/-- Under a clock of zero a live loser keeps its standing. -/
theorem standings_mergeLoser (hclock : t.clock = 0)
    (hlive : ∀ r, t.t3.records[loser]? = some r → r.tInvalid = 0) :
    standings (mergeLoser surv t loser) = standings t := by
  show ((t.t3.records.modify loser _).modify surv _).map MemRecord.standing = _
  rw [Update.map_modify (standing_linked _), Update.map_modify_of]
  · rfl
  · intro r hr
    rw [MemRecord.standing, MemRecord.invalidate, hclock, MemRecord.standing, hlive r hr]

end Merge

/-- What no merge changes. -/
structure Merging (s t : MemSubstrate) : Prop where
  clock : t.clock = s.clock
  length : t.t3.records.length = s.t3.records.length
  ledger : ledger t = ledger s

theorem Merging.trans {s t u : MemSubstrate} (h : Merging s t) (h' : Merging t u) : Merging s u :=
  ⟨h'.clock.trans h.clock, h'.length.trans h.length, h'.ledger.trans h.ledger⟩

theorem merging_mergeLoser (surv : Nat) (t : MemSubstrate) (loser : Nat) :
    Merging t (mergeLoser surv t loser) :=
  ⟨rfl, (List.length_modify _ _ _).trans (List.length_modify _ _ _), rfl⟩

theorem merging_losers (surv : Nat) (losers : List Nat) (t : MemSubstrate) :
    Merging t (losers.foldl (mergeLoser surv) t) :=
  List.foldlRecOn (motive := Merging t) losers _ ⟨rfl, rfl, rfl⟩
    fun u hu loser _ => hu.trans (merging_mergeLoser surv u loser)

theorem core_mergeCluster (t : MemSubstrate) (c : Nat × List Nat) : core (mergeCluster t c) =
    core ((c.2.foldl (mergeLoser c.1) t).withRecords
      ((c.2.foldl (mergeLoser c.1) t).t3.records.modify c.1 MemRecord.asDistilled)) :=
  core_corpusEmit _ _ _ _ _ _ _

theorem ledger_mergeCluster (t : MemSubstrate) (c : Nat × List Nat) :
    ledger (mergeCluster t c) = ledger (c.2.foldl (mergeLoser c.1) t) :=
  ledger_corpusEmit _ _ _ _ _ _ _

/-- After its losers a cluster changes no standing. -/
theorem standings_mergeCluster (t : MemSubstrate) (c : Nat × List Nat) :
    standings (mergeCluster t c) = standings (c.2.foldl (mergeLoser c.1) t) :=
  (standings_of_core (core_mergeCluster t c)).trans (Update.map_modify standing_asDistilled _ _)

theorem merging_mergeCluster (t : MemSubstrate) (c : Nat × List Nat) : Merging t (mergeCluster t c) := by
  refine (merging_losers c.1 c.2 t).trans ⟨?_, ?_, ledger_mergeCluster t c⟩
  · exact congrArg (fun p => p.2.1) (core_mergeCluster t c)
  · exact (congrArg (fun p => p.1.records.length) (core_mergeCluster t c)).trans
      (List.length_modify _ _ _)

theorem merging_plan (plan : List (Nat × List Nat)) (s : MemSubstrate) :
    Merging s (plan.foldl mergeCluster s) :=
  List.foldlRecOn (motive := Merging s) plan _ ⟨rfl, rfl, rfl⟩
    fun t ht c _ => ht.trans (merging_mergeCluster t c)

/-- A death is a fact about the standings. -/
theorem deadAt_iff {s : MemSubstrate} {i : Nat} :
    DeadAt s i ↔ ∃ p, (standings s)[i]? = some p ∧ p.2.1 ≠ 0 := by
  rw [standings, List.getElem?_map]
  constructor
  · rintro ⟨r, hr, hdead⟩
    exact ⟨r.standing, by rw [hr]; rfl, hdead⟩
  · rintro ⟨p, hp, hdead⟩
    obtain ⟨r, hr, rfl⟩ := Option.map_eq_some_iff.mp hp
    exact ⟨r, hr, hdead⟩

theorem deadAt_losers {surv : Nat} {losers : List Nat} {i : Nat} {t : MemSubstrate}
    (hclock : t.clock ≠ 0) (h : DeadAt t i ∨ i ∈ losers ∧ i < t.t3.records.length) :
    DeadAt (losers.foldl (mergeLoser surv) t) i := by
  induction losers generalizing t with
  | nil =>
      rcases h with h | ⟨hmem, -⟩
      · exact h
      · cases hmem
  | cons loser losers ih =>
      have hm := merging_mergeLoser surv t loser
      refine ih (by rwa [hm.clock]) ?_
      rcases h with h | ⟨hmem, hlt⟩
      · exact .inl (deadAt_mergeLoser hclock (.inl h))
      · rcases List.mem_cons.mp hmem with heq | hmem
        · exact .inl (deadAt_mergeLoser hclock (.inr ⟨heq, hlt⟩))
        · exact .inr ⟨hmem, by rwa [hm.length]⟩

theorem deadAt_plan {plan : List (Nat × List Nat)} {i : Nat} {t : MemSubstrate} (hclock : t.clock ≠ 0)
    (h : DeadAt t i ∨ (∃ c ∈ plan, i ∈ c.2) ∧ i < t.t3.records.length) :
    DeadAt (plan.foldl mergeCluster t) i := by
  induction plan generalizing t with
  | nil =>
      rcases h with h | ⟨⟨c, hmem, -⟩, -⟩
      · exact h
      · cases hmem
  | cons c plan ih =>
      have hm := merging_mergeCluster t c
      refine ih (by rwa [hm.clock]) ?_
      have hdead : DeadAt t i ∨ i ∈ c.2 ∧ i < t.t3.records.length → DeadAt (mergeCluster t c) i := by
        intro h
        rw [deadAt_iff, standings_mergeCluster, ← deadAt_iff]
        exact deadAt_losers hclock h
      rcases h with h | ⟨⟨c', hmem, hi⟩, hlt⟩
      · exact .inl (hdead (.inl h))
      · rcases List.mem_cons.mp hmem with rfl | hmem
        · exact .inl (hdead (.inr ⟨hi, hlt⟩))
        · exact .inr ⟨⟨c', hmem, hi⟩, by rwa [hm.length]⟩

/-- Under a clock of zero merging live losers changes no standing. -/
theorem standings_losers {surv : Nat} {losers : List Nat} {t : MemSubstrate} (hclock : t.clock = 0)
    (hlive : ∀ l ∈ losers, ∀ p, (standings t)[l]? = some p → p.2.1 = 0) :
    standings (losers.foldl (mergeLoser surv) t) = standings t := by
  induction losers generalizing t with
  | nil => rfl
  | cons loser losers ih =>
      have hone : standings (mergeLoser surv t loser) = standings t := by
        refine standings_mergeLoser hclock fun r hr => hlive loser List.mem_cons_self r.standing ?_
        rw [standings, List.getElem?_map, hr]
        rfl
      refine (ih ((merging_mergeLoser surv t loser).clock.trans hclock) ?_).trans hone
      intro l hl
      rw [hone]
      exact hlive l (List.mem_cons_of_mem _ hl)

theorem standings_plan {plan : List (Nat × List Nat)} {t : MemSubstrate} (hclock : t.clock = 0)
    (hlive : ∀ c ∈ plan, ∀ l ∈ c.2, ∀ p, (standings t)[l]? = some p → p.2.1 = 0) :
    standings (plan.foldl mergeCluster t) = standings t := by
  induction plan generalizing t with
  | nil => rfl
  | cons c plan ih =>
      have hone : standings (mergeCluster t c) = standings t :=
        (standings_mergeCluster t c).trans (standings_losers hclock (hlive c List.mem_cons_self))
      refine (ih ((merging_mergeCluster t c).clock.trans hclock) ?_).trans hone
      intro c' hc'
      rw [hone]
      exact hlive c' (List.mem_cons_of_mem _ hc')

/-- An active record is really there: the stand-in for an index out of range is cold. -/
theorem lt_of_active {s : MemSubstrate} {i : Nat} (h : s.t3.records[i]!.active = true) :
    ∃ r, s.t3.records[i]? = some r ∧ r.tInvalid = 0 := by
  rw [List.getElem!_eq_getElem?_getD] at h
  cases hr : s.t3.records[i]? with
  | none =>
      rw [hr] at h
      cases h
  | some r =>
      rw [hr, Option.getD_some, MemRecord.active, Bool.and_eq_true, beq_iff_eq] at h
      exact ⟨r, rfl, h.1⟩

theorem cluster_losers {s : MemSubstrate} {postings losers : List Nat} {surv : Nat}
    (h : s.cluster postings = some (surv, losers)) :
    (∀ l ∈ losers, s.t3.records[l]!.active = true) ∧ (postings.Nodup → losers ≠ []) := by
  rw [cluster] at h
  dsimp only at h
  split at h
  · cases h
  · next hlen =>
      obtain ⟨-, hlosers⟩ := Prod.mk.inj (Option.some.inj h)
      rw [← hlosers]
      refine ⟨fun l hl => (List.mem_filter.mp (List.mem_filter.mp hl).1).2, ?_⟩
      intro hnodup hnil
      have hlive := hnodup.filter fun ri => s.t3.records[ri]!.active
      -- were there no losers, every live posting would be the survivor
      have hall := List.filter_eq_nil_iff.mp hnil
      generalize postings.filter (fun ri => s.t3.records[ri]!.active) = live at *
      rcases live with _ | ⟨a, _ | ⟨b, rest⟩⟩
      · exact hlen (Nat.zero_lt_succ 1)
      · exact hlen (Nat.lt_succ_self 1)
      · have ha := hall a List.mem_cons_self
        have hb := hall b (List.mem_cons_of_mem _ List.mem_cons_self)
        simp only [bne_iff_ne, ne_eq, not_not] at ha hb
        exact (List.nodup_cons.mp hlive).1 (by rw [ha, ← hb]; exact List.mem_cons_self)

theorem plan_losers {s : MemSubstrate} (hs : Lockstep s) :
    ∀ c ∈ s.distillPlan, c.2 ≠ [] ∧ ∀ l ∈ c.2, s.t3.records[l]!.active = true := by
  intro c hc
  obtain ⟨ps, hps, hcluster⟩ := List.mem_filterMap.mp (List.mem_of_mem_take hc)
  obtain ⟨⟨tok, ps'⟩, htok, rfl⟩ := List.mem_map.mp hps
  have hlex := Std.TreeMap.mem_toList_iff_getElem?_eq_some.mp htok
  obtain ⟨hactive, hne⟩ := cluster_losers hcluster
  exact ⟨hne ((hs.ascending hlex).imp Nat.ne_of_lt), hactive⟩

theorem merging_distill (s : MemSubstrate) :
    s.distill.2.t3.records.length = s.t3.records.length ∧ ledger s.distill.2 = ledger s := by
  have hplan := merging_plan s.distillPlan s
  rw [distill]
  dsimp only
  split <;> exact ⟨hplan.length, hplan.ledger⟩

theorem standings_distill (s : MemSubstrate) :
    standings s.distill.2 = standings (s.distillPlan.foldl mergeCluster s) := by
  rw [distill]
  dsimp only
  split <;> rfl

/-- With something to merge, and a clock that marks the dead, a live record dies. -/
theorem distill_tombstones {s : MemSubstrate} (hs : Lockstep s) (hclock : s.clock ≠ 0)
    (hplan : s.distillPlan ≠ []) : Tombstones s s.distill.2 := by
  obtain ⟨c, hc⟩ := List.exists_mem_of_ne_nil _ hplan
  obtain ⟨hne, hactive⟩ := plan_losers hs c hc
  obtain ⟨l, hl⟩ := List.exists_mem_of_ne_nil _ hne
  obtain ⟨r, hr, hlive⟩ := lt_of_active (hactive l hl)
  have hlt := (List.getElem?_eq_some_iff.mp hr).1
  have hdead : DeadAt s.distill.2 l := by
    rw [deadAt_iff, standings_distill, ← deadAt_iff]
    exact deadAt_plan hclock (.inr ⟨⟨c, hc, hl⟩, hlt⟩)
  obtain ⟨r', hr', hdead⟩ := hdead
  exact ⟨l, r, r', hr, hr', hlive, hdead⟩

theorem distill_same {s : MemSubstrate} (hs : Lockstep s) (h : ¬ (s.clock ≠ 0 ∧ s.distillPlan ≠ [])) :
    standings s.distill.2 = standings s := by
  rw [standings_distill]
  by_cases hplan : s.distillPlan = []
  · rw [hplan]
    rfl
  · refine standings_plan (not_not.mp fun hne => h ⟨hne, hplan⟩) ?_
    intro c hc l hl p hp
    obtain ⟨r, hr, hlive⟩ := lt_of_active ((plan_losers hs c hc).2 l hl)
    rw [standings, List.getElem?_map, hr] at hp
    rw [← Option.some.inj hp]
    exact hlive

/-! ### Reflection and seeding -/

theorem standings_appendRecord (s : MemSubstrate) (token value : BitVec 64) (importance : Nat)
    (provenance : Provenance) (links : List (UInt8 × BitVec 64)) :
    standings (s.appendRecord token value importance provenance links) =
      standings s ++ [(s.t2.nextId, 0, .hot)] := by
  rw [standings, appendRecord]
  exact List.map_append

theorem citeLoop_eq_nil {rs : List MemRecord} {cites : List (BitVec 64)} {digest : BitVec 64} :
    (citeLoop rs cites digest).1 = [] ↔ cites = [] ∧ ∀ r ∈ rs, r.reflectable = false := by
  induction rs generalizing cites digest with
  | nil => simp [citeLoop]
  | cons r rs ih =>
      rw [citeLoop, List.forall_mem_cons]
      cases hr : r.reflectable with
      | false =>
          simp only [Bool.false_eq_true, if_false, true_and]
          exact ih
      | true =>
          simp only [if_true, Bool.true_eq_false, false_and, and_false, iff_false]
          split
          · exact List.append_ne_nil_of_right_ne_nil _ (List.cons_ne_nil _ _)
          · intro hnil
            exact absurd (ih.mp hnil).1 (List.append_ne_nil_of_right_ne_nil _ (List.cons_ne_nil _ _))

theorem provenance_strengthen (r : MemRecord) : r.strengthen.provenance = r.provenance := rfl

theorem map_provenance_strengthenCited (records : List MemRecord) (cid : BitVec 64) :
    (strengthenCited records cid).map MemRecord.provenance = records.map MemRecord.provenance :=
  Update.map_replaceF provenance_strengthen _

theorem not_reflects {s : MemSubstrate} (h : ¬ Reflects s) (modelToken : BitVec 64) :
    (s.reflectInner modelToken).2 = s := by
  rw [reflectInner]
  dsimp only
  split
  · rfl
  · next hcites =>
      have hquota : satU 64 (s.quota.tokensWritten + 1) > TOKEN_QUOTA := by
        refine Nat.lt_of_not_le fun hq => h ⟨hq, ?_⟩
        by_contra hnone
        refine hcites (List.isEmpty_iff.mpr (citeLoop_eq_nil.mpr ⟨rfl, fun r hr => ?_⟩))
        exact Bool.eq_false_iff.mpr fun hrefl => hnone ⟨r, List.mem_reverse.mp hr, hrefl⟩
      rw [pushRecord, if_pos hquota]

/-- A reflection that goes through appends one insight. -/
theorem reflects_derives {s : MemSubstrate} (h : Reflects s) (modelToken : BitVec 64) :
    Derives s (s.reflectInner modelToken).2 ∧ ledger (s.reflectInner modelToken).2 = ledger s := by
  obtain ⟨hquota, r, hr, hrefl⟩ := h
  have hcites : ¬ (citeLoop s.t3.records.reverse [] REFLECT_SEED).1.isEmpty = true := by
    intro hempty
    have hall := (citeLoop_eq_nil.mp (List.isEmpty_iff.mp hempty)).2 r (List.mem_reverse.mpr hr)
    rw [hrefl] at hall
    cases hall
  rw [reflectInner]
  dsimp only
  rw [if_neg hcites, pushRecord, if_neg (Nat.not_lt.mpr hquota)]
  dsimp only
  generalize (citeLoop s.t3.records.reverse [] REFLECT_SEED).1 = cites
  generalize hu : s.appendRecord _ _ REFLECT_IMP .insight _ = u
  have hrecords : u.t3.records.map MemRecord.provenance =
      s.t3.records.map MemRecord.provenance ++ [.insight] := by
    rw [← hu, appendRecord]
    exact List.map_append
  have hcore : core (corpusEmitConsolidation (u.withRecords (cites.foldl strengthenCited u.t3.records))
      (if modelToken ≠ 0 then modelToken else (citeLoop s.t3.records.reverse [] REFLECT_SEED).2) 0
      Corpus.SourceStream.M17_REFLECT REFLECT_IMP) =
      core (u.withRecords (cites.foldl strengthenCited u.t3.records)) := core_corpusEmit _ _ _ _ _ _ _
  have hprov : (cites.foldl strengthenCited u.t3.records).map MemRecord.provenance =
      u.t3.records.map MemRecord.provenance := Update.foldl_keeps map_provenance_strengthenCited _ _
  refine ⟨?_, ?_⟩
  · have hlast : ((cites.foldl strengthenCited u.t3.records).map MemRecord.provenance)[
        s.t3.records.length]? = some .insight := by
      rw [hprov, hrecords, ← List.length_map MemRecord.provenance, List.getElem?_concat_length]
    rw [List.getElem?_map] at hlast
    obtain ⟨r', hr', hins⟩ := Option.map_eq_some_iff.mp hlast
    refine ⟨s.t3.records.length, r', Nat.le_refl _, ?_, by rw [hins]; decide⟩
    rw [(Prod.mk.inj hcore).1]
    exact hr'
  · refine (ledger_corpusEmit _ _ _ _ _ _ _).trans ?_
    rw [← hu]
    rfl

/-- A record pushed within the quota is live and hot. -/
theorem pushRecord_standings (s : MemSubstrate) (token value : BitVec 64) (importance : Nat)
    (provenance : Provenance) (links : List (UInt8 × BitVec 64)) :
    HasQuota s ∧ standings (s.pushRecord token value importance provenance links).2 =
        standings s ++ [(s.t2.nextId, 0, .hot)] ∨
      ¬ HasQuota s ∧ (s.pushRecord token value importance provenance links).2 = s := by
  by_cases hq : HasQuota s
  · refine .inl ⟨hq, ?_⟩
    rw [pushRecord, if_neg (Nat.not_lt.mpr hq)]
    exact standings_appendRecord s token value importance provenance links
  · refine .inr ⟨hq, ?_⟩
    rw [pushRecord, if_pos (Nat.lt_of_not_le hq)]

theorem seed_grows (target base : BitVec 64) (ks : List Nat) (s : MemSubstrate) :
    standings s <+: standings (ks.foldl (fun s k => (s.pushRecord (heldoutInput base k)
      (skillTransform target (heldoutInput base k)) 5 .episodic []).2) s) := by
  refine List.foldlRecOn (motive := fun t => standings s <+: standings t) ks _ (List.prefix_refl _) ?_
  intro t ht k _
  rcases pushRecord_standings t (heldoutInput base k) (skillTransform target (heldoutInput base k)) 5
    .episodic [] with ⟨-, hpush⟩ | ⟨-, hfull⟩
  · rw [hpush]
    exact ht.trans (List.prefix_append _ _)
  · rw [hfull]
    exact ht

theorem hotIds_prefix {s s' : MemSubstrate} (h : standings s <+: standings s') :
    (hotIds s).length ≤ (hotIds s').length := by
  rw [hotIds_eq, hotIds_eq]
  exact ((h.filter _).map _).length_le

theorem seedHeldout_audited (s : MemSubstrate) (target base n : BitVec 64) :
    Audited (n ≠ 0 ∧ HasQuota s) s (s.seedHeldout target base n) := by
  have hledger : ledger (s.seedHeldout target base n) = ledger s :=
    ledger_of_logs (Update.foldl_keeps (fun t k => logs_pushRecord t _ _ 5 .episodic []) _ s)
  by_cases hn : n = 0
  · refine .inl ⟨fun h => h.1 hn, .inl ?_⟩
    rw [hn]
    rfl
  · have hrange : ∃ ks, List.range n.toNat = 0 :: ks := by
      have hpos : n.toNat ≠ 0 := fun h => hn (BitVec.eq_of_toNat_eq h)
      obtain ⟨m, hm⟩ := Nat.exists_eq_succ_of_ne_zero hpos
      exact ⟨_, by rw [hm, List.range_succ_eq_map]⟩
    obtain ⟨ks, hks⟩ := hrange
    rcases pushRecord_standings s (heldoutInput base 0) (skillTransform target (heldoutInput base 0)) 5
      .episodic [] with ⟨hq, hpush⟩ | ⟨hq, hfull⟩
    · refine .inr ⟨⟨hn, hq⟩, .inr (.inr (.inr ?_)), hledger⟩
      intro heq
      rw [seedHeldout, hks, List.foldl_cons] at heq
      have hgrow := hotIds_prefix (seed_grows target base ks (s.pushRecord (heldoutInput base 0)
        (skillTransform target (heldoutInput base 0)) 5 .episodic []).2)
      rw [heq, hotIds_eq, hotIds_eq, hpush, List.filter_append, List.map_append, List.length_append] at hgrow
      exact absurd hgrow (by simp)
    · refine .inl ⟨fun h => hq h.2, .inl ?_⟩
      have hstay : s.seedHeldout target base n = s := by
        refine List.foldlRecOn (motive := fun t => t = s) _ _ rfl ?_
        rintro t rfl k _
        rcases pushRecord_standings t (heldoutInput base k)
          (skillTransform target (heldoutInput base k)) 5 .episodic [] with ⟨hq', -⟩ | ⟨-, hfull'⟩
        · exact absurd hq' hq
        · exact hfull'
      rw [hstay]

/-! ### The sweep -/

theorem core_observe (s : MemSubstrate) : ∀ obs : Option Exp.ExperienceRecord,
    core (s.observe obs) = core s
  | none => rfl
  | some r => core_xpRecord s r

theorem ledger_observe (s : MemSubstrate) : ∀ obs : Option Exp.ExperienceRecord,
    ledger (s.observe obs) = ledger s
  | none => rfl
  | some r => ledger_xpRecord s r

/-- A record the policy keeps is only observed. -/
theorem sweepOne_keeps {s : MemSubstrate} {idx : Nat}
    (h : (forgetDecision s.clock s.t3.records[idx]!).1 = false) :
    core (s.sweepOne idx).2 = core s ∧ ledger (s.sweepOne idx).2 = ledger s := by
  rw [sweepOne]
  dsimp only
  rw [if_neg (by rw [h]; exact Bool.noConfusion)]
  exact ⟨core_observe s _, ledger_observe s _⟩

/-- A demotion is entered in the ledger. -/
theorem sweepOne_demotes {s : MemSubstrate} {idx : Nat}
    (h : (forgetDecision s.clock s.t3.records[idx]!).1 = true) : Accounted s (s.sweepOne idx).2 := by
  rw [sweepOne]
  dsimp only
  rw [if_pos h]
  have hobs := ledger_observe s (forgetDecision s.clock s.t3.records[idx]!).2
  generalize s.observe (forgetDecision s.clock s.t3.records[idx]!).2 = t at hobs ⊢
  have hacc := accounted_ledgerAppend (t.withRecords (t.t3.records.modify idx MemRecord.demote))
    Prov.Kind.FORGET t.t3.records[idx]!.token Tier.cold.byte t.t3.records[idx]!.id
  obtain ⟨ids, hne, hids, hhead⟩ := hacc
  obtain ⟨hth, hti⟩ := Prod.mk.inj hobs
  refine ⟨ids, hne, ?_, ?_⟩
  · rw [← hti]
    exact hids
  · rw [← hth]
    exact hhead

theorem sweepLoop_appends (len budget : Nat) : ∀ (idx n : Nat) (s : MemSubstrate),
    ledger (sweepLoop len budget idx n s).2 = ledger s ∨ Accounted s (sweepLoop len budget idx n s).2 := by
  induction budget with
  | zero => intro idx n s; exact .inl rfl
  | succ budget ih =>
      intro idx n s
      rcases ih ((idx + 1) % len) (n + (s.sweepOne idx).1) (s.sweepOne idx).2 with hrest | hrest
      · cases hd : (forgetDecision s.clock s.t3.records[idx]!).1 with
        | false => exact .inl (hrest.trans (sweepOne_keeps hd).2)
        | true => exact .inr ((sweepOne_demotes hd).of_ledger rfl hrest)
      · cases hd : (forgetDecision s.clock s.t3.records[idx]!).1 with
        | false => exact .inr (hrest.of_ledger (sweepOne_keeps hd).2.symm rfl)
        | true => exact .inr ((sweepOne_demotes hd).trans hrest)

/-- The sweep over a window appends exactly when the policy demotes a record of it;
otherwise it changes no record. -/
theorem sweepLoop_cases (len budget : Nat) : ∀ (idx n : Nat) (s : MemSubstrate), idx < len →
    (∃ k, k < budget ∧ (forgetDecision s.clock s.t3.records[(idx + k) % len]!).1 = true) ∧
        Accounted s (sweepLoop len budget idx n s).2 ∨
      (∀ k, k < budget → (forgetDecision s.clock s.t3.records[(idx + k) % len]!).1 = false) ∧
        core (sweepLoop len budget idx n s).2 = core s ∧
        ledger (sweepLoop len budget idx n s).2 = ledger s := by
  induction budget with
  | zero =>
      intro idx n s _
      exact .inr ⟨fun k hk => absurd hk (Nat.not_lt_zero k), rfl, rfl⟩
  | succ budget ih =>
      intro idx n s hidx
      have hself : (idx + 0) % len = idx := by rw [Nat.add_zero, Nat.mod_eq_of_lt hidx]
      have hshift : ∀ k, ((idx + 1) % len + k) % len = (idx + (k + 1)) % len := by
        intro k
        rw [Nat.mod_add_mod, Nat.add_assoc, Nat.add_comm 1 k]
      cases hd : (forgetDecision s.clock s.t3.records[idx]!).1 with
      | true =>
          refine .inl ⟨⟨0, Nat.zero_lt_succ _, by rw [hself]; exact hd⟩, ?_⟩
          rcases sweepLoop_appends len budget ((idx + 1) % len) (n + (s.sweepOne idx).1)
            (s.sweepOne idx).2 with hrest | hrest
          · exact (sweepOne_demotes hd).of_ledger rfl hrest
          · exact (sweepOne_demotes hd).trans hrest
      | false =>
          obtain ⟨hcore, hledger⟩ := sweepOne_keeps hd
          have hclock : (s.sweepOne idx).2.clock = s.clock := congrArg (fun p => p.2.1) hcore
          have hrecs : (s.sweepOne idx).2.t3.records = s.t3.records := congrArg (fun p => p.1.records) hcore
          have hrest := ih ((idx + 1) % len) (n + (s.sweepOne idx).1) (s.sweepOne idx).2
            (Nat.mod_lt _ (Nat.lt_of_le_of_lt (Nat.zero_le _) hidx))
          simp only [hclock, hrecs, hshift] at hrest
          rcases hrest with ⟨⟨k, hk, hdem⟩, hacc⟩ | ⟨hkeep, hcore', hledger'⟩
          · exact .inl ⟨⟨k + 1, Nat.succ_lt_succ hk, hdem⟩, hacc.of_ledger hledger.symm rfl⟩
          · refine .inr ⟨?_, hcore'.trans hcore, hledger'.trans hledger⟩
            intro k hk
            cases k with
            | zero => rw [hself]; exact hd
            | succ k => exact hkeep k (Nat.lt_of_succ_lt_succ hk)

/-- The cursor is no part of what is audited. -/
theorem audited_cursor (s : MemSubstrate) (cursor : Nat) :
    { s with consolCursor := cursor }.t3 = s.t3 ∧ ledger { s with consolCursor := cursor } = ledger s :=
  ⟨rfl, rfl⟩

theorem forgetSweep_cases (s : MemSubstrate) :
    Demotable s ∧ Accounted s s.forgetSweep.2 ∨
      ¬ Demotable s ∧ s.forgetSweep.2.t3 = s.t3 ∧ ledger s.forgetSweep.2 = ledger s := by
  rw [forgetSweep]
  dsimp only
  split
  · next hlen =>
      refine .inr ⟨?_, rfl, rfl⟩
      rintro ⟨k, hk, -⟩
      rw [hlen, Nat.min_zero] at hk
      exact absurd hk (Nat.not_lt_zero k)
  · next hlen =>
      have hbudget : (if SWEEP_BATCH < s.t3.records.length then SWEEP_BATCH else s.t3.records.length) =
          min SWEEP_BATCH s.t3.records.length := by
        split <;> omega
      have hcases := sweepLoop_cases s.t3.records.length (min SWEEP_BATCH s.t3.records.length)
        (s.consolCursor % s.t3.records.length) 0 s (Nat.mod_lt _ (Nat.pos_of_ne_zero hlen))
      rw [hbudget]
      generalize sweepLoop s.t3.records.length (min SWEEP_BATCH s.t3.records.length)
        (s.consolCursor % s.t3.records.length) 0 s = swept at hcases ⊢
      obtain ⟨ht3, hl⟩ := audited_cursor swept.2 ((s.consolCursor % s.t3.records.length +
        min SWEEP_BATCH s.t3.records.length) % s.t3.records.length)
      rcases hcases with ⟨hdem, hacc⟩ | ⟨hkeep, hcore, hledger⟩
      · exact .inl ⟨hdem, hacc.of_ledger (Eq.refl (ledger s)) hl⟩
      · refine .inr ⟨?_, ht3.trans (congrArg Prod.fst hcore), hl.trans hledger⟩
        rintro ⟨k, hk, hdem⟩
        rw [hkeep k hk] at hdem
        cases hdem

/-! ### The cycle -/

theorem Derives.of_length {s t u : MemSubstrate} (h : Derives t u)
    (hlen : t.t3.records.length = s.t3.records.length) : Derives s u := by
  obtain ⟨i, r, hi, hr, hne⟩ := h
  exact ⟨i, r, hlen ▸ hi, hr, hne⟩

/-- Only the records decide. -/
theorem Mutates.of_t3 {s t u : MemSubstrate} (h : Mutates s t) (heq : u.t3 = t.t3) : Mutates s u := by
  rw [Mutates, Tombstones, Demotes, Derives, hotIds, heq]
  exact h

/-- Distillation and reflection together never append; they mutate exactly when one of
them finds something to do. -/
theorem reflected_cases {s : MemSubstrate} (hs : Lockstep s) :
    ledger (s.distill.2.reflectInner 0).2 = ledger s ∧
      ((s.clock ≠ 0 ∧ s.distillPlan ≠ [] ∨ Reflects s.distill.2) ∧
          Mutates s (s.distill.2.reflectInner 0).2 ∨
        ¬ (s.clock ≠ 0 ∧ s.distillPlan ≠ [] ∨ Reflects s.distill.2) ∧
          standings (s.distill.2.reflectInner 0).2 = standings s) := by
  obtain ⟨hlen, hledger⟩ := merging_distill s
  by_cases hrefl : Reflects s.distill.2
  · obtain ⟨hder, hsame⟩ := reflects_derives hrefl 0
    exact ⟨hsame.trans hledger, .inl ⟨.inr hrefl, .inr (.inr (.inl (hder.of_length hlen)))⟩⟩
  · rw [not_reflects hrefl]
    refine ⟨hledger, ?_⟩
    by_cases hmerge : s.clock ≠ 0 ∧ s.distillPlan ≠ []
    · exact .inl ⟨.inl hmerge, .inl (distill_tombstones hs hmerge.1 hmerge.2)⟩
    · exact .inr ⟨not_or.mpr ⟨hmerge, hrefl⟩, distill_same hs hmerge⟩

theorem settle_keeps (s : MemSubstrate) : s.settle.t3 = s.t3 ∧ ledger s.settle = ledger s := ⟨rfl, rfl⟩

theorem consolidationCycle_audited {s : MemSubstrate} (hs : Lockstep s) :
    Audited (SilentCycle s) s s.consolidationCycle.2 := by
  obtain ⟨hledger, hcases⟩ := reflected_cases hs
  obtain ⟨ht3, hsettled⟩ := settle_keeps (s.distill.2.reflectInner 0).2.forgetSweep.2
  rw [consolidationCycle]
  dsimp only
  rcases forgetSweep_cases (s.distill.2.reflectInner 0).2 with ⟨hdem, hacc⟩ | ⟨hdem, hsame, hkept⟩
  · exact .inl ⟨fun h => h.2 hdem, .inr (hacc.of_ledger hledger.symm hsettled)⟩
  · rcases hcases with ⟨hwork, hmut⟩ | ⟨hidle, hstand⟩
    · exact .inr ⟨⟨hwork, hdem⟩, hmut.of_t3 (ht3.trans hsame), hsettled.trans (hkept.trans hledger)⟩
    · refine .inl ⟨fun h => hidle h.1, .inl ?_⟩
      rw [← hstand, standings, standings, ht3, hsame]

theorem reflectInner_audited (s : MemSubstrate) (modelToken : BitVec 64) :
    Audited (Reflects s) s (s.reflectInner modelToken).2 := by
  by_cases hrefl : Reflects s
  · obtain ⟨hder, hledger⟩ := reflects_derives hrefl modelToken
    exact .inr ⟨hrefl, .inr (.inr (.inl hder)), hledger⟩
  · refine .inl ⟨hrefl, .inl ?_⟩
    rw [not_reflects hrefl]

theorem forgetSweep_audited (s : MemSubstrate) : Audited False s s.forgetSweep.2 := by
  rcases forgetSweep_cases s with ⟨-, hacc⟩ | ⟨-, hsame, -⟩
  · exact .inl ⟨not_false, .inr hacc⟩
  · refine Audited.same ?_
    rw [standings, hsame]
    rfl

theorem link_same (s : MemSubstrate) (a b c : BitVec 64) :
    standings (s.link a b c).2 = standings s :=
  Update.map_replaceF (standing_linked _) _

/-- The selector as the source matches on it. -/
theorem silent_consolidate (s : MemSubstrate) (op a b c : BitVec 64) :
    Silent s (.consolidate op a b c) ↔
      op.toNat = 0 ∧ (s.clock ≠ 0 ∧ ∃ r ∈ s.t3.records, r.id = a ∧ r.tInvalid = 0) ∨
        op.toNat = 3 ∧ SilentCycle s ∨ op.toNat = 4 ∧ Reflects s := by
  have h0 : op = 0 ↔ op.toNat = 0 := BitVec.toNat_eq
  have h3 : op = 3 ↔ op.toNat = 3 := BitVec.toNat_eq
  have h4 : op = 4 ↔ op.toNat = 4 := BitVec.toNat_eq
  rw [Silent, h0, h3, h4]

theorem consolidate_audited {s : MemSubstrate} (hs : Lockstep s) (op a b c : BitVec 64) :
    Audited (Silent s (.consolidate op a b c)) s (s.consolidate op a b c).2 := by
  rw [consolidate, silent_consolidate]
  split
  case h_1 hop => simpa [hop] using tombstone_audited s a
  case h_2 hop => simpa [hop] using Audited.same (link_same s a b c)
  case h_4 hop => simpa [hop] using consolidationCycle_audited hs
  case h_5 hop => simpa [hop] using reflectInner_audited s a
  case h_6 hop => simpa [hop] using forgetSweep_audited s
  case h_3 hop => exact .idle rfl (by simp [hop])
  case h_7 hop => exact .idle rfl (by simp [hop])
  case h_8 hop => exact .idle rfl (by simp [hop])
  case h_9 hop =>
      refine .idle ?_ (by simp [hop])
      split <;> rfl
  case h_10 h0 _ _ h3 h4 _ _ _ _ =>
      refine .idle rfl ?_
      rintro (⟨hop, -⟩ | ⟨hop, -⟩ | ⟨hop, -⟩)
      · exact h0 hop
      · exact h3 hop
      · exact h4 hop

/-! ### Skills -/

theorem skillAddClass_same (s : MemSubstrate) (body desc packed : BitVec 64) (prov : UInt8) :
    standings (s.skillAddClass body desc packed prov).2 = standings s := by
  rw [skillAddClass]
  split
  · rfl
  · dsimp only
    refine congrArg (fun t : SemanticStore => t.records.map MemRecord.standing) ?_
    exact congrArg Prod.fst (core_ledgerAppend _ _ _ _ _ _)

theorem writeProc_same (s : MemSubstrate) (op a b c : BitVec 64) :
    standings (s.writeProc op a b c).2 = standings s := by
  rw [writeProc]
  split
  case h_1 => exact skillAddClass_same s a b c 0
  case h_6 => exact skillAddClass_same s a b c SKILL_PROV_EMIT_EXTERNAL
  case h_2 =>
      rw [skillBumpUtil]
      split <;> rfl
  case h_4 =>
      rw [skillLink]
      split <;> rfl
  all_goals rfl

theorem skillAdmit_same (s : MemSubstrate) (id : BitVec 64) (score : BitVec 32) :
    standings (s.skillAdmit id score).2 = standings s := by
  rw [skillAdmit]
  split
  · rfl
  · dsimp only
    split <;> rfl

/-! ## Runs -/

/-- In lockstep the condition is exact: an operation is silent, or it changes no
standing, or it appends. -/
theorem step_audited {s : MemSubstrate} (hs : Lockstep s) : ∀ op : Op, Audited (Silent s op) s (step s op)
  | .write op key value packed => write_audited s op key value packed
  | .readTouch id => readTouch_audited s id
  | .tbRecall query cursor k weights => tbRecall_audited s query cursor k weights
  | .consolidate op a b c => consolidate_audited hs op a b c
  | .writeProc op a b c => Audited.same (writeProc_same s op a b c)
  | .seedHeldout target base n => seedHeldout_audited s target base n
  | .skillAdmit id score => Audited.same (skillAdmit_same s id score)
  | .corpusEmitOperatorTurn .. => Audited.same (standings_of_core (core_corpusEmit s _ _ _ _ _ _))
  | .corpusEmitLabeledOutcome .. => Audited.same (standings_of_core (core_corpusEmit s _ _ _ _ _ _))

/-- Every mutation of the run is entered in the ledger by the operation that makes it. -/
def Provable (ops : List Op) : Prop :=
  ∀ pre op post, ops = pre ++ op :: post →
    Mutates (reached pre) (step (reached pre) op) → Accounted (reached pre) (step (reached pre) op)

/-- A run keeps its deletions provable exactly when none of its operations is silent. -/
theorem mutations_accounted_along_runs (ops : List Op) :
    Provable ops ↔ Guarded step (fun s op => ¬ Silent s op) new ops := by
  rw [guarded_iff]
  refine forall_congr' fun pre => forall_congr' fun op => forall_congr' fun post =>
    forall_congr' fun hops => ?_
  obtain ⟨j, -, hj, -, -⟩ := reached_mirrors pre []
  exact (step_audited hj.lockstep op).iff

/-- One record written, then tombstoned by the maintenance operation. -/
theorem tombstone_unaccounted :
    ¬ Provable [.write 0 7 70 3, .consolidate 0 0 0 0] := by
  intro h
  have htomb : ∃ r r', (reached [.write 0 7 70 3]).t3.records[0]? = some r ∧
      (step (reached [.write 0 7 70 3]) (.consolidate 0 0 0 0)).t3.records[0]? = some r' ∧
      r.tInvalid = 0 ∧ r'.tInvalid ≠ 0 := ⟨_, _, rfl, rfl, rfl, by decide⟩
  exact not_accounted rfl (h [.write 0 7 70 3] (.consolidate 0 0 0 0) [] rfl (.inl ⟨0, htomb⟩))

end Yuva.Mem
