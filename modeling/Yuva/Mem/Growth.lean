/-
# `Yuva.Mem.Growth` — which appends the quota pays for

The quota is charged for records and skills.  Almost every operation appends something
else beside them: links, lineage entries, ids in the three logs.  `load` counts all of it,
and three more for each live record: what its death may append (a deletion one ledger
entry; a merging two links, and one corpus id for the cluster).  An operation then *pays*
when what it adds to the load is at most 21 for each token it charges:

    a write adds a record and a ledger id                              4 + 1
    a reflection an insight, at most 16 links and a corpus id     4 + 16 + 1
    a proposed skill a ledger id                                           1
    a deletion, and a merging, spend what the record was counted for

`Unpaid` is the rest, as a predicate on the state before: the operation appends, and
neither a token nor a death pays for it.
-/
import Mathlib.Data.List.Nodup
import Yuva.Mem.Failures

namespace Yuva.Mem

open Yuva.Hash Yuva.Machine Yuva.Run MemSubstrate

/-! ## What a substrate holds -/

/-- The elements in the structures that grow. -/
def size (s : MemSubstrate) : Nat :=
  s.t3.records.length + (s.t3.lexical.toList.map fun p => p.2.length).sum +
    (s.t3.records.map fun r => r.links.length).sum + (s.t4.skills.map fun k => k.lineage.length).sum +
    s.ledgerIds.length + s.xpIds.length + s.corpusIds.length

/-- A record, its links, and what its death may append. -/
def MemRecord.weight (r : MemRecord) : Nat := 1 + r.links.length + if r.tInvalid = 0 then 3 else 0

def weights (s : MemSubstrate) : Nat := (s.t3.records.map MemRecord.weight).sum

/-- The entries of the lineages and the ids of the logs. -/
def entered (s : MemSubstrate) : Nat :=
  (s.t4.skills.map fun k => k.lineage.length).sum + s.ledgerIds.length + s.xpIds.length +
    s.corpusIds.length

def load (s : MemSubstrate) : Nat := weights s + entered s

/-- What was added was charged. -/
def Pays (s s' : MemSubstrate) : Prop :=
  load s' + 21 * s.quota.tokensWritten ≤ load s + 21 * s'.quota.tokensWritten

theorem Pays.of_le {s s' : MemSubstrate} (h : load s' ≤ load s)
    (hq : s'.quota.tokensWritten = s.quota.tokensWritten) : Pays s s' := by
  rw [Pays, hq]
  omega

theorem Pays.refl (s : MemSubstrate) : Pays s s := Nat.le_refl _

theorem Pays.trans {s s' s'' : MemSubstrate} (h : Pays s s') (h' : Pays s' s'') : Pays s s'' := by
  rw [Pays] at *
  omega

/-! ## The condition -/

/-- The window of the next sweep holds a record past its grace. -/
def Examines (s : MemSubstrate) : Prop :=
  ∃ k, k < min SWEEP_BATCH s.t3.records.length ∧
    (forgetDecision s.clock s.t3.records[(s.consolCursor % s.t3.records.length + k) %
      s.t3.records.length]!).2 ≠ none

/-- The operation appends, and neither a token nor a death pays for it. -/
def Unpaid (s : MemSubstrate) : Op → Prop
  | .write op key _ _ => op = 2 ∧ s.clock = 0 ∧ ∃ r ∈ s.t3.records, r.token = key ∧ r.tInvalid = 0
  | .readTouch id => s.read id ≠ none
  | .tbRecall query cursor _ _ => Eligible (s.fresh cursor) query
  | .consolidate op a _ _ =>
      op.toNat = 1 ∧ (∃ r ∈ s.t3.records, r.id = a) ∨
      op.toNat = 3 ∧ (s.clock = 0 ∧ s.distillPlan ≠ [] ∨ Examines (s.distill.2.reflectInner 0).2) ∨
      op.toNat = 5 ∧ Examines s
  | .writeProc op id _ _ => op.toNat = 3 ∧ s.skillIdx id ≠ none
  | .skillAdmit id _ => s.skillIdx id ≠ none
  | .seedHeldout .. => False
  | .corpusEmitOperatorTurn .. | .corpusEmitLabeledOutcome .. => True

/-! ## What an edit costs -/

section Weights

variable {clock : BitVec 64} {edges : List (UInt8 × BitVec 64)} {r : MemRecord}

theorem weight_linked : (r.linked edges).weight = r.weight + edges.length := by
  rw [MemRecord.weight, MemRecord.weight, MemRecord.linked, List.length_append]
  dsimp only
  omega

theorem weight_asDistilled : r.asDistilled.weight = r.weight := rfl

theorem weight_strengthen : r.strengthen.weight = r.weight := rfl

/-- A death gives back what the live record was counted for. -/
theorem weight_invalidate (hclock : clock ≠ 0) (h : r.tInvalid = 0) :
    (r.invalidate clock).weight + 3 = r.weight := by
  have hdead : (r.invalidate clock).weight = 1 + r.links.length + if clock = 0 then 3 else 0 := rfl
  rw [hdead, MemRecord.weight, if_pos h, if_neg hclock]

theorem weight_invalidate_le (h : r.tInvalid = 0) : (r.invalidate clock).weight ≤ r.weight := by
  by_cases hclock : clock = 0
  · have hsame : (r.invalidate clock).weight = 1 + r.links.length + if clock = 0 then 3 else 0 := rfl
    rw [hsame, MemRecord.weight, if_pos h, if_pos hclock]
  · have hspent := weight_invalidate hclock h
    omega

end Weights

theorem load_ledgerAppend (s : MemSubstrate) (kind : UInt8) (tok : BitVec 64) (tier : UInt8)
    (writer : BitVec 64) :
    load (s.ledgerAppend kind tok tier writer s.parentOfHead).2 = load s + 1 ∧
      (s.ledgerAppend kind tok tier writer s.parentOfHead).2.quota = s.quota := by
  rw [ledgerAppend_eq]
  have hids : ∀ id : Bytes32, weights s + ((s.t4.skills.map fun k => k.lineage.length).sum +
      (s.ledgerIds ++ [id]).length + s.xpIds.length + s.corpusIds.length) = load s + 1 := by
    intro id
    rw [List.length_append, List.length_singleton, load, entered]
    omega
  exact ⟨hids _, rfl⟩

theorem load_corpusEmit (s : MemSubstrate) (kind stream verdict : UInt8) (tok aux : BitVec 64)
    (outcome : Corpus.OutcomeLabel) :
    load (s.corpusEmit kind stream verdict tok aux outcome) = load s + 1 ∧
      (s.corpusEmit kind stream verdict tok aux outcome).quota = s.quota := by
  rw [corpusEmit, Corpus.corpusAppend_eq]
  dsimp only
  have hids : ∀ id : Bytes32, weights s + ((s.t4.skills.map fun k => k.lineage.length).sum +
      s.ledgerIds.length + s.xpIds.length + (s.corpusIds ++ [id]).length) = load s + 1 := by
    intro id
    rw [List.length_append, List.length_singleton, load, entered]
    omega
  split <;> exact ⟨hids _, rfl⟩

theorem load_withRecords (s : MemSubstrate) (records : List MemRecord) :
    load (s.withRecords records) + weights s = load s + (records.map MemRecord.weight).sum := by
  show (records.map MemRecord.weight).sum + entered s + weights s = weights s + entered s + _
  omega

/-- A record appended within the quota, or nothing. -/
theorem pushRecord_load (s : MemSubstrate) (token value : BitVec 64) (importance : Nat)
    (provenance : Provenance) (links : List (UInt8 × BitVec 64)) :
    s.pushRecord token value importance provenance links = (none, s) ∨
    load (s.pushRecord token value importance provenance links).2 = load s + 4 + links.length ∧
      (s.pushRecord token value importance provenance links).2.quota.tokensWritten =
        s.quota.tokensWritten + 1 := by
  rw [pushRecord]
  split
  · exact .inl rfl
  · next hover =>
      right
      constructor
      · have hweights : weights (s.appendRecord token value importance provenance links) =
            weights s + (4 + links.length) := by
          rw [weights, appendRecord]
          dsimp only
          rw [List.map_append, List.sum_append, List.map_singleton, List.sum_singleton,
            MemRecord.weight, if_pos rfl, weights]
          dsimp only
          omega
        show weights (s.appendRecord token value importance provenance links) + entered s = _
        rw [hweights, load]
        omega
      · show satU 64 (s.quota.tokensWritten + 1) = _
        rw [TOKEN_QUOTA] at hover
        rw [satU] at hover ⊢
        omega

/-! ## Writing and reading -/

/-- A deletion that finds a record spends it; one that does not leaves the load. -/
theorem delete_load (s : MemSubstrate) (key : BitVec 64) :
    (s.delete key).2.quota = s.quota ∧
      ((s.delete key).1 = none ∧ load (s.delete key).2 = load s ∨
        (∃ r ∈ s.t3.records, r.token = key ∧ r.tInvalid = 0) ∧
          (s.clock ≠ 0 → load (s.delete key).2 + 3 = load s)) := by
  have hload : load (s.delete key).2 = load (s.withRecords (s.t3.records.reverse.replaceF fun r =>
      if r.token == key && r.tInvalid == 0 then some (r.invalidate s.clock) else none).reverse) := by
    rw [delete]
    dsimp only
    split <;> rfl
  have hdiff := load_withRecords s (s.t3.records.reverse.replaceF fun r =>
    if r.token == key && r.tInvalid == 0 then some (r.invalidate s.clock) else none).reverse
  rw [← hload, List.map_reverse, List.sum_reverse] at hdiff
  have hrev : (s.t3.records.reverse.map MemRecord.weight).sum = weights s := by
    rw [List.map_reverse, List.sum_reverse, weights]
  refine ⟨by rw [delete]; dsimp only; split <;> rfl, ?_⟩
  cases hfind : s.t3.records.reverse.find? fun r => r.token == key && r.tInvalid == 0 with
  | none =>
      refine .inl ⟨by rw [delete]; dsimp only; rw [hfind]; rfl, ?_⟩
      rw [List.replaceF_of_forall_none fun r hr => if_neg (List.find?_eq_none.mp hfind r hr), hrev] at hdiff
      omega
  | some r =>
      have hr : r.token = key ∧ r.tInvalid = 0 := by
        simpa only [Bool.and_eq_true, beq_iff_eq] using List.find?_some hfind
      refine .inr ⟨⟨r, List.mem_reverse.mp (List.mem_of_find?_eq_some hfind), hr⟩, fun hclock => ?_⟩
      have hsum := Update.sum_replaceF (w := MemRecord.weight) (f := MemRecord.invalidate s.clock) hfind
      have hspent := weight_invalidate hclock hr.2
      rw [hrev] at hsum
      omega

/-- The store part of a write pays, with one to spare for the entry in the ledger. -/
theorem write_store_pays {s : MemSubstrate} {op key value packed : BitVec 64}
    (h : ¬ Unpaid s (.write op key value packed)) {p : Option (BitVec 64) × MemSubstrate}
    (hp : (if op = 0 ∨ op = 1 then s.add key value packed
      else if op = 2 then s.delete key else (some 0, s)) = p) :
    Pays s p.2 ∧ (p.1 ≠ none → op ≤ 2 →
      load p.2 + 1 + 21 * s.quota.tokensWritten ≤ load s + 21 * p.2.quota.tokensWritten) := by
  split at hp
  · have haccrue : ∀ imp, load (s.accrue imp) = load s ∧ (s.accrue imp).quota = s.quota :=
      fun _ => ⟨rfl, rfl⟩
    obtain ⟨hload, hquota⟩ := haccrue (max 1 (min (packed &&& 0xFF).toNat 10))
    rw [← hp, add]
    rcases pushRecord_load (s.accrue (max 1 (min (packed &&& 0xFF).toNat 10))) key value
      (max 1 (min (packed &&& 0xFF).toNat 10)) .episodic [] with hfull | ⟨hpush, htok⟩
    · rw [hfull]
      exact ⟨Pays.refl s, fun hno => absurd rfl hno⟩
    · rw [hload, List.length_nil] at hpush
      rw [hquota] at htok
      rw [Pays]
      exact ⟨by omega, fun _ _ => by omega⟩
  · split at hp
    · next hdel =>
        rw [Unpaid, not_and, not_and] at h
        obtain ⟨hquota, hcases⟩ := delete_load s key
        rw [← hp, Pays, hquota]
        rcases hcases with ⟨hnone, hsame⟩ | ⟨hrec, hspent⟩
        · exact ⟨by omega, fun hsome => absurd hnone hsome⟩
        · have hload := hspent fun hclock => h hdel hclock hrec
          exact ⟨by omega, fun _ _ => by omega⟩
    · next hadd hdel =>
        rw [← hp]
        refine ⟨Pays.refl s, fun _ hle => absurd hle ?_⟩
        have h0 : op.toNat ≠ 0 := fun heq => hadd (.inl (BitVec.eq_of_toNat_eq heq))
        have h1 : op.toNat ≠ 1 := fun heq => hadd (.inr (BitVec.eq_of_toNat_eq heq))
        have h2 : op.toNat ≠ 2 := fun heq => hdel (BitVec.eq_of_toNat_eq heq)
        rw [BitVec.le_def]
        show ¬ op.toNat ≤ 2
        omega

theorem write_pays {s : MemSubstrate} {op key value packed : BitVec 64}
    (h : ¬ Unpaid s (.write op key value packed)) : Pays s (s.write op key value packed).2 := by
  obtain ⟨hpays, hspare⟩ := write_store_pays h rfl
  rw [write]
  dsimp only
  split
  · exact hpays
  · next rid hsome =>
      split
      · next hle =>
          have hroom := hspare (by rw [hsome]; exact Option.some_ne_none rid) hle
          obtain ⟨hload, hquota⟩ := load_ledgerAppend (if op = 0 ∨ op = 1 then s.add key value packed
            else if op = 2 then s.delete key else (some 0, s)).2 Prov.Kind.WRITE key
            (UInt8.ofNat (packed &&& 0xFF).toNat) rid
          rw [Pays, hload, hquota]
          exact hroom
      · exact hpays

theorem readTouch_pays {s : MemSubstrate} {id : BitVec 64} (h : ¬ Unpaid s (.readTouch id)) :
    Pays s (s.readTouch id).2 := by
  rw [readTouch, not_not.mp h]
  exact Pays.refl s

theorem tbRecall_pays {s : MemSubstrate} {query cursor k weights : BitVec 64}
    (h : ¬ Unpaid s (.tbRecall query cursor k weights)) : Pays s (s.tbRecall query cursor k weights).2 := by
  rw [tbRecall_eq]
  rcases retrieve_cases (s.fresh cursor) query with ⟨-, hsame⟩ | ⟨helig, -⟩
  · rw [hsame, fresh]
    dsimp only
    split <;> exact Pays.refl s
  · exact absurd helig h

/-! ## Skills -/

theorem load_withSkills {s : MemSubstrate} {skills : List SkillRecord}
    (h : skills.map SkillRecord.lineage = s.t4.skills.map SkillRecord.lineage) :
    load (s.withSkills skills) = load s := by
  have hsum : (skills.map fun k => k.lineage.length).sum = (s.t4.skills.map fun k => k.lineage.length).sum := by
    have hlens := congrArg (fun l => (l.map List.length).sum) h
    rw [List.map_map, List.map_map] at hlens
    exact hlens
  show weights s + ((skills.map fun k => k.lineage.length).sum + _ + _ + _) = _
  rw [hsum]
  rfl

theorem skillAddClass_pays (s : MemSubstrate) (body desc packed : BitVec 64) (prov : UInt8) :
    Pays s (s.skillAddClass body desc packed prov).2 := by
  rw [skillAddClass]
  split
  · exact Pays.refl s
  · next hover =>
      dsimp only
      generalize hskill : SkillRecord.mk _ _ _ _ _ _ _ _ _ _ _ = skill
      have hempty : skill.lineage = [] := hskill ▸ rfl
      -- the substrate before the entry in the ledger
      generalize ht : tick _ = t
      have hsum : (t.t4.skills.map fun k => k.lineage.length).sum =
          (s.t4.skills.map fun k => k.lineage.length).sum := by
        rw [← ht]
        show ((s.t4.skills ++ [skill]).map _).sum = _
        rw [List.map_append, List.sum_append, List.map_singleton, List.sum_singleton, hempty]
        rfl
      have hload : load t = load s := by
        rw [load, entered, hsum, ← ht]
        rfl
      have htok : t.quota.tokensWritten = s.quota.tokensWritten + 1 := by
        rw [← ht]
        show satU 64 (s.quota.tokensWritten + 1) = _
        rw [TOKEN_QUOTA] at hover
        rw [satU] at hover ⊢
        omega
      obtain ⟨hadd, hquota⟩ := load_ledgerAppend t Prov.Kind.SKILL_ADMIT body prov s.t4.nextId
      rw [Pays, hadd, hquota, hload, htok]
      omega

theorem writeProc_pays {s : MemSubstrate} {op a b c : BitVec 64} (h : ¬ Unpaid s (.writeProc op a b c)) :
    Pays s (s.writeProc op a b c).2 := by
  rw [Unpaid, not_and, not_not] at h
  rw [writeProc]
  split
  case h_1 => exact skillAddClass_pays s a b c 0
  case h_6 => exact skillAddClass_pays s a b c SKILL_PROV_EMIT_EXTERNAL
  case h_2 =>
      rw [skillBumpUtil]
      split
      · exact Pays.refl s
      · next i _ =>
          have hkeep : ∀ k, (bumped b k).lineage = k.lineage := fun _ => rfl
          exact Pays.of_le (Nat.le_of_eq (load_withSkills (Update.map_modify hkeep s.t4.skills i))) rfl
  case h_4 hop =>
      rw [skillLink, h hop]
      exact Pays.refl s
  all_goals exact Pays.refl s

theorem skillAdmit_pays {s : MemSubstrate} {id : BitVec 64} {score : BitVec 32}
    (h : ¬ Unpaid s (.skillAdmit id score)) : Pays s (s.skillAdmit id score).2 := by
  rw [skillAdmit, not_not.mp h]
  exact Pays.refl s

/-! ## The sweep -/

/-- A record that is not examined is not demoted either. -/
theorem sweepOne_idle {s : MemSubstrate} {idx : Nat}
    (h : (forgetDecision s.clock s.t3.records[idx]!).2 = none) : s.sweepOne idx = (0, s) := by
  have hkeep : (forgetDecision s.clock s.t3.records[idx]!).1 = false := by
    rw [forgetDecision] at h ⊢
    split
    · rfl
    · next hactive =>
        rw [if_neg hactive] at h
        dsimp only at h ⊢
        split
        · rfl
        · next hold =>
            rw [if_neg hold] at h
            cases h
  rw [sweepOne]
  dsimp only
  rw [h, hkeep]
  rfl

theorem sweepLoop_idle {len : Nat} {s : MemSubstrate} (budget : Nat) : ∀ (idx n : Nat), idx < len →
    (∀ k, k < budget → (forgetDecision s.clock s.t3.records[(idx + k) % len]!).2 = none) →
    sweepLoop len budget idx n s = (n, s) := by
  induction budget with
  | zero => intro idx n _ _; rfl
  | succ budget ih =>
      intro idx n hidx h
      have hfirst := h 0 (Nat.zero_lt_succ budget)
      rw [Nat.add_zero, Nat.mod_eq_of_lt hidx] at hfirst
      have hlen : 0 < len := Nat.lt_of_le_of_lt (Nat.zero_le idx) hidx
      rw [sweepLoop, sweepOne_idle hfirst]
      refine ih ((idx + 1) % len) n (Nat.mod_lt _ hlen) fun k hk => ?_
      rw [Nat.mod_add_mod, Nat.add_assoc, Nat.add_comm 1 k]
      exact h (k + 1) (Nat.succ_lt_succ hk)

theorem forgetSweep_pays {s : MemSubstrate} (h : ¬ Examines s) : Pays s s.forgetSweep.2 := by
  rw [forgetSweep]
  dsimp only
  split
  · exact Pays.refl s
  · next hlen =>
      have hbudget : (if SWEEP_BATCH < s.t3.records.length then SWEEP_BATCH else s.t3.records.length) =
          min SWEEP_BATCH s.t3.records.length := by
        split <;> omega
      rw [hbudget, sweepLoop_idle _ _ _ (Nat.mod_lt _ (Nat.pos_of_ne_zero hlen))]
      · exact Pays.refl s
      · intro k hk
        exact not_not.mp fun hne => h ⟨k, hk, hne⟩

/-! ## Reflection -/

theorem citeLoop_length {rs : List MemRecord} {cites : List (BitVec 64)} {digest : BitVec 64}
    (h : cites.length < REFLECT_WINDOW) : (citeLoop rs cites digest).1.length ≤ REFLECT_WINDOW := by
  induction rs generalizing cites digest with
  | nil => exact Nat.le_of_lt h
  | cons r rs ih =>
      have hlen : ∀ id : BitVec 64, (cites ++ [id]).length = cites.length + 1 := fun id => by
        rw [List.length_append, List.length_singleton]
      rw [citeLoop]
      split
      · dsimp only
        split
        · rw [hlen]
          exact h
        · next hmore => exact ih (Nat.lt_of_not_le hmore)
      · exact ih h

theorem weight_strengthenCited (records : List MemRecord) (cid : BitVec 64) :
    (strengthenCited records cid).map MemRecord.weight = records.map MemRecord.weight :=
  Update.map_replaceF (fun _ => weight_strengthen) _

/-- An insight is charged like a record; its links are as many as the window allows. -/
theorem reflectInner_pays (s : MemSubstrate) (modelToken : BitVec 64) :
    Pays s (s.reflectInner modelToken).2 := by
  have hcites : (citeLoop s.t3.records.reverse [] REFLECT_SEED).1.length ≤ 16 :=
    citeLoop_length (Nat.zero_lt_succ 15)
  rw [reflectInner]
  dsimp only
  split
  · exact Pays.refl s
  · generalize (citeLoop s.t3.records.reverse [] REFLECT_SEED).1 = cites at hcites ⊢
    generalize (if modelToken ≠ 0 then modelToken else _) = token
    have hpush := pushRecord_load s token token REFLECT_IMP .insight (cites.map fun id => (LINK_CITES, id))
    rw [List.length_map] at hpush
    generalize s.pushRecord token token REFLECT_IMP .insight _ = p at hpush ⊢
    obtain ⟨_ | newId, t⟩ := p
    · rcases hpush with hfull | ⟨hload, htok⟩
      · rw [congrArg Prod.snd hfull]
        exact Pays.refl s
      · show Pays s t
        rw [Pays]
        dsimp only at hload htok
        omega
    · rcases hpush with hfull | ⟨hload, htok⟩
      · cases hfull
      · dsimp only at hload htok ⊢
        have hkeep : load (t.withRecords (cites.foldl strengthenCited t.t3.records)) = load t := by
          have hsame := load_withRecords t (cites.foldl strengthenCited t.t3.records)
          rw [Update.foldl_keeps weight_strengthenCited, ← weights] at hsame
          omega
        obtain ⟨hadd, hquota⟩ := load_corpusEmit (t.withRecords (cites.foldl strengthenCited t.t3.records))
          Corpus.ExampleKind.EPISODIC_CONSOLIDATION Corpus.SourceStream.M17_REFLECT
          (corpusCurate token REFLECT_IMP) token 0 .unset
        rw [Pays, corpusEmitConsolidation, hadd, hquota, hkeep]
        show load t + 1 + _ ≤ load s + 21 * t.quota.tokensWritten
        omega

/-! ## Distillation -/

/-- The record at `i` is live. -/
def LiveAt (s : MemSubstrate) (i : Nat) : Prop := ∃ r, s.t3.records[i]? = some r ∧ r.tInvalid = 0

theorem LiveAt.of_standings {s t : MemSubstrate} {i : Nat} (h : LiveAt s i)
    (heq : standings t = standings s) : LiveAt t i := by
  obtain ⟨r, hr, hlive⟩ := h
  have hlt : i < t.t3.records.length := by
    rw [← standings_length, heq, standings_length]
    exact (List.getElem?_eq_some_iff.mp hr).1
  refine ⟨_, List.getElem?_eq_getElem hlt, ?_⟩
  have hst := standing_of_get heq hr (List.getElem?_eq_getElem hlt)
  exact (Prod.mk.inj (Prod.mk.inj hst).2).1.trans hlive

section Merge

variable {t : MemSubstrate} {surv loser : Nat}

/-- Merging kills the loser only. -/
theorem liveAt_mergeLoser {i : Nat} (hne : loser ≠ i) (h : LiveAt t i) : LiveAt (mergeLoser surv t loser) i := by
  obtain ⟨r, hr, hlive⟩ := h
  refine ⟨_, (records_mergeLoser i).trans (by rw [hr]; rfl), ?_⟩
  dsimp only
  rw [if_neg hne]
  split
  · exact hlive
  · exact hlive

/-- The death of the loser pays for the two links of the survivor. -/
theorem load_mergeLoser (hclock : t.clock ≠ 0) (h : LiveAt t loser) :
    load (mergeLoser surv t loser) + 1 ≤ load t := by
  obtain ⟨r, hr, hlive⟩ := h
  have hspent := weight_invalidate hclock hlive
  have hdead := Update.sum_modify (w := MemRecord.weight) (f := MemRecord.invalidate t.clock) hr
  have hlink : ((((t.t3.records.modify loser (MemRecord.invalidate t.clock)).modify surv
      (MemRecord.linked [(LINK_SUPERSEDES, t.t3.records[loser]!.id),
        (LINK_CITES, t.t3.records[loser]!.id)])).map MemRecord.weight).sum ≤
      ((t.t3.records.modify loser (MemRecord.invalidate t.clock)).map MemRecord.weight).sum + 2) := by
    generalize t.t3.records.modify loser (MemRecord.invalidate t.clock) = records
    cases hsurv : records[surv]? with
    | none =>
        rw [List.modify_eq_self (List.getElem?_eq_none_iff.mp hsurv)]
        exact Nat.le_add_right _ 2
    | some r' =>
        have hsum := Update.sum_modify (w := MemRecord.weight)
          (f := MemRecord.linked [(LINK_SUPERSEDES, t.t3.records[loser]!.id),
            (LINK_CITES, t.t3.records[loser]!.id)]) hsurv
        rw [weight_linked] at hsum
        simp only [List.length_cons, List.length_nil] at hsum
        omega
  have hdiff := load_withRecords t ((t.t3.records.modify loser (MemRecord.invalidate t.clock)).modify surv
    (MemRecord.linked [(LINK_SUPERSEDES, t.t3.records[loser]!.id), (LINK_CITES, t.t3.records[loser]!.id)]))
  rw [weights] at hdiff
  show load (t.withRecords _) + 1 ≤ load t
  omega

end Merge

/-- Distinct live losers each leave one over. -/
theorem load_losers {surv : Nat} {losers : List Nat} {t : MemSubstrate} (hclock : t.clock ≠ 0)
    (hnodup : losers.Nodup) (hlive : ∀ l ∈ losers, LiveAt t l) :
    load (losers.foldl (mergeLoser surv) t) + losers.length ≤ load t ∧
      ∀ i, i ∉ losers → LiveAt t i → LiveAt (losers.foldl (mergeLoser surv) t) i := by
  induction losers generalizing t with
  | nil => exact ⟨Nat.le_refl _, fun _ _ h => h⟩
  | cons loser losers ih =>
      obtain ⟨hnew, hnodup⟩ := List.nodup_cons.mp hnodup
      obtain ⟨hload, hkeep⟩ := ih (t := mergeLoser surv t loser) hclock hnodup fun l hl =>
        liveAt_mergeLoser (fun heq => hnew (heq ▸ hl)) (hlive l (List.mem_cons_of_mem _ hl))
      have hfirst : load (mergeLoser surv t loser) + 1 ≤ load t :=
        load_mergeLoser hclock (hlive loser List.mem_cons_self)
      refine ⟨?_, fun i hi h => ?_⟩
      · rw [List.foldl_cons, List.length_cons]
        omega
      · rw [List.mem_cons, not_or] at hi
        exact hkeep i hi.2 (liveAt_mergeLoser (Ne.symm hi.1) h)

/-- What the losers of a cluster leave over pays for its corpus id. -/
theorem load_mergeCluster {c : Nat × List Nat} {t : MemSubstrate} (hclock : t.clock ≠ 0)
    (hne : c.2 ≠ []) (hnodup : c.2.Nodup) (hlive : ∀ l ∈ c.2, LiveAt t l) :
    load (mergeCluster t c) ≤ load t ∧
      ∀ i, i ∉ c.2 → LiveAt t i → LiveAt (mergeCluster t c) i := by
  obtain ⟨hload, hkeep⟩ : load (c.2.foldl (mergeLoser c.1) t) + c.2.length ≤ load t ∧
      ∀ i, i ∉ c.2 → LiveAt t i → LiveAt (c.2.foldl (mergeLoser c.1) t) i :=
    load_losers hclock hnodup hlive
  have hpos := List.length_pos_of_ne_nil hne
  refine ⟨?_, fun i hi h => (hkeep i hi h).of_standings (standings_mergeCluster t c)⟩
  rw [mergeCluster]
  generalize c.2.foldl (mergeLoser c.1) t = u at hload
  have hdistilled := load_withRecords u (u.t3.records.modify c.1 MemRecord.asDistilled)
  rw [Update.map_modify (fun _ => weight_asDistilled), ← weights] at hdistilled
  rw [corpusEmitConsolidation, (load_corpusEmit _ _ _ _ _ _ _).1]
  omega

theorem load_plan {plan : List (Nat × List Nat)} {t : MemSubstrate} (hclock : t.clock ≠ 0)
    (hne : ∀ c ∈ plan, c.2 ≠ []) (hnodup : (plan.flatMap Prod.snd).Nodup)
    (hlive : ∀ c ∈ plan, ∀ l ∈ c.2, LiveAt t l) : load (plan.foldl mergeCluster t) ≤ load t := by
  induction plan generalizing t with
  | nil => exact Nat.le_refl _
  | cons c plan ih =>
      rw [List.flatMap_cons, List.nodup_append] at hnodup
      obtain ⟨hself, hrest, hapart⟩ := hnodup
      obtain ⟨hload, hkeep⟩ := load_mergeCluster hclock (hne c List.mem_cons_self) hself
        (hlive c List.mem_cons_self)
      refine (ih (t := mergeCluster t c) ?_ (fun d hd => hne d (List.mem_cons_of_mem _ hd)) hrest ?_).trans hload
      · rw [(merging_mergeCluster t c).clock]
        exact hclock
      · intro d hd l hl
        refine hkeep l (fun hmem => hapart l hmem l ?_ rfl) (hlive d (List.mem_cons_of_mem _ hd) l hl)
        exact List.mem_flatMap.mpr ⟨d, hd, hl⟩

/-- No record is a loser twice: within a cluster the postings ascend, and two clusters are of
two tokens. -/
theorem plan_nodup {s : MemSubstrate} (hs : Lockstep s) : (s.distillPlan.flatMap Prod.snd).Nodup := by
  have hsub : ∀ {ps : List Nat} {c : Nat × List Nat}, s.cluster ps = some c → c.2.Sublist ps := by
    intro ps c hc
    rw [cluster] at hc
    dsimp only at hc
    split at hc
    · cases hc
    · rw [← Option.some.inj hc]
      exact List.filter_sublist.trans List.filter_sublist
  have hlex : ∀ {p : BitVec 64 × List Nat}, p ∈ s.t3.lexical.toList → s.t3.lexical[p.1]? = some p.2 :=
    fun hp => Std.TreeMap.mem_toList_iff_getElem?_eq_some.mp hp
  rw [List.nodup_flatMap]
  constructor
  · intro c hc
    obtain ⟨ps, hps, hcluster⟩ := List.mem_filterMap.mp (List.mem_of_mem_take hc)
    obtain ⟨p, hp, rfl⟩ := List.mem_map.mp hps
    exact ((hs.ascending (hlex hp)).imp Nat.ne_of_lt).sublist (hsub hcluster)
  · refine List.Pairwise.sublist (List.take_sublist _ _) ?_
    rw [List.pairwise_filterMap, List.pairwise_map]
    refine List.Pairwise.imp_of_mem ?_ Std.TreeMap.distinct_keys_toList
    intro p q hp hq hkeys c hc d hd l hlc hld
    obtain ⟨r, hr, hpr⟩ := (hs.carries p.1 l).mp ⟨p.2, hlex hp, (hsub hc).subset hlc⟩
    obtain ⟨r', hr', hqr⟩ := (hs.carries q.1 l).mp ⟨q.2, hlex hq, (hsub hd).subset hld⟩
    cases hr.symm.trans hr'
    exact hkeys (by rw [← hpr, hqr]; exact Std.ReflCmp.compare_self)

theorem distill_pays {s : MemSubstrate} (hs : Lockstep s) (h : ¬ (s.clock = 0 ∧ s.distillPlan ≠ [])) :
    Pays s s.distill.2 := by
  have htok : s.distill.2.quota.tokensWritten = s.quota.tokensWritten :=
    congrArg Spine.tokensWritten (spine_distill s)
  have hload : load s.distill.2 = load (s.distillPlan.foldl mergeCluster s) := by
    rw [distill]
    dsimp only
    split <;> rfl
  refine Pays.of_le ?_ htok
  rw [hload]
  by_cases hplan : s.distillPlan = []
  · rw [hplan]
    exact Nat.le_refl _
  · refine load_plan (fun hclock => h ⟨hclock, hplan⟩) (fun c hc => (plan_losers hs c hc).1) (plan_nodup hs) ?_
    intro c hc l hl
    exact lt_of_active ((plan_losers hs c hc).2 l hl)

/-! ## The maintenance operations -/

theorem tombstone_pays (s : MemSubstrate) (a : BitVec 64) : Pays s (s.tombstone a).2 := by
  have hdiff := load_withRecords s
    (s.t3.records.map fun r => if r.id == a && r.tInvalid == 0 then r.invalidate s.clock else r)
  have hle : ((s.t3.records.map fun r => if r.id == a && r.tInvalid == 0 then r.invalidate s.clock else r).map
      MemRecord.weight).sum ≤ weights s := by
    refine Update.sum_map_ite_le fun r hr => ?_
    rw [Bool.and_eq_true, beq_iff_eq, beq_iff_eq] at hr
    exact weight_invalidate_le hr.2
  refine Pays.of_le ?_ rfl
  show load (s.withRecords
    (s.t3.records.map fun r => if r.id == a && r.tInvalid == 0 then r.invalidate s.clock else r)) ≤ load s
  omega

theorem link_pays {s : MemSubstrate} {a b c : BitVec 64} (h : ¬ ∃ r ∈ s.t3.records, r.id = a) :
    Pays s (s.link a b c).2 := by
  have hmiss : s.t3.records.replaceF (fun r =>
      if r.id == a then some (r.linked [(UInt8.ofNat c.toNat, b)]) else none) = s.t3.records :=
    List.replaceF_of_forall_none fun r hr => if_neg fun heq => h ⟨r, hr, beq_iff_eq.mp heq⟩
  rw [link]
  dsimp only
  rw [hmiss]
  exact Pays.refl s

theorem consolidationCycle_pays {s : MemSubstrate} (hs : Lockstep s)
    (hdistill : ¬ (s.clock = 0 ∧ s.distillPlan ≠ []))
    (hsweep : ¬ Examines (s.distill.2.reflectInner 0).2) : Pays s s.consolidationCycle.2 := by
  have hsettle : ∀ t : MemSubstrate, Pays t t.settle := fun t => Pays.refl t
  rw [consolidationCycle]
  refine (distill_pays hs hdistill).trans ?_
  refine (reflectInner_pays s.distill.2 0).trans ?_
  exact (forgetSweep_pays hsweep).trans (hsettle _)

theorem consolidate_pays {s : MemSubstrate} (hs : Lockstep s) {op a b c : BitVec 64}
    (h : ¬ Unpaid s (.consolidate op a b c)) : Pays s (s.consolidate op a b c).2 := by
  rw [Unpaid, not_or, not_or, not_and, not_and, not_and, not_or] at h
  obtain ⟨hlink, hcycle, hsweep⟩ := h
  rw [consolidate]
  split
  case h_1 => exact tombstone_pays s a
  case h_2 hop => exact link_pays (hlink hop)
  case h_4 hop => exact consolidationCycle_pays hs (hcycle hop).1 (hcycle hop).2
  case h_5 => exact reflectInner_pays s a
  case h_6 hop => exact forgetSweep_pays (hsweep hop)
  case h_9 => split <;> exact Pays.refl s
  all_goals exact Pays.refl s

theorem seedHeldout_pays (s : MemSubstrate) (target base n : BitVec 64) :
    Pays s (s.seedHeldout target base n) := by
  refine List.foldlRecOn (motive := Pays s) _ _ (Pays.refl s) fun t ht k _ => ht.trans ?_
  dsimp only
  rcases pushRecord_load t (heldoutInput base k) (skillTransform target (heldoutInput base k)) 5
    .episodic [] with hfull | ⟨hload, htok⟩
  · rw [hfull]
    exact Pays.refl t
  · rw [Pays, hload, htok, List.length_nil]
    omega

/-- In lockstep an operation pays, or it is one of the unpaid ones. -/
theorem step_pays {s : MemSubstrate} (hs : Lockstep s) : ∀ op : Op, ¬ Unpaid s op → Pays s (step s op)
  | .write .., h => write_pays h
  | .readTouch _, h => readTouch_pays h
  | .tbRecall .., h => tbRecall_pays h
  | .consolidate .., h => consolidate_pays hs h
  | .writeProc .., h => writeProc_pays h
  | .seedHeldout target base n, _ => seedHeldout_pays s target base n
  | .skillAdmit .., h => skillAdmit_pays h
  | .corpusEmitOperatorTurn .., h => absurd trivial h
  | .corpusEmitLabeledOutcome .., h => absurd trivial h

/-! ## Runs -/

/-- Every entry has one posting. -/
theorem Mirrors.postings_le {s : MemSubstrate} {j : Journal} (h : Mirrors s j) :
    (s.t3.lexical.toList.map fun p => p.2.length).sum ≤ j.entries.length := by
  have hpos : (s.t3.lexical.toList.map fun p => p.2.length) =
      s.t3.lexical.keys.map fun tok => j.entries.countP fun e => e.token == tok := by
    rw [← Std.TreeMap.map_fst_toList_eq_keys, List.map_map]
    refine List.map_congr_left fun p hp => ?_
    have hlex : s.t3.lexical[p.1]? = j.index p.1 := h.lexical p.1
    rw [Std.TreeMap.mem_toList_iff_getElem?_eq_some.mp hp, Journal.index] at hlex
    split at hlex
    · cases hlex
    · rw [Option.some.inj hlex, Journal.positions, List.length_findIdxs]
      rfl
  rw [hpos]
  exact Update.sum_countP_le Std.TreeMap.nodup_keys Entry.token j.entries

theorem Mirrors.size_le {s : MemSubstrate} {j : Journal} (h : Mirrors s j) : size s ≤ load s + TOKEN_QUOTA := by
  have hpostings := h.postings_le
  have hcovered := j.covered
  have hwithin := j.within
  have hrecords : s.t3.records.length + (s.t3.records.map fun r => r.links.length).sum ≤ weights s := by
    rw [weights]
    generalize s.t3.records = records
    induction records with
    | nil => exact Nat.le_refl 0
    | cons r records ih =>
        rw [List.length_cons, List.map_cons, List.map_cons, List.sum_cons, List.sum_cons, MemRecord.weight]
        omega
  rw [size, load, entered]
  omega

/-- A run that appends nothing unpaid is bounded by the quota. -/
theorem run_bounded {ops : List Op} (h : Guarded step (fun s op => ¬ Unpaid s op) new ops) :
    size (exec step new ops) ≤ 22 * TOKEN_QUOTA := by
  have hinv : (∃ j, Mirrors (exec step new ops) j) ∧ Pays new (exec step new ops) := by
    refine exec_guarded (P := fun s => (∃ j, Mirrors s j) ∧ Pays new s) ?_ ops h
      ⟨⟨Journal.empty, mirrors_new⟩, Pays.refl new⟩
    rintro s op hpaid ⟨⟨j, hj⟩, hpays⟩
    obtain ⟨j', -, hj'⟩ := step_grows s op j hj
    exact ⟨⟨j', hj'⟩, hpays.trans (step_pays hj.lockstep op hpaid)⟩
  obtain ⟨⟨j, hj⟩, hpays⟩ := hinv
  have hsize := hj.size_le
  have hquota := hj.lockstep.quota
  have hnew : load new = 0 := rfl
  rw [Pays, hnew] at hpays
  omega

end Yuva.Mem
