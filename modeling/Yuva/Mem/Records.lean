/-
# `Yuva.Mem.Records` — what every record keeps

Nine operations edit the records, by six edits; one place appends.  A property of single
records that the edits preserve and a fresh record has is therefore an invariant of the
memory: `RecordRule` says what has to be checked, `all_reached` what follows.

The instance used by the ranking and by the reflection is that importances stay in `[1, 10]`.
-/
import Yuva.Mem.Audit

namespace Yuva.Mem

open Yuva.Machine Yuva.Run MemSubstrate

/-- The record `appendRecord` appends. -/
def MemRecord.fresh (id token : BitVec 64) (importance : Nat) (clock : BitVec 64) (provenance : Provenance)
    (links : List (UInt8 × BitVec 64)) : MemRecord :=
  { id := id, token := token, importance := max 1 (min importance 10), count := 0
    lastTs := List.replicate 10 0, lastIdx := 0, tCreated := clock, tInvalid := 0, cSucc := 0
    cUse := 0, links := links, tier := .hot, provenance := provenance }

theorem records_appendRecord (s : MemSubstrate) (token value : BitVec 64) (importance : Nat)
    (provenance : Provenance) (links : List (UInt8 × BitVec 64)) :
    (s.appendRecord token value importance provenance links).t3.records =
      s.t3.records ++ [MemRecord.fresh s.t2.nextId token importance s.clock provenance links] := rfl

theorem records_skillAddClass (s : MemSubstrate) (body desc packed : BitVec 64) (prov : UInt8) :
    (s.skillAddClass body desc packed prov).2.t3.records = s.t3.records := by
  rw [skillAddClass]
  split
  · rfl
  · exact congrArg (fun c => c.1.records) (core_ledgerAppend _ _ _ _ _ _)

theorem records_writeProc (s : MemSubstrate) (op a b c : BitVec 64) :
    (s.writeProc op a b c).2.t3.records = s.t3.records := by
  rw [writeProc]
  split
  case h_1 => exact records_skillAddClass s a b c 0
  case h_6 => exact records_skillAddClass s a b c SKILL_PROV_EMIT_EXTERNAL
  case h_2 =>
      rw [skillBumpUtil]
      split <;> rfl
  case h_4 =>
      rw [skillLink]
      split <;> rfl
  all_goals rfl

theorem records_skillAdmit (s : MemSubstrate) (id : BitVec 64) (score : BitVec 32) :
    (s.skillAdmit id score).2.t3.records = s.t3.records := by
  rw [skillAdmit]
  split
  · rfl
  · dsimp only
    split <;> rfl

/-- A property of single records that no operation breaks. -/
structure RecordRule (P : MemRecord → Prop) : Prop where
  invalidate : ∀ clock r, P r → P (r.invalidate clock)
  accessed : ∀ clock r, P r → P (r.accessed clock)
  linked : ∀ edges r, P r → P (r.linked edges)
  demote : ∀ r, P r → P r.demote
  asDistilled : ∀ r, P r → P r.asDistilled
  strengthen : ∀ r, P r → P r.strengthen
  fresh : ∀ id token importance clock provenance links,
    P (MemRecord.fresh id token importance clock provenance links)

/-- Every record has the property. -/
def All (P : MemRecord → Prop) (s : MemSubstrate) : Prop := ∀ r ∈ s.t3.records, P r

section Rule

variable {P : MemRecord → Prop}

theorem All.of_records {s s' : MemSubstrate} (h : All P s) (heq : s'.t3.records = s.t3.records) : All P s' := by
  rw [All, heq]
  exact h

theorem All.of_core {s s' : MemSubstrate} (h : All P s) (heq : core s' = core s) : All P s' :=
  h.of_records (congrArg (fun c => c.1.records) heq)

variable (hP : RecordRule P) {s : MemSubstrate}

include hP

theorem all_pushRecord (h : All P s) (token value : BitVec 64) (importance : Nat)
    (provenance : Provenance) (links : List (UInt8 × BitVec 64)) :
    All P (s.pushRecord token value importance provenance links).2 := by
  rw [pushRecord]
  split
  · exact h
  · rw [All, records_appendRecord]
    exact List.forall_mem_append.2 ⟨h, List.forall_mem_singleton.2 (hP.fresh _ _ _ _ _ _)⟩

theorem all_pushed (h : All P s) {token value : BitVec 64} {importance : Nat} {provenance : Provenance}
    {links : List (UInt8 × BitVec 64)} {id : Option (BitVec 64)} {t : MemSubstrate}
    (hpush : s.pushRecord token value importance provenance links = (id, t)) : All P t := by
  have hpushed := all_pushRecord hP h token value importance provenance links
  rw [hpush] at hpushed
  exact hpushed

theorem all_delete (h : All P s) (key : BitVec 64) : All P (s.delete key).2 := by
  have hrecords : All P (s.withRecords (s.t3.records.reverse.replaceF fun r =>
      if r.token == key && r.tInvalid == 0 then some (r.invalidate s.clock) else none).reverse) := by
    intro r hr
    refine Update.forall_replaceF (hP.invalidate s.clock) ?_ r (List.mem_reverse.1 hr)
    exact fun a ha => h a (List.mem_reverse.1 ha)
  rw [delete]
  dsimp only
  split <;> exact hrecords

theorem all_write (h : All P s) (op key value packed : BitVec 64) : All P (s.write op key value packed).2 := by
  have hstore : All P (if op = 0 ∨ op = 1 then s.add key value packed
      else if op = 2 then s.delete key else (some 0, s)).2 := by
    split
    · exact all_pushRecord hP (s := s.accrue _) h key value _ .episodic []
    · split
      · exact all_delete hP h key
      · exact h
  rw [write]
  dsimp only
  split
  · exact hstore
  · split
    · exact hstore.of_core (core_ledgerAppend _ _ _ _ _ _)
    · exact hstore

theorem all_serve (h : All P s) (query : BitVec 64) (widx : Nat) : All P (s.serve query widx).2 := by
  have hrecords : All P (s.withRecords (s.t3.records.modify widx (MemRecord.accessed s.clock))) :=
    Update.forall_modify (hP.accessed s.clock) h _
  exact hrecords.of_records (congrArg (fun c => c.1.records) (core_xpRecord (MemSubstrate.remember _ query _) _))

theorem all_retrieve (h : All P s) (query : BitVec 64) : All P (s.retrieve query).2 := by
  rw [retrieve]
  split
  · exact h
  · dsimp only
    split
    · exact h
    · exact all_serve hP h query _

theorem all_mergeLoser (h : All P s) (surv loser : Nat) : All P (mergeLoser surv s loser) :=
  Update.forall_modify (hP.linked _) (Update.forall_modify (hP.invalidate s.clock) h _) _

theorem all_mergeCluster (h : All P s) (c : Nat × List Nat) : All P (mergeCluster s c) := by
  have hlosers : All P (c.2.foldl (mergeLoser c.1) s) :=
    Update.foldl_invariant (fun s l hs => all_mergeLoser hP (s := s) hs c.1 l) c.2 h
  have hsurvivor : All P ((c.2.foldl (mergeLoser c.1) s).withRecords
      ((c.2.foldl (mergeLoser c.1) s).t3.records.modify c.1 MemRecord.asDistilled)) :=
    Update.forall_modify hP.asDistilled hlosers _
  exact hsurvivor.of_core (core_corpusEmit _ _ _ _ _ _ _)

theorem all_distill (h : All P s) : All P s.distill.2 := by
  have hplan : All P (s.distillPlan.foldl mergeCluster s) :=
    Update.foldl_invariant (fun s c hs => all_mergeCluster hP (s := s) hs c) _ h
  rw [distill]
  dsimp only
  split <;> exact hplan

theorem all_reflectInner (h : All P s) (modelToken : BitVec 64) : All P (s.reflectInner modelToken).2 := by
  rw [reflectInner]
  dsimp only
  split
  · exact h
  · split
    · next t hpush => exact all_pushed hP h hpush
    · next newId t hpush =>
        have hpushed := all_pushed hP h hpush
        refine All.of_core (s := t.withRecords _) ?_ (core_corpusEmit _ _ _ _ _ _ _)
        exact Update.foldl_invariant (P := fun l => ∀ r ∈ l, P r)
          (fun _ _ hl => Update.forall_replaceF hP.strengthen hl) _ hpushed

theorem all_sweepOne (h : All P s) (idx : Nat) : All P (s.sweepOne idx).2 := by
  have hobserve : ∀ obs, All P (s.observe obs) := fun obs => h.of_core (core_observe s obs)
  rw [sweepOne]
  dsimp only
  split
  · refine All.of_core (s := (s.observe _).withRecords _) ?_ (core_ledgerAppend _ _ _ _ _ _)
    exact Update.forall_modify hP.demote (hobserve _) _
  · exact hobserve _

theorem all_sweepLoop (len : Nat) : ∀ (budget idx n : Nat) {s : MemSubstrate}, All P s →
    All P (sweepLoop len budget idx n s).2
  | 0, _, _, _, h => h
  | budget + 1, idx, _, _, h => all_sweepLoop len budget _ _ (all_sweepOne hP h idx)

theorem all_forgetSweep (h : All P s) : All P s.forgetSweep.2 := by
  rw [forgetSweep]
  dsimp only
  split
  · exact h
  · exact all_sweepLoop hP _ _ _ _ h

theorem all_consolidationCycle (h : All P s) : All P s.consolidationCycle.2 := by
  have hsettle : ∀ {t : MemSubstrate}, All P t → All P t.settle := fun ht => ht.of_records rfl
  rw [consolidationCycle]
  exact hsettle (all_forgetSweep hP (all_reflectInner hP (all_distill hP h) 0))

theorem all_tombstone (h : All P s) (a : BitVec 64) : All P (s.tombstone a).2 :=
  Update.forall_map_ite (hP.invalidate s.clock) h

theorem all_link (h : All P s) (a b c : BitVec 64) : All P (s.link a b c).2 :=
  Update.forall_replaceF (hP.linked _) h

theorem all_consolidate (h : All P s) (op a b c : BitVec 64) : All P (s.consolidate op a b c).2 := by
  rw [consolidate]
  split
  · exact all_tombstone hP h a
  · exact all_link hP h a b c
  · exact h
  · have hcycle := all_consolidationCycle hP h
    generalize s.consolidationCycle = cycled at hcycle ⊢
    exact hcycle
  · exact all_reflectInner hP h a
  · exact all_forgetSweep hP h
  · exact h
  · exact h
  · split <;> exact h
  · exact h

theorem all_seedHeldout (h : All P s) (target base n : BitVec 64) : All P (s.seedHeldout target base n) :=
  Update.foldl_invariant (fun s _ hs => all_pushRecord hP (s := s) hs _ _ 5 .episodic []) _ h

theorem all_step (h : All P s) : ∀ op : Op, All P (step s op)
  | .write op key value packed => all_write hP h op key value packed
  | .readTouch id => by
    rw [step, readTouch]
    split
    · exact h
    · exact h.of_core (core_xpRecord _ _)
  | .tbRecall query cursor k weights => by
    rw [step, tbRecall]
    exact all_retrieve hP (s := if cursor = 0 then { s with finsts := Finsts.clear } else s)
      (by split <;> exact h) query
  | .consolidate op a b c => all_consolidate hP h op a b c
  | .writeProc op a b c => h.of_records (records_writeProc s op a b c)
  | .seedHeldout target base n => all_seedHeldout hP h target base n
  | .skillAdmit id score => h.of_records (records_skillAdmit s id score)
  | .corpusEmitOperatorTurn _ _ _ => h.of_core (core_corpusEmit _ _ _ _ _ _ _)
  | .corpusEmitLabeledOutcome _ _ => h.of_core (core_corpusEmit _ _ _ _ _ _ _)

theorem all_reached (ops : List Op) : All P (reached ops) :=
  exec_inv (P := All P) (fun _ op hs => all_step hP hs op) ops fun _ hr => (nomatch hr)

end Rule

/-- Importances stay in the band a write clamps them to. -/
def MemRecord.graded (r : MemRecord) : Prop := 1 ≤ r.importance ∧ r.importance ≤ 10

theorem graded_rule : RecordRule MemRecord.graded where
  invalidate _ _ h := h
  accessed _ _ h := h
  linked _ _ h := h
  demote _ h := h
  asDistilled _ h := h
  strengthen r h := by
    obtain ⟨hlo, hhi⟩ := h
    simp only [MemRecord.graded, MemRecord.strengthen, satU]
    omega
  fresh _ _ importance _ _ _ := by
    simp only [MemRecord.graded, MemRecord.fresh]
    omega

theorem graded_reached (ops : List Op) : All MemRecord.graded (reached ops) := all_reached graded_rule ops

end Yuva.Mem
