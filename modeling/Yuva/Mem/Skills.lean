/-
# `Yuva.Mem.Skills` — who changes the tier of a skill

The tier and the effect class of every skill, in order, are its *grades*.  No operation
with a method number changes a grade: a procedural write adds a proposed skill at the
end, and nothing else touches the procedural store.  Only the harness's `skillAdmit`
promotes, and exactly when the score beats the best admitted one (`skillAdmit_grades`).

Over runs: the id and the tier of every skill, with the best score, are what a skill is
trusted with; `step_trust` says what one operation does to them.  The *lineage* of a skill
is entered into by the verdicts of the harness, and by every linking call (`lineageAt_step`).
-/
import Yuva.Mem.Chains

namespace Yuva.Mem

open Yuva.Bytes Yuva.Hash Yuva.Machine Yuva.Run MemSubstrate

/-! ## The procedural store is left alone -/

section Frame

variable (s : MemSubstrate)

theorem t4_tick : s.tick.t4 = s.t4 := rfl

theorem t4_ledgerAppend (kind : UInt8) (tok : BitVec 64) (tier : UInt8) (writer : BitVec 64)
    (parents : List Bytes32) : (s.ledgerAppend kind tok tier writer parents).2.t4 = s.t4 := by
  rw [ledgerAppend]
  split <;> rfl

theorem t4_xpRecord (r : Exp.ExperienceRecord) : (s.xpRecord r).2.t4 = s.t4 := by
  rw [xpRecord_eq]

theorem t4_corpusEmit (kind stream verdict : UInt8) (tok aux : BitVec 64)
    (outcome : Corpus.OutcomeLabel) : (s.corpusEmit kind stream verdict tok aux outcome).t4 = s.t4 := by
  rw [corpusEmit]
  dsimp only
  split
  · rfl
  · split <;> rfl

theorem t4_pushRecord (token value : BitVec 64) (importance : Nat) (provenance : Provenance)
    (links : List (UInt8 × BitVec 64)) :
    (s.pushRecord token value importance provenance links).2.t4 = s.t4 := by
  rw [pushRecord]
  split <;> rfl

theorem t4_delete (key : BitVec 64) : (s.delete key).2.t4 = s.t4 := by
  rw [delete]
  dsimp only
  split <;> rfl

theorem t4_write (op key value packed : BitVec 64) : (s.write op key value packed).2.t4 = s.t4 := by
  have hstore : (if op = 0 ∨ op = 1 then s.add key value packed
      else if op = 2 then s.delete key else (some 0, s)).2.t4 = s.t4 := by
    split
    · exact t4_pushRecord (s.accrue _) _ _ _ _ _
    · split
      · exact t4_delete s key
      · rfl
  rw [write]
  dsimp only
  split
  · exact hstore
  · split
    · exact (t4_ledgerAppend _ _ _ _ _ _).trans hstore
    · exact hstore

theorem t4_readTouch (id : BitVec 64) : (s.readTouch id).2.t4 = s.t4 := by
  rw [readTouch]
  split
  · rfl
  · exact t4_xpRecord s _

theorem t4_tbRecall (query cursor k weights : BitVec 64) :
    (s.tbRecall query cursor k weights).2.t4 = s.t4 := by
  have hretrieve : ∀ s : MemSubstrate, (s.retrieve query).2.t4 = s.t4 := by
    intro s
    rw [retrieve]
    split
    · rfl
    · dsimp only
      split
      · rfl
      · rw [serve]
        dsimp only
        rw [t4_tick, t4_xpRecord]
        rfl
  rw [tbRecall, hretrieve]
  split <;> rfl

theorem t4_mergeLoser (surv loser : Nat) : (mergeLoser surv s loser).t4 = s.t4 := rfl

theorem t4_mergeCluster (c : Nat × List Nat) : (s.mergeCluster c).t4 = s.t4 := by
  have hlosers : (c.2.foldl (mergeLoser c.1) s).t4 = s.t4 :=
    Update.foldl_keeps (fun t loser => t4_mergeLoser t c.1 loser) c.2 s
  exact (t4_corpusEmit _ _ _ _ _ _ _).trans hlosers

theorem t4_distill : s.distill.2.t4 = s.t4 := by
  have hplan : (s.distillPlan.foldl mergeCluster s).t4 = s.t4 :=
    Update.foldl_keeps (fun t c => t4_mergeCluster t c) s.distillPlan s
  rw [distill]
  dsimp only
  split <;> exact hplan

theorem t4_reflectInner (modelToken : BitVec 64) : (s.reflectInner modelToken).2.t4 = s.t4 := by
  rw [reflectInner]
  dsimp only
  split
  · rfl
  · split
    · next hpush => exact (congrArg (fun p => p.2.t4) hpush).symm.trans (t4_pushRecord s _ _ _ _ _)
    · next hpush =>
        refine (t4_corpusEmit _ _ _ _ _ _ _).trans ?_
        exact (congrArg (fun p => p.2.t4) hpush).symm.trans (t4_pushRecord s _ _ _ _ _)

theorem t4_observe : ∀ obs : Option Exp.ExperienceRecord, (s.observe obs).t4 = s.t4
  | none => rfl
  | some r => t4_xpRecord s r

theorem t4_sweepOne (idx : Nat) : (s.sweepOne idx).2.t4 = s.t4 := by
  rw [sweepOne]
  dsimp only
  split
  · exact (t4_ledgerAppend _ _ _ _ _ _).trans (t4_observe s _)
  · exact t4_observe s _

theorem t4_sweepLoop (len budget : Nat) : ∀ (idx n : Nat) (s : MemSubstrate),
    (sweepLoop len budget idx n s).2.t4 = s.t4 := by
  induction budget with
  | zero => intro idx n s; rfl
  | succ budget ih => intro idx n s; exact (ih _ _ _).trans (t4_sweepOne s idx)

theorem t4_forgetSweep : s.forgetSweep.2.t4 = s.t4 := by
  rw [forgetSweep]
  dsimp only
  split
  · rfl
  · exact t4_sweepLoop _ _ _ _ s

theorem t4_settle : s.settle.t4 = s.t4 := rfl

theorem t4_consolidationCycle : s.consolidationCycle.2.t4 = s.t4 := by
  rw [consolidationCycle]
  dsimp only
  rw [t4_settle, t4_forgetSweep, t4_reflectInner, t4_distill]

theorem t4_consolidate (op a b c : BitVec 64) : (s.consolidate op a b c).2.t4 = s.t4 := by
  rw [consolidate]
  split
  case h_4 => exact t4_consolidationCycle s
  case h_5 => exact t4_reflectInner s a
  case h_6 => exact t4_forgetSweep s
  case h_9 => split <;> rfl
  all_goals rfl

theorem t4_seedHeldout (target base n : BitVec 64) : (s.seedHeldout target base n).t4 = s.t4 :=
  Update.foldl_keeps (fun t _ => t4_pushRecord t _ _ 5 .episodic []) _ s

end Frame

/-! ## Grades -/

/-- What decides whether a skill is admitted, and whether that needs an approval. -/
def SkillRecord.grade (k : SkillRecord) : UInt8 × SkillTier := (k.provenance, k.tier)

def grades (s : MemSubstrate) : List (UInt8 × SkillTier) := s.t4.skills.map SkillRecord.grade

/-- Skills were at most added, and only proposed ones. -/
def Proposes (s s' : MemSubstrate) : Prop :=
  ∃ added, grades s' = grades s ++ added ∧ ∀ g ∈ added, g.2 = .proposed

theorem Proposes.of_grades {s s' : MemSubstrate} (h : grades s' = grades s) : Proposes s s' :=
  ⟨[], h.trans (List.append_nil _).symm, fun _ hg => nomatch hg⟩

theorem Proposes.of_t4 {s s' : MemSubstrate} (h : s'.t4 = s.t4) : Proposes s s' :=
  .of_grades (congrArg (fun t => t.skills.map SkillRecord.grade) h)

theorem grade_bumped (reward : BitVec 64) (k : SkillRecord) : (bumped reward k).grade = k.grade := rfl

theorem skillAddClass_proposes (s : MemSubstrate) (body desc packed : BitVec 64) (prov : UInt8) :
    Proposes s (s.skillAddClass body desc packed prov).2 := by
  rw [skillAddClass]
  split
  · exact .of_t4 rfl
  · refine ⟨[(prov, .proposed)], ?_, fun g hg => by rw [List.mem_singleton.mp hg]⟩
    dsimp only
    rw [grades, t4_ledgerAppend]
    exact List.map_append

theorem writeProc_proposes (s : MemSubstrate) (op a b c : BitVec 64) :
    Proposes s (s.writeProc op a b c).2 := by
  rw [writeProc]
  split
  case h_1 => exact skillAddClass_proposes s a b c 0
  case h_6 => exact skillAddClass_proposes s a b c SKILL_PROV_EMIT_EXTERNAL
  case h_2 =>
      rw [skillBumpUtil]
      split
      · exact .of_t4 rfl
      · exact .of_grades (Update.map_modify (grade_bumped b) _ _)
  case h_4 =>
      rw [skillLink]
      split
      · exact .of_t4 rfl
      · refine .of_grades (Update.map_modify ?_ _ _)
        intro k
        rfl
  all_goals exact .of_t4 rfl

/-- The skill at `id` would be promoted by `score`. -/
def Promotable (s : MemSubstrate) (id : BitVec 64) (score : BitVec 32) (i : Nat) : Prop :=
  s.skillIdx id = some i ∧ score > s.t4.bestScore

/-- The harness changes at most one grade, to admitted, and exactly when the score
beats the best. -/
theorem skillAdmit_grades (s : MemSubstrate) (id : BitVec 64) (score : BitVec 32) :
    grades (s.skillAdmit id score).2 = grades s ∧ (∀ i, ¬ Promotable s id score i) ∨
    ∃ i, Promotable s id score i ∧
      grades (s.skillAdmit id score).2 = (grades s).modify i fun g => (g.1, .admitted) := by
  rw [skillAdmit]
  split
  · next hnone =>
      refine .inl ⟨rfl, ?_⟩
      rintro i ⟨hi, -⟩
      rw [hnone] at hi
      cases hi
  · next i hi =>
      dsimp only
      split
      · next hbest =>
          refine .inr ⟨i, ⟨hi, hbest⟩, Update.map_modify_comm ?_ _ _⟩
          intro k
          rfl
      · next hbest =>
          refine .inl ⟨Update.map_modify ?_ _ _, fun j h => hbest h.2⟩
          intro k
          rfl

/-! ## Standings -/

/-- Neither a procedural write nor a verdict. -/
def Unskilled : MemSubstrate.Op → Prop
  | .writeProc .. | .skillAdmit .. => False
  | _ => True

theorem t4_step (s : MemSubstrate) {op : MemSubstrate.Op} (h : Unskilled op) : (s.step op).t4 = s.t4 := by
  cases op with
  | write op key value packed => exact t4_write s op key value packed
  | readTouch id => exact t4_readTouch s id
  | tbRecall query cursor k weights => exact t4_tbRecall s query cursor k weights
  | consolidate op a b c => exact t4_consolidate s op a b c
  | seedHeldout target base n => exact t4_seedHeldout s target base n
  | corpusEmitOperatorTurn tok aux verdict => exact t4_corpusEmit s _ _ verdict tok aux .unset
  | corpusEmitLabeledOutcome id outcome => exact t4_corpusEmit s _ _ _ id 0 outcome
  | writeProc | skillAdmit => exact h.elim

/-- Which skill it is, and what it is trusted with. -/
def SkillRecord.trust (k : SkillRecord) : BitVec 64 × SkillTier := (k.id, k.tier)

def trusts (s : MemSubstrate) : List (BitVec 64 × SkillTier) := s.t4.skills.map SkillRecord.trust

/-- The best score stands, and skills were at most added, as proposed ones. -/
structure Untrusted (s s' : MemSubstrate) : Prop where
  best : s'.t4.bestScore = s.t4.bestScore
  added : ∃ added, trusts s' = trusts s ++ added ∧ ∀ g ∈ added, g.2 = .proposed

theorem Untrusted.of_trusts {s s' : MemSubstrate} (hbest : s'.t4.bestScore = s.t4.bestScore)
    (h : trusts s' = trusts s) : Untrusted s s' :=
  ⟨hbest, [], h.trans (List.append_nil _).symm, fun _ hg => nomatch hg⟩

theorem Untrusted.of_t4 {s s' : MemSubstrate} (h : s'.t4 = s.t4) : Untrusted s s' :=
  .of_trusts (congrArg ProceduralStore.bestScore h)
    (congrArg (fun t => t.skills.map SkillRecord.trust) h)

theorem Untrusted.refl (s : MemSubstrate) : Untrusted s s := .of_t4 rfl

theorem Untrusted.trans {s s' s'' : MemSubstrate} (h : Untrusted s s') (h' : Untrusted s' s'') :
    Untrusted s s'' := by
  obtain ⟨hbest, added, hadded, hprop⟩ := h
  obtain ⟨hbest', added', hadded', hprop'⟩ := h'
  refine ⟨hbest'.trans hbest, added ++ added', ?_, ?_⟩
  · rw [hadded', hadded, List.append_assoc]
  · intro g hg
    rcases List.mem_append.mp hg with hg | hg
    · exact hprop g hg
    · exact hprop' g hg

theorem skillAddClass_untrusted (s : MemSubstrate) (body desc packed : BitVec 64) (prov : UInt8) :
    Untrusted s (s.skillAddClass body desc packed prov).2 := by
  rw [skillAddClass]
  split
  · exact .refl s
  · refine ⟨?_, [(s.t4.nextId, .proposed)], ?_, fun g hg => by rw [List.mem_singleton.mp hg]⟩
    · dsimp only
      rw [t4_ledgerAppend]
      rfl
    · dsimp only
      rw [trusts, t4_ledgerAppend]
      exact List.map_append

/-- No procedural write grants trust. -/
theorem writeProc_untrusted (s : MemSubstrate) (op a b c : BitVec 64) :
    Untrusted s (s.writeProc op a b c).2 := by
  rw [writeProc]
  split
  case h_1 => exact skillAddClass_untrusted s a b c 0
  case h_6 => exact skillAddClass_untrusted s a b c SKILL_PROV_EMIT_EXTERNAL
  case h_2 =>
      rw [skillBumpUtil]
      split
      · exact .refl s
      · refine .of_trusts rfl (Update.map_modify ?_ _ _)
        intro k
        rfl
  case h_4 =>
      rw [skillLink]
      split
      · exact .refl s
      · refine .of_trusts rfl (Update.map_modify ?_ _ _)
        intro k
        rfl
  all_goals exact .refl s

/-- The verdict on a skill that exists is for the score that beats the best. -/
theorem skillAdmit_answer {s : MemSubstrate} {id : BitVec 64} {i : Nat} (h : s.skillIdx id = some i)
    (score : BitVec 32) : (s.skillAdmit id score).1 = decide (score > s.t4.bestScore) := by
  rw [skillAdmit, h]
  dsimp only
  by_cases hbest : score > s.t4.bestScore
  · have hbest' : score > s.tick.t4.bestScore := hbest
    rw [if_pos hbest', decide_eq_true hbest]
  · have hbest' : ¬ score > s.tick.t4.bestScore := hbest
    rw [if_neg hbest', decide_eq_false hbest]

/-- The skill a verdict admits, and its score. -/
def admission (s : MemSubstrate) : MemSubstrate.Op → Option (Nat × BitVec 32)
  | .skillAdmit id score =>
      if (s.skillAdmit id score).1 then (s.skillIdx id).map fun i => (i, score) else none
  | _ => none

/-- One operation grants no trust, or it is a verdict that beats the best score and
admits one skill. -/
theorem step_trust (s : MemSubstrate) (op : MemSubstrate.Op) :
    (admission s op = none ∧ Untrusted s (s.step op)) ∨
    ∃ i score, admission s op = some (i, score) ∧ s.t4.bestScore < score ∧
      (s.step op).t4.bestScore = score ∧
      trusts (s.step op) = (trusts s).modify i fun g => (g.1, .admitted) := by
  cases op with
  | skillAdmit id score =>
      show _ ∧ Untrusted s (s.skillAdmit id score).2 ∨ _
      show _ ∨ ∃ i score', _ ∧ _ ∧ (s.skillAdmit id score).2.t4.bestScore = _ ∧
        trusts (s.skillAdmit id score).2 = _
      rw [admission]
      cases hidx : s.skillIdx id with
      | none =>
          rw [Option.map_none, ite_self, skillAdmit, hidx]
          exact .inl ⟨rfl, .refl s⟩
      | some i =>
          rw [skillAdmit_answer hidx, skillAdmit, hidx]
          dsimp only
          by_cases hbest : score > s.t4.bestScore
          · have hbest' : score > s.tick.t4.bestScore := hbest
            rw [if_pos (decide_eq_true hbest), if_pos hbest']
            refine .inr ⟨i, score, rfl, hbest, rfl, Update.map_modify_comm ?_ _ _⟩
            intro k
            rfl
          · have hbest' : ¬ score > s.tick.t4.bestScore := hbest
            rw [if_neg (by simpa using hbest), if_neg hbest']
            refine .inl ⟨rfl, .of_trusts rfl (Update.map_modify ?_ _ _)⟩
            intro k
            rfl
  | writeProc op a b c => exact .inl ⟨rfl, writeProc_untrusted s op a b c⟩
  | write | readTouch | tbRecall | consolidate | seedHeldout | corpusEmitOperatorTurn
  | corpusEmitLabeledOutcome => exact .inl ⟨rfl, .of_t4 (t4_step s trivial)⟩

theorem admission_eq_some {s : MemSubstrate} {op : MemSubstrate.Op} {i : Nat} {score : BitVec 32}
    (h : admission s op = some (i, score)) :
    ∃ id, op = .skillAdmit id score ∧ s.skillIdx id = some i := by
  cases op with
  | skillAdmit id score' =>
      rw [admission] at h
      split at h
      · obtain ⟨j, hj, heq⟩ := Option.map_eq_some_iff.mp h
        cases heq
        exact ⟨id, rfl, hj⟩
      · cases h
  | write | readTouch | tbRecall | consolidate | writeProc | seedHeldout | corpusEmitOperatorTurn
  | corpusEmitLabeledOutcome => cases h

theorem best_step (s : MemSubstrate) (op : MemSubstrate.Op) : s.t4.bestScore ≤ (s.step op).t4.bestScore := by
  rcases step_trust s op with ⟨-, hun⟩ | ⟨i, score, -, hlt, hbest, -⟩
  · rw [hun.best]
    exact BitVec.le_refl _
  · rw [hbest]
    exact BitVec.le_of_lt hlt

theorem best_exec (ops : List MemSubstrate.Op) (s : MemSubstrate) :
    s.t4.bestScore ≤ (exec MemSubstrate.step s ops).t4.bestScore := by
  induction ops generalizing s with
  | nil => exact BitVec.le_refl _
  | cons op ops ih => exact BitVec.le_trans (best_step s op) (ih (s.step op))

/-- A score that is admitted becomes the best. -/
theorem le_of_skillAdmit {s : MemSubstrate} {id : BitVec 64} {score : BitVec 32}
    (h : (s.skillAdmit id score).1 = true) : score ≤ (s.step (.skillAdmit id score)).t4.bestScore := by
  rcases step_trust s (.skillAdmit id score) with ⟨hnone, -⟩ | ⟨i, score', hsome, -, hbest, -⟩
  · rw [admission, if_pos h, Option.map_eq_none_iff] at hnone
    rw [skillAdmit, hnone] at h
    cases h
  · obtain ⟨id', heq, -⟩ := admission_eq_some hsome
    cases heq
    rw [hbest]
    exact BitVec.le_refl _

/-- The skill at `i` is admitted. -/
def AdmittedAt (s : MemSubstrate) (i : Nat) (id : BitVec 64) : Prop := (trusts s)[i]? = some (id, .admitted)

/-- Once admitted, always admitted. -/
theorem admittedAt_step {s : MemSubstrate} {i : Nat} {id : BitVec 64} (op : MemSubstrate.Op)
    (h : AdmittedAt s i id) : AdmittedAt (s.step op) i id := by
  rw [AdmittedAt] at h ⊢
  rcases step_trust s op with ⟨-, -, added, hadded, -⟩ | ⟨j, score, -, -, -, hmod⟩
  · rw [hadded, List.getElem?_append_left (List.getElem?_eq_some_iff.mp h).1, h]
  · rw [hmod, List.getElem?_modify, h]
    split <;> rfl

/-- A skill becomes admitted by the verdict that admits it. -/
theorem admission_of_admittedAt {s : MemSubstrate} {i : Nat} {id : BitVec 64} {op : MemSubstrate.Op}
    (hbefore : ¬ AdmittedAt s i id) (hafter : AdmittedAt (s.step op) i id) :
    ∃ score, admission s op = some (i, score) ∧ s.t4.bestScore < score := by
  rw [AdmittedAt] at hbefore hafter
  rcases step_trust s op with ⟨-, -, added, hadded, hprop⟩ | ⟨j, score, hsome, hlt, -, hmod⟩
  · rw [hadded, List.getElem?_append] at hafter
    split at hafter
    · exact absurd hafter hbefore
    · exact SkillTier.noConfusion (hprop _ (List.mem_of_getElem? hafter))
  · by_cases hji : j = i
    · subst hji
      exact ⟨score, hsome, hlt⟩
    · rw [hmod, List.getElem?_modify_ne _ _ hji] at hafter
      exact absurd hafter hbefore

/-! ## Lineages -/

def lineageAt (s : MemSubstrate) (i : Nat) : List (BitVec 64) :=
  (s.t4.skills[i]?.map SkillRecord.lineage).getD []

theorem lineageAt_of_t4 {s s' : MemSubstrate} (h : s'.t4 = s.t4) (i : Nat) :
    lineageAt s' i = lineageAt s i := by
  rw [lineageAt, h]
  rfl

/-- An edit of one skill that appends to its lineage. -/
theorem lineageAt_modify {s s' : MemSubstrate} {j : Nat} {f : SkillRecord → SkillRecord}
    {x : List (BitVec 64)} (hskills : s'.t4.skills = s.t4.skills.modify j f)
    (hf : ∀ k, (f k).lineage = k.lineage ++ x) (hj : j < s.t4.skills.length) (i : Nat) :
    lineageAt s' i = lineageAt s i ++ if j = i then x else [] := by
  rw [lineageAt, lineageAt, hskills]
  by_cases hji : j = i
  · subst hji
    rw [if_pos rfl, List.getElem?_modify_eq, List.getElem?_eq_getElem hj]
    exact hf _
  · rw [if_neg hji, List.getElem?_modify_ne _ _ hji, List.append_nil]

theorem skillIdx_lt {s : MemSubstrate} {id : BitVec 64} {i : Nat} (h : s.skillIdx id = some i) :
    i < s.t4.skills.length := by
  rw [skillIdx, List.findIdx?_eq_some_iff_findIdx_eq] at h
  exact h.1

/-- A new skill starts an empty lineage. -/
theorem lineageAt_skillAddClass (s : MemSubstrate) (body desc packed : BitVec 64) (prov : UInt8) (i : Nat) :
    lineageAt (s.skillAddClass body desc packed prov).2 i = lineageAt s i := by
  rw [skillAddClass]
  split
  · rfl
  · dsimp only
    rw [lineageAt, t4_ledgerAppend]
    show ((s.t4.skills ++ [_])[i]?.map SkillRecord.lineage).getD [] = _
    rw [List.getElem?_append]
    split
    · rfl
    · next hge =>
        rw [lineageAt, List.getElem?_eq_none (Nat.le_of_not_lt hge), List.getElem?_singleton]
        split <;> rfl

/-- What the harness enters for skill `i`: the score on admission, zero on rejection. -/
def verdictOn (s : MemSubstrate) (i : Nat) : MemSubstrate.Op → List (BitVec 64)
  | .skillAdmit id score =>
      if s.skillIdx id = some i then [if (s.skillAdmit id score).1 then score.setWidth 64 else 0] else []
  | _ => []

/-- What a linking call enters for skill `i`: whatever its argument says. -/
def linkOn (s : MemSubstrate) (i : Nat) : MemSubstrate.Op → List (BitVec 64)
  | .writeProc op id parent _ => if op.toNat = 3 ∧ s.skillIdx id = some i then [parent] else []
  | _ => []

theorem lineageAt_skillAdmit (s : MemSubstrate) (id : BitVec 64) (score : BitVec 32) (i : Nat) :
    lineageAt (s.skillAdmit id score).2 i = lineageAt s i ++ verdictOn s i (.skillAdmit id score) := by
  rw [verdictOn]
  cases hidx : s.skillIdx id with
  | none =>
      rw [skillAdmit, hidx]
      exact (List.append_nil _).symm
  | some j =>
      have hlt : j < s.t4.skills.length := skillIdx_lt hidx
      rw [skillAdmit_answer hidx, if_congr Option.some_inj rfl rfl, skillAdmit, hidx]
      dsimp only
      by_cases hbest : score > s.t4.bestScore
      · have hbest' : score > s.tick.t4.bestScore := hbest
        rw [if_pos (decide_eq_true hbest), if_pos hbest']
        exact lineageAt_modify rfl (fun k => rfl) hlt i
      · have hbest' : ¬ score > s.tick.t4.bestScore := hbest
        rw [if_neg hbest', decide_eq_false hbest]
        exact lineageAt_modify rfl (fun k => rfl) hlt i

theorem lineageAt_writeProc (s : MemSubstrate) (op a b c : BitVec 64) (i : Nat) :
    lineageAt (s.writeProc op a b c).2 i = lineageAt s i ++ linkOn s i (.writeProc op a b c) := by
  rw [writeProc, linkOn]
  split
  case h_1 hop =>
      rw [if_neg fun h => absurd (hop.symm.trans h.1) (by decide), List.append_nil]
      exact lineageAt_skillAddClass s a b c 0 i
  case h_6 hop =>
      rw [if_neg fun h => absurd (hop.symm.trans h.1) (by decide), List.append_nil]
      exact lineageAt_skillAddClass s a b c SKILL_PROV_EMIT_EXTERNAL i
  case h_2 hop =>
      rw [if_neg fun h => absurd (hop.symm.trans h.1) (by decide), List.append_nil, skillBumpUtil]
      cases hidx : s.skillIdx a with
      | none => rfl
      | some j =>
          refine (lineageAt_modify (x := []) rfl (fun k => ?_) (skillIdx_lt hidx) i).trans ?_
          · exact (List.append_nil _).symm
          · rw [ite_self, List.append_nil]
  case h_4 hop =>
      rw [skillLink]
      cases hidx : s.skillIdx a with
      | none =>
          rw [if_neg fun h => Option.some_ne_none i h.2.symm]
          exact (List.append_nil _).symm
      | some j =>
          have hcond : (if j = i then [b] else []) = if op.toNat = 3 ∧ some j = some i then [b] else [] :=
            if_congr (by rw [Option.some_inj]; exact (and_iff_right hop).symm) rfl rfl
          rw [← hcond]
          exact lineageAt_modify rfl (fun k => rfl) (skillIdx_lt hidx) i
  case h_3 hop =>
      rw [if_neg fun h => absurd (hop.symm.trans h.1) (by decide), List.append_nil]
  case h_5 hop =>
      rw [if_neg fun h => absurd (hop.symm.trans h.1) (by decide), List.append_nil]
  case h_7 hlink _ _ =>
      rw [if_neg fun h => hlink h.1, List.append_nil]

/-- One operation enters into a lineage what the harness decides, and what a linking call
says. -/
theorem lineageAt_step (s : MemSubstrate) (op : MemSubstrate.Op) (i : Nat) :
    lineageAt (s.step op) i = lineageAt s i ++ verdictOn s i op ++ linkOn s i op := by
  cases op with
  | skillAdmit id score =>
      simp only [linkOn, List.append_nil]
      exact lineageAt_skillAdmit s id score i
  | writeProc op a b c =>
      simp only [verdictOn, List.append_nil]
      exact lineageAt_writeProc s op a b c i
  | write | readTouch | tbRecall | consolidate | seedHeldout | corpusEmitOperatorTurn
  | corpusEmitLabeledOutcome =>
      simp only [verdictOn, linkOn, List.append_nil]
      refine lineageAt_of_t4 (t4_step s ?_) i
      exact trivial

end Yuva.Mem
