/-
# `Yuva.Kernel.Gates` — the approval gate and the cognitive latch

Two gates, each on one of several doors to the same room.

*Approval.*  A skill whose interface asks for an external effect is admitted by
`harness_merge` only behind a live handle with the approval right, but the same
admission is reached by `harness_admit` and `harness_admit_rotating`, which ask for
none.  `Ungated` is when one of these two promotes such a skill, so a run keeps the
gate if and only if none of its calls is ungated.

*Latch.*  With the cognitive latch set, `dispatch` refuses the four cognitive families
before it resolves anything; the byte facade of a model session never reads the latch.
`Leaks` is when the facade answers anything but a bare refusal.
-/
import Yuva.Kernel.System
import Yuva.Mem.Skills

namespace Yuva.Kernel

open Yuva.Caps CapTable Yuva.Ipc Yuva.Mem Yuva.Blocks Yuva.Run

variable {ι : Type*} [DecidableEq ι]

/-! ## Promotions -/

/-- A high-impact skill is admitted in `h'` and was not in `h`. -/
def Promotes (h h' : Heap) : Prop :=
  ∃ (cell i : Nat) (k' : SkillRecord), (h'.mems cell).t4.skills[i]? = some k' ∧ k'.highImpact = true ∧
    k'.tier = .admitted ∧ ¬ ∃ k, (h.mems cell).t4.skills[i]? = some k ∧ k.tier = .admitted

/-- A promotion is a fact about the grades. -/
theorem promotes_iff {h h' : Heap} : Promotes h h' ↔
    ∃ (cell i : Nat) (k' : SkillRecord), (h'.mems cell).t4.skills[i]? = some k' ∧ k'.highImpact = true ∧
      k'.tier = .admitted ∧ ∀ g, (grades (h.mems cell))[i]? = some g → g.2 = .proposed := by
  refine exists_congr fun cell => exists_congr fun i => exists_congr fun k' => ?_
  refine and_congr_right fun _ => and_congr_right fun _ => and_congr_right fun _ => ?_
  rw [grades, List.getElem?_map]
  constructor
  · intro hnot g hg
    obtain ⟨k, hk, rfl⟩ := Option.map_eq_some_iff.mp hg
    cases htier : k.tier with
    | proposed => exact htier
    | admitted => exact absurd ⟨k, hk, htier⟩ hnot
  · rintro hprop ⟨k, hk, htier⟩
    have := hprop k.grade (by rw [hk, Option.map_some])
    exact SkillTier.noConfusion (htier.symm.trans this)

theorem getElem?_grades {s : MemSubstrate} {i : Nat} {k : SkillRecord}
    (h : s.t4.skills[i]? = some k) : (grades s)[i]? = some k.grade := by
  rw [grades, List.getElem?_map, h]
  rfl

/-- Where skills are at most proposed, or there are none, nothing is promoted. -/
theorem not_promotes {h h' : Heap}
    (hc : ∀ cell, Proposes (h.mems cell) (h'.mems cell) ∨ (h'.mems cell).t4.skills = []) :
    ¬ Promotes h h' := by
  rintro ⟨cell, i, k', hk', -, hadm, hnot⟩
  rcases hc cell with ⟨added, hgrades, hadded⟩ | hnil
  · have hg := getElem?_grades hk'
    rw [hgrades, List.getElem?_append] at hg
    split at hg
    · rw [grades, List.getElem?_map] at hg
      obtain ⟨k, hk, hgrade⟩ := Option.map_eq_some_iff.mp hg
      exact hnot ⟨k, hk, (Prod.mk.inj hgrade).2.trans hadm⟩
    · have := hadded _ (List.mem_of_getElem? hg)
      exact SkillTier.noConfusion (hadm.symm.trans this)
  · rw [hnil] at hk'
    cases hk'

theorem not_promotes_of_mems {h h' : Heap} (hm : h'.mems = h.mems) : ¬ Promotes h h' :=
  not_promotes fun cell => .inl (.of_t4 (by rw [hm]))

theorem not_promotes_setMem {p : Proc} {cell : Nat} {s : MemSubstrate}
    (h : Proposes (p.heap.mems cell) s) : ¬ Promotes p.heap (p.setMem cell s).heap := by
  refine not_promotes fun c => .inl ?_
  show Proposes _ (Function.update p.heap.mems cell s c)
  rw [Function.update_apply]
  split
  · next heq => rw [heq]; exact h
  · exact .of_t4 rfl

/-- No method number promotes. -/
theorem proposes_dispatched (s : MemSubstrate) {op : MemSubstrate.Op} (h : Dispatched op) :
    Proposes s (s.step op) := by
  cases op with
  | write op key value packed => exact .of_t4 (t4_write s op key value packed)
  | readTouch id => exact .of_t4 (t4_readTouch s id)
  | tbRecall query cursor k weights => exact .of_t4 (t4_tbRecall s query cursor k weights)
  | consolidate op a b c => exact .of_t4 (t4_consolidate s op a b c)
  | writeProc op a b c => exact writeProc_proposes s op a b c
  | seedHeldout | skillAdmit | corpusEmitOperatorTurn | corpusEmitLabeledOutcome => exact h.elim

theorem effect_not_promotes {p p' : Proc} {m : Method} {i : Nat} (h : Effect p m i p') :
    ¬ Promotes p.heap p'.heap := by
  cases h with
  | mem cell op hop => exact not_promotes_setMem (proposes_dispatched _ hop)
  | recalled cell op scalar hop => exact not_promotes_setMem (proposes_dispatched _ hop)
  | same | dup | narrow | vacate | chan | block => exact not_promotes_of_mems rfl

theorem dispatch_not_promotes (p : Proc) (deny : Bool) (a : SyscallArgs) :
    ¬ Promotes p.heap (p.dispatch deny a).2.heap := by
  rcases p.dispatch_effect deny a with hsame | ⟨m, i, -, -, -, heff, -⟩
  · exact not_promotes_of_mems (by rw [hsame])
  · exact effect_not_promotes heff

/-! ## The harness -/

/-- The harness finds skill `i` of `cell`, and its score beats the best. -/
def Scores (heap : Heap) (t : CapTable Obj) (home : Handle) (id : BitVec 64) (evalTbl : CapTable Obj)
    (evalHome : Handle) (cell i : Nat) : Prop :=
  memCell t home = some cell ∧ (heap.mems cell).skillIdx id = some i ∧
    ∃ score, Proc.scoreOf heap evalTbl evalHome (heap.mems cell).t4.skills[i]!.bodyTok = some score ∧
      score > (heap.mems cell).t4.bestScore

theorem harnessAdmit_eq (p : Proc) (home : Handle) (id : BitVec 64) (evalTbl : CapTable Obj)
    (evalHome : Handle) :
    (∃ cell i score, memCell p.table home = some cell ∧ (p.heap.mems cell).skillIdx id = some i ∧
        Proc.scoreOf p.heap evalTbl evalHome (p.heap.mems cell).t4.skills[i]!.bodyTok = some score ∧
        (p.harnessAdmit home id evalTbl evalHome).2 =
          p.setMem cell ((p.heap.mems cell).skillAdmit id score).2) ∨
      (p.harnessAdmit home id evalTbl evalHome).2 = p ∧
        ∀ cell i, ¬ Scores p.heap p.table home id evalTbl evalHome cell i := by
  cases hcell : memCell p.table home with
  | none =>
      refine .inr ⟨?_, fun cell i hs => nomatch hcell.symm.trans hs.1⟩
      rw [Proc.harnessAdmit, Proc.skillGetOf, hcell]
      rfl
  | some cell =>
      cases hidx : (p.heap.mems cell).skillIdx id with
      | none =>
          refine .inr ⟨?_, ?_⟩
          · rw [Proc.harnessAdmit, Proc.skillGetOf, hcell, Option.bind_some, MemSubstrate.skillGet, hidx]
            rfl
          · rintro cell' i ⟨hcell', hidx', -⟩
            cases hcell.symm.trans hcell'
            exact nomatch hidx.symm.trans hidx'
      | some i =>
          have hget : p.skillGetOf home id = some ((p.heap.mems cell).t4.skills[i]!.bodyTok,
              (p.heap.mems cell).t4.skills[i]!.tier) := by
            rw [Proc.skillGetOf, hcell, Option.bind_some, MemSubstrate.skillGet, hidx]
            rfl
          cases hscore : Proc.scoreOf p.heap evalTbl evalHome
            (p.heap.mems cell).t4.skills[i]!.bodyTok with
          | none =>
              refine .inr ⟨?_, ?_⟩
              · rw [Proc.harnessAdmit, hget]
                dsimp only
                rw [hscore]
              · rintro cell' i' ⟨hcell', hidx', score, hscore', -⟩
                cases hcell.symm.trans hcell'
                cases hidx.symm.trans hidx'
                exact nomatch hscore.symm.trans hscore'
          | some score =>
              refine .inl ⟨cell, i, score, rfl, hidx, hscore, ?_⟩
              rw [Proc.harnessAdmit, hget]
              dsimp only
              rw [hscore]
              dsimp only
              rw [Proc.skillAdmitOf, hcell]

/-- An admission changes no grade, or the one of the skill that scores. -/
theorem harnessAdmit_grades (p : Proc) (home : Handle) (id : BitVec 64) (evalTbl : CapTable Obj)
    (evalHome : Handle) :
    (∀ c, grades ((p.harnessAdmit home id evalTbl evalHome).2.heap.mems c) = grades (p.heap.mems c)) ∧
        (∀ cell i, ¬ Scores p.heap p.table home id evalTbl evalHome cell i) ∨
      ∃ cell i, Scores p.heap p.table home id evalTbl evalHome cell i ∧
        ∀ c, grades ((p.harnessAdmit home id evalTbl evalHome).2.heap.mems c) =
          if c = cell then (grades (p.heap.mems c)).modify i fun g => (g.1, .admitted)
          else grades (p.heap.mems c) := by
  rcases harnessAdmit_eq p home id evalTbl evalHome with
    ⟨cell, i, score, hcell, hidx, hscore, hp⟩ | ⟨hp, hno⟩
  · have hmems : ∀ c, (p.harnessAdmit home id evalTbl evalHome).2.heap.mems c =
        if c = cell then ((p.heap.mems cell).skillAdmit id score).2 else p.heap.mems c := by
      intro c
      rw [hp]
      exact Function.update_apply _ _ _ _
    rcases skillAdmit_grades (p.heap.mems cell) id score with ⟨hsame, hno⟩ | ⟨j, hprom, hmod⟩
    · refine .inl ⟨fun c => ?_, ?_⟩
      · rw [hmems]
        split
        · next heq => rw [heq, hsame]
        · rfl
      · rintro cell' i' ⟨hcell', hidx', score', hscore', hbest⟩
        cases hcell.symm.trans hcell'
        cases hidx.symm.trans hidx'
        cases hscore.symm.trans hscore'
        exact hno i ⟨hidx, hbest⟩
    · cases hidx.symm.trans hprom.1
      refine .inr ⟨cell, i, ⟨hcell, hidx, score, hscore, hprom.2⟩, fun c => ?_⟩
      rw [hmems]
      split
      · next heq => rw [heq, hmod]
      · rfl
  · exact .inl ⟨fun c => by rw [hp], hno⟩

/-- The harness would promote a high-impact skill that is still proposed. -/
def Promoting (heap : Heap) (t : CapTable Obj) (home : Handle) (id : BitVec 64) (evalTbl : CapTable Obj)
    (evalHome : Handle) : Prop :=
  ∃ (cell i : Nat) (k : SkillRecord), Scores heap t home id evalTbl evalHome cell i ∧
    (heap.mems cell).t4.skills[i]? = some k ∧ k.highImpact = true ∧ k.tier = .proposed

theorem highImpact_of_grade {k k' : SkillRecord} (h : k.grade.1 = k'.grade.1) :
    k.highImpact = k'.highImpact :=
  congrArg (fun prov => (prov &&& SKILL_PROV_EMIT_EXTERNAL) != 0) h

theorem harnessAdmit_promotes (p : Proc) (home : Handle) (id : BitVec 64) (evalTbl : CapTable Obj)
    (evalHome : Handle) : Promotes p.heap (p.harnessAdmit home id evalTbl evalHome).2.heap ↔
      Promoting p.heap p.table home id evalTbl evalHome := by
  rcases harnessAdmit_grades p home id evalTbl evalHome with ⟨hsame, hno⟩ | ⟨cell, i, hscores, hmod⟩
  · refine iff_of_false (not_promotes fun c => .inl (.of_grades (hsame c))) ?_
    rintro ⟨cell, i, k, hscores, -⟩
    exact hno cell i hscores
  · constructor
    · intro hprom
      obtain ⟨c, j, k', hk', hhigh, hadm, hprop⟩ := promotes_iff.mp hprom
      have hg := hmod c
      obtain ⟨hc, hj⟩ : c = cell ∧ j = i := by
        by_contra hne
        have hsame : (grades (p.heap.mems c))[j]? = some k'.grade := by
          rw [← getElem?_grades hk', hg]
          split
          · next hc => rw [List.getElem?_modify_ne _ _ fun hi => hne ⟨hc, hi.symm⟩]
          · rfl
        exact SkillTier.noConfusion (hadm.symm.trans (hprop _ hsame))
      subst hc hj
      rw [if_pos rfl] at hg
      have hafter := getElem?_grades hk'
      rw [hg, List.getElem?_modify_eq, grades, List.getElem?_map, Option.map_eq_map,
        Option.map_map] at hafter
      obtain ⟨k, hk, hgrade⟩ := Option.map_eq_some_iff.mp hafter
      refine ⟨c, j, k, hscores, hk, ?_, hprop k.grade (getElem?_grades hk)⟩
      have hprov : k.grade.1 = k'.grade.1 := by rw [← hgrade]; rfl
      rw [← hhigh]
      exact highImpact_of_grade hprov
    · rintro ⟨cell', i', k, hscores', hk, hhigh, htier⟩
      cases hscores.1.symm.trans hscores'.1
      cases hscores.2.1.symm.trans hscores'.2.1
      have hg := hmod cell
      rw [if_pos rfl] at hg
      have hafter : (grades ((p.harnessAdmit home id evalTbl evalHome).2.heap.mems cell))[i]? =
          some (k.provenance, .admitted) := by
        rw [hg, List.getElem?_modify_eq, getElem?_grades hk]
        rfl
      rw [grades, List.getElem?_map] at hafter
      obtain ⟨k', hk', hgrade⟩ := Option.map_eq_some_iff.mp hafter
      refine ⟨cell, i, k', hk', ?_, congrArg Prod.snd hgrade, ?_⟩
      · have hprov : k'.grade.1 = k.grade.1 := by rw [hgrade]; rfl
        rw [← hhigh]
        exact highImpact_of_grade hprov
      · rintro ⟨k₀, hk₀, hadm⟩
        cases hk.symm.trans hk₀
        exact SkillTier.noConfusion (htier.symm.trans hadm)

/-! ## The approval gate -/

/-- The call presented a live handle that carries the approval right. -/
def Approved (w : World ι) : Op ι → Prop
  | .harnessMerge _ _ _ _ _ approvalTbl approval => ∃ i, (w.tables approvalTbl).live approval = .ok i ∧
      ((w.tables approvalTbl).rightsAt i).contains Rights.APPROVE_HIGH_IMPACT = true
  | _ => False

/-- A harness call without a gate promotes a high-impact skill. -/
def Ungated (w : World ι) : Op ι → Prop
  | .harnessAdmit t home id evalTbl evalHome =>
      Promoting w.heap (w.tables t) home id (w.tables evalTbl) evalHome
  | .harnessAdmitRotating t home id evalTbl evalHomes rotation =>
      evalHomes ≠ [] ∧ Promoting w.heap (w.tables t) home id (w.tables evalTbl)
        (evalHomes.getD (rotation.toNat % evalHomes.length) Handle.NULL)
  | _ => False

theorem carriesApproval_true {t : CapTable Obj} {approval : Handle}
    (h : Proc.carriesApproval t approval = .ok true) :
    ∃ i, t.live approval = .ok i ∧ (t.rightsAt i).contains Rights.APPROVE_HIGH_IMPACT = true := by
  rw [Proc.carriesApproval] at h
  split at h
  · cases h
  · split at h
    · cases h
    · next i hl => exact ⟨i, hl, Except.ok.inj h⟩

/-- The classifier reads the skill the harness would promote. -/
theorem highImpactOf_promoting {p : Proc} {home : Handle} {id : BitVec 64} {evalTbl : CapTable Obj}
    {evalHome : Handle} (h : Promoting p.heap p.table home id evalTbl evalHome) :
    p.skillHighImpactOf home id = some true := by
  obtain ⟨cell, i, k, ⟨hcell, hidx, -⟩, hk, hhigh, -⟩ := h
  rw [Proc.skillHighImpactOf, hcell, Option.bind_some, MemSubstrate.skillIsHighImpact, hidx,
    Option.map_some, List.getElem!_eq_getElem?_getD, hk]
  exact congrArg some hhigh

theorem harnessMerge_approved {p : Proc} {home : Handle} {id : BitVec 64}
    {evalTbl approvalTbl : CapTable Obj} {evalHome approval : Handle}
    (h : Promotes p.heap (p.harnessMerge home id evalTbl evalHome approvalTbl approval).2.heap) :
    Proc.carriesApproval approvalTbl approval = .ok true := by
  rw [Proc.harnessMerge] at h
  dsimp only at h
  split at h
  · exact absurd h (not_promotes_of_mems rfl)
  · next hlow =>
      have hhigh := highImpactOf_promoting ((harnessAdmit_promotes p home id evalTbl evalHome).mp h)
      exact nomatch hlow.symm.trans hhigh
  · split at h
    · next happ => exact happ
    · exact absurd h (not_promotes_of_mems rfl)
    · exact absurd h (not_promotes_of_mems rfl)

theorem harnessAdmitRotating_promotes (p : Proc) (home : Handle) (id : BitVec 64)
    (evalTbl : CapTable Obj) (evalHomes : List Handle) (rotation : BitVec 64) :
    Promotes p.heap (p.harnessAdmitRotating home id evalTbl evalHomes rotation).2.heap ↔
      evalHomes ≠ [] ∧ Promoting p.heap p.table home id evalTbl
        (evalHomes.getD (rotation.toNat % evalHomes.length) Handle.NULL) := by
  cases evalHomes with
  | nil => exact iff_of_false (not_promotes_of_mems rfl) fun h => h.1 rfl
  | cons h hs =>
      rw [Proc.harnessAdmitRotating]
      refine (harnessAdmit_promotes p home id evalTbl _).trans ?_
      rw [and_iff_right (List.cons_ne_nil h hs)]

/-- One call: whatever it promotes was approved, unless it is ungated. -/
theorem step_gated (w : World ι) (op : Op ι) :
    (Promotes w.heap (w.step op).heap → Approved w op) ↔ ¬ Ungated w op := by
  have hquiet : ¬ Promotes w.heap (w.step op).heap → ¬ Ungated w op →
      ((Promotes w.heap (w.step op).heap → Approved w op) ↔ ¬ Ungated w op) :=
    fun hno hgated => iff_of_true (fun h => absurd h hno) hgated
  cases op with
  | dispatch t a => exact hquiet (dispatch_not_promotes (w.proc t) w.cognitiveDeny a) not_false
  | chanCall t k => exact hquiet (not_promotes_of_mems rfl) not_false
  | modelInvokeBytes t h prompt respOut => exact hquiet (not_promotes_of_mems rfl) not_false
  | harnessAdmit t home id evalTbl evalHome =>
      refine (imp_congr_left (harnessAdmit_promotes (w.proc t) home id (w.tables evalTbl) evalHome)).trans ?_
      exact Iff.rfl
  | harnessMerge t home id evalTbl evalHome approvalTbl approval =>
      refine iff_of_true (fun h => ?_) not_false
      exact carriesApproval_true (harnessMerge_approved h)
  | harnessAdmitRotating t home id evalTbl evalHomes rotation =>
      refine (imp_congr_left (harnessAdmitRotating_promotes (w.proc t) home id (w.tables evalTbl)
        evalHomes rotation)).trans ?_
      exact Iff.rfl
  | evalSeedHeldout t evalHome target base n =>
      refine hquiet ?_ not_false
      show ¬ Promotes w.heap ((w.proc t).evalSeedHeldout evalHome target base n).2.heap
      rw [Proc.evalSeedHeldout]
      split
      · exact not_promotes_of_mems rfl
      · exact not_promotes_setMem (.of_t4 (t4_seedHeldout _ target base n))
  | mint t rights what =>
      refine hquiet (not_promotes fun c => ?_) not_false
      show Proposes _ (Function.update w.heap.mems w.heap.next MemSubstrate.new c) ∨
        (Function.update w.heap.mems w.heap.next MemSubstrate.new c).t4.skills = []
      rw [Function.update_apply]
      split
      · exact .inr rfl
      · exact .inl (.of_t4 rfl)
  | createChannel bound => exact hquiet (not_promotes_of_mems rfl) not_false
  | createBlock frames => exact hquiet (not_promotes_of_mems rfl) not_false
  | killBlock cell => exact hquiet (not_promotes_of_mems rfl) not_false
  | setCognitiveDeny v => exact hquiet (not_promotes_of_mems rfl) not_false

/-- Every high-impact skill a run promotes is promoted by a call that presented an
approval. -/
def Approves (w : World ι) (ops : List (Op ι)) : Prop :=
  ∀ pre op post, ops = pre ++ op :: post →
    Promotes (exec World.step w pre).heap ((exec World.step w pre).step op).heap →
    Approved (exec World.step w pre) op

/-- A run keeps the approval gate exactly when none of its calls is ungated. -/
theorem approval_gate_along_runs (w : World ι) (ops : List (Op ι)) :
    Approves w ops ↔ Guarded World.step (fun w op => ¬ Ungated w op) w ops := by
  rw [guarded_iff]
  refine forall_congr' fun pre => forall_congr' fun op => forall_congr' fun post =>
    forall_congr' fun _ => ?_
  exact step_gated (exec World.step w pre) op

/-- A home for skills and an evaluator's home; one held-out case; a skill with an external
effect, proposed through its method. -/
def proposeExternal : List (Op Bool) :=
  [.mint false (Rights.READ.union Rights.WRITE_PROCEDURAL) .memoryHome,
   .mint true Rights.READ .memoryHome,
   .evalSeedHeldout true (Handle.new 1 0) 5 0 1,
   .dispatch false ⟨18, Handle.new 1 0, 5, 5, 0, 0⟩]

def admitExternal : Op Bool := .harnessAdmit false (Handle.new 1 0) 0 true (Handle.new 1 0)

/-- Admitted, and nobody approved. -/
theorem admitted_unapproved :
    ¬ Approves (World.boot fun _ => 4) (proposeExternal ++ [admitExternal]) := by
  intro h
  have hafter : (((exec World.step (World.boot fun _ => 4) proposeExternal).step
      admitExternal).heap.mems 0).t4.skills[0]?.any (fun k => k.highImpact && k.tier == .admitted) = true := by
    decide
  have hbefore : ((exec World.step (World.boot fun _ => 4) proposeExternal).heap.mems
      0).t4.skills[0]?.any (fun k => k.tier == .admitted) = false := by
    decide
  obtain ⟨k', hk', hboth⟩ := (Option.any_eq_true _ _).mp hafter
  obtain ⟨hhigh, hadm⟩ := Bool.and_eq_true_iff.mp hboth
  refine h proposeExternal admitExternal [] rfl ⟨0, 0, k', hk', hhigh, beq_iff_eq.mp hadm, ?_⟩
  rintro ⟨k, hk, htier⟩
  rw [hk, Option.any_some, htier] at hbefore
  cases hbefore

/-! ## The cognitive latch -/

/-- A call into one of the four families, through either door. -/
def Cognitive : Op ι → Prop
  | .dispatch _ a => (Method.ofNumber a.method).any isCognitiveFamily = true
  | .modelInvokeBytes .. => True
  | _ => False

/-- The call answers `Denied`, hands nothing back, and changes nothing. -/
def Denies (w : World ι) (op : Op ι) : Prop :=
  w.step op = w ∧
    match op with
    | .dispatch t a => ((w.proc t).dispatch w.cognitiveDeny a).1 = .err .denied
    | .modelInvokeBytes t h prompt respOut =>
        modelInvokeBytes (w.tables t) h prompt respOut = (.denied, none, respOut)
    | _ => False

/-- The facade runs with the latch set, on anything but a live handle that lacks the
right to invoke. -/
def Leaks (w : World ι) : Op ι → Prop
  | .modelInvokeBytes t h _ _ => w.cognitiveDeny = true ∧
      ¬ ∃ i, (w.tables t).live h = .ok i ∧
        ((w.tables t).rightsAt i).contains Rights.INVOKE_MODEL = false
  | _ => False

theorem dispatch_denied {p : Proc} {a : SyscallArgs}
    (h : (Method.ofNumber a.method).any isCognitiveFamily = true) :
    p.dispatch true a = (.err .denied, p) := by
  rw [Proc.dispatch, Bool.true_and, if_pos h]

/-- The facade's answer is decided by the handle alone. -/
theorem modelInvokeBytes_denied_iff (t : CapTable Obj) (h : Handle) (prompt respOut : List UInt8) :
    modelInvokeBytes t h prompt respOut = (.denied, none, respOut) ↔
      ∃ i, t.live h = .ok i ∧ (t.rightsAt i).contains Rights.INVOKE_MODEL = false := by
  rw [modelInvokeBytes]
  cases hl : t.live h with
  | error e =>
      refine iff_of_false ?_ fun ⟨i, hi, _⟩ => nomatch hi
      intro hden
      have hstat : e = .denied := congrArg Prod.fst hden
      rw [hstat] at hl
      exact live_ne_denied hl
  | ok i =>
      cases hr : (t.rightsAt i).contains Rights.INVOKE_MODEL with
      | false => exact iff_of_true (by simp [hr]) ⟨i, rfl, hr⟩
      | true =>
          refine iff_of_false ?_ ?_
          · obtain ⟨-, o, -, -, ho, -⟩ := objectAt_of_live hl
            simp only [hr, ho, Bool.not_true, Bool.false_eq_true, if_false]
            split <;> exact fun hden => nomatch hden
          · rintro ⟨j, hj, hfalse⟩
            cases hj
            exact nomatch hr.symm.trans hfalse

theorem step_latched (w : World ι) (op : Op ι) :
    (w.cognitiveDeny = true → Cognitive op → Denies w op) ↔ ¬ Leaks w op := by
  cases op with
  | dispatch t a =>
      refine iff_of_true (fun hlatch hcog => ?_) not_false
      have hden := dispatch_denied (p := w.proc t) hcog
      refine ⟨?_, ?_⟩
      · show w.commit t ((w.proc t).dispatch w.cognitiveDeny a).2 = w
        rw [hlatch, hden]
        exact w.commit_proc t
      · show ((w.proc t).dispatch w.cognitiveDeny a).1 = _
        rw [hlatch, hden]
  | modelInvokeBytes t h prompt respOut =>
      have hiff := modelInvokeBytes_denied_iff (w.tables t) h prompt respOut
      constructor
      · rintro hden ⟨hlatch, hlive⟩
        exact hlive (hiff.mp (hden hlatch trivial).2)
      · intro hno hlatch _
        exact ⟨rfl, hiff.mpr (not_not.mp fun hlive => hno ⟨hlatch, hlive⟩)⟩
  | chanCall | harnessAdmit | harnessMerge | harnessAdmitRotating | evalSeedHeldout | mint
  | createChannel | createBlock | killBlock | setCognitiveDeny =>
      exact iff_of_true (fun _ hcog => hcog.elim) not_false

/-- With the latch set, every cognitive call of the run is denied. -/
def Latched (w : World ι) (ops : List (Op ι)) : Prop :=
  ∀ pre op post, ops = pre ++ op :: post → (exec World.step w pre).cognitiveDeny = true →
    Cognitive op → Denies (exec World.step w pre) op

/-- A run keeps the latch exactly when the byte facade leaks on none of its calls. -/
theorem cognitive_latch_along_runs (w : World ι) (ops : List (Op ι)) :
    Latched w ops ↔ Guarded World.step (fun w op => ¬ Leaks w op) w ops := by
  rw [guarded_iff]
  refine forall_congr' fun pre => forall_congr' fun op => forall_congr' fun post =>
    forall_congr' fun _ => ?_
  exact step_latched (exec World.step w pre) op

/-- A session opened, then the latch set. -/
def latchSession : List (Op Unit) :=
  [.mint () Rights.INVOKE_MODEL (.session ⟨mockBackend, 0⟩), .setCognitiveDeny true]

/-- The latch is set, and the backend answers the prompt. -/
theorem facade_ignores_latch : ¬ Latched (World.boot fun _ => 4)
    (latchSession ++ [.modelInvokeBytes () (Handle.new 1 0) [104, 105] (List.replicate 1280 0)]) := by
  intro h
  have hden := (h latchSession _ [] rfl rfl trivial).2
  have hstat : (modelInvokeBytes ((exec World.step (World.boot fun _ => 4) latchSession).tables ())
      (Handle.new 1 0) [104, 105] (List.replicate 1280 0)).1 = .ok := by
    decide +kernel
  rw [hden] at hstat
  cases hstat

end Yuva.Kernel
